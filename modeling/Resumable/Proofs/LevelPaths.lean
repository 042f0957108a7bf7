/-
**The levels of all paths.**

A path through a graph goes from instruction to instruction, to a handler where an exception is
thrown, and from the end of a node to the next.  On its way it has a stack of some depth and holds
some monitors.  The check of stack depths and monitors enters each node once and compares the level
at which it is entered again; this decides what happens along all paths, of which there are
infinitely many as soon as there is a loop, and whatever the order in which nodes are taken up.

One half is that the check only ever knows levels of paths, so that what it refuses is refused on
some path.  The other half is that the levels it ends with are a fixpoint, and then every path
agrees with them step by step.

Main results:

* `Graph.Agrees.moves` — one step of a path keeps the agreement with the levels;
* `Graph.spreadBy_spec` — **what the check ends with in any order**;
* `Graph.balance_exact` — **the check accepts a graph exactly if its paths are in balance**.
-/

import Resumable.Options
import Resumable.Proofs.InstructionFacts
import Resumable.Proofs.Reached

set_option autoImplicit false

namespace Resumable

open Relation List

/-! ### Paths -/

/-- The level that an instruction leaves. -/
def Instr.after (i : Instr) (l : Level) : Level :=
  ⟨l.stack - i.pops + i.pushes, i.monitorsAfter l.monitors⟩

/-- Where a path is: in a node, before the instruction with an index or behind the last one, and at
a level. -/
structure Stop where
  node : Nat
  index : Nat
  level : Level

namespace Stop

/-- The start of a node. -/
def start (n : Nat) (l : Level) : Stop := ⟨n, 0, l⟩

/-- The path is before an instruction. -/
def Before (g : Graph) (s : Stop) (i : Instr) : Prop :=
  ∃ node, g.node? s.node = some node ∧ node.instrs[s.index]? = some i

/-- The path is at the end of a node. -/
def AtExit (g : Graph) (s : Stop) (x : Exit) : Prop :=
  ∃ node, g.node? s.node = some node ∧ s.index = node.instrs.length ∧ node.exit = x

end Stop

namespace Graph

/-- **One step of a path.** -/
inductive Moves (g : Graph) (ret : Ty) (s : Stop) : Stop → Prop where
  | instr {i : Instr} : s.Before g i → g.Moves ret s ⟨s.node, s.index + 1, i.after s.level⟩
  | thrown {i : Instr} {h : Nat} : s.Before g i → i.mayThrow = true → h ∈ g.handlers s.node →
      g.Moves ret s (.start h s.level.caught)
  | failed {c : Callee} {r h : Nat} : s.AtExit g (.suspend c r) → h ∈ g.handlers s.node →
      g.Moves ret s (.start h s.level.caught)
  | raised {h : Nat} : s.AtExit g (.leave .raise) → h ∈ g.handlers s.node →
      g.Moves ret s (.start h s.level.caught)
  | resumed {c : Callee} {r : Nat} : s.AtExit g (.suspend c r) →
      g.Moves ret s (.start r ⟨c.ret.slots, 0⟩)
  | left {t : Terminator} {k : Nat} : s.AtExit g (.leave t) → k ∈ t.successors →
      g.Moves ret s (.start k ⟨s.level.stack - t.pops ret, s.level.monitors⟩)

/-- **A path is at fault**: it takes an operand or a monitor that is not there, it comes to a marker
not with the future alone, it returns with a monitor, or it meets the end of a cleanup body. -/
inductive Faulty (g : Graph) (ret : Ty) (s : Stop) : Prop where
  | operands {i : Instr} : s.Before g i → s.level.stack < i.pops → g.Faulty ret s
  | monitor : s.Before g .monitorExit → s.level.monitors = 0 → g.Faulty ret s
  | marker {c : Callee} {r : Nat} : s.AtExit g (.suspend c r) → s.level ≠ ⟨1, 0⟩ → g.Faulty ret s
  | leaving {t : Terminator} : s.AtExit g (.leave t) → s.level.stack < t.pops ret → g.Faulty ret s
  | holding : s.AtExit g (.leave .ret) → s.level.monitors ≠ 0 → g.Faulty ret s
  | stray : s.AtExit g (.leave .endCleanup) → g.Faulty ret s

/-- Some path from the entry, with an empty stack and no monitor, gets there. -/
def Visits (g : Graph) (ret : Ty) (s : Stop) : Prop :=
  ReflTransGen (g.Moves ret) (.start g.entry ⟨0, 0⟩) s

/-- **The paths are in balance**: none is at fault, and those that get to a node agree there. -/
structure Balanced (g : Graph) (ret : Ty) : Prop where
  faultless : ∀ s, g.Visits ret s → ¬ g.Faulty ret s
  agree : ∀ n l l', g.Visits ret (.start n l) → g.Visits ret (.start n l') → l = l'

end Graph

/-! ### Paths through one node -/

variable {i : Instr} {l : Level}

theorem Instr.level_of_enough (hle : i.pops ≤ l.stack) (hheld : i = .monitorExit → l.monitors ≠ 0) :
    i.level l = .ok (i.after l) := by
  unfold level
  rw [if_neg (Nat.not_lt.2 hle)]
  cases i with
  | monitorExit => exact if_neg (hheld rfl)
  | _ => rfl

theorem Instr.level_eq_ok {l' : Level} (h : i.level l = .ok l') :
    i.pops ≤ l.stack ∧ (i = .monitorExit → l.monitors ≠ 0) ∧ l' = i.after l := by
  have hle : i.pops ≤ l.stack := by
    by_contra hlt
    rw [level, if_pos (Nat.lt_of_not_le hlt)] at h
    cases h
  have hheld : i = .monitorExit → l.monitors ≠ 0 := by
    rintro rfl hnone
    rw [level, if_neg (Nat.not_lt.2 hle)] at h
    simp only [hnone, if_true] at h
    cases h
  rw [level_of_enough hle hheld] at h
  exact ⟨hle, hheld, (Except.ok.inj h).symm⟩

theorem Instr.level_eq_error {c : Cause} (h : i.level l = .error c) :
    l.stack < i.pops ∨ (i = .monitorExit ∧ l.monitors = 0) := by
  by_contra hno
  obtain ⟨hle, hheld⟩ := not_or.1 hno
  rw [level_of_enough (Nat.le_of_not_lt hle) fun hi hnone => hheld ⟨hi, hnone⟩] at h
  cases h

/-- The edges from the end of a node that is reached at a level. -/
def Node.exitEdges (n : Node) (ret : Ty) (hs : List Nat) (l : Level) : Except Cause (List Edge) :=
  match n.exit with
  | .suspend marker resume => suspendEdges marker resume hs l n.exitLocation
  | .leave t => t.edges ret hs l n.exitLocation

namespace Graph

variable {g : Graph} {ret : Ty} {n k origin offset : Nat} {node : Node} {l last : Level}
  {es fs : List Edge} {s t : Stop} {i : Instr}

theorem before_unique {j : Instr} (hi : s.Before g i) (hj : s.Before g j) : i = j := by
  obtain ⟨node, hnode, hi⟩ := hi
  obtain ⟨node', hnode', hj⟩ := hj
  rw [hnode] at hnode'
  cases hnode'
  exact Option.some.inj (hi.symm.trans hj)

theorem not_atExit_of_before {x : Exit} (hi : s.Before g i) : ¬ s.AtExit g x := by
  obtain ⟨node, hnode, hi⟩ := hi
  rintro ⟨node', hnode', hindex, -⟩
  rw [hnode] at hnode'
  cases hnode'
  rw [hindex, getElem?_eq_none (Nat.le_refl _)] at hi
  cases hi

theorem Moves.of_before (h : g.Moves ret s t) (hi : s.Before g i) :
    t = ⟨s.node, s.index + 1, i.after s.level⟩ ∨
      (i.mayThrow = true ∧ ∃ h ∈ g.handlers s.node, t = .start h s.level.caught) := by
  cases h with
  | instr hj =>
    obtain rfl := before_unique hi hj
    exact .inl rfl
  | thrown hj hthrow hh =>
    obtain rfl := before_unique hi hj
    exact .inr ⟨hthrow, _, hh, rfl⟩
  | failed hx _ => exact absurd hx (not_atExit_of_before hi)
  | raised hx _ => exact absurd hx (not_atExit_of_before hi)
  | resumed hx => exact absurd hx (not_atExit_of_before hi)
  | left hx _ => exact absurd hx (not_atExit_of_before hi)

theorem Faulty.of_before (h : g.Faulty ret s) (hi : s.Before g i) :
    s.level.stack < i.pops ∨ (i = .monitorExit ∧ s.level.monitors = 0) := by
  cases h with
  | operands hj hlt =>
    obtain rfl := before_unique hi hj
    exact .inl hlt
  | monitor hj hnone => exact .inr ⟨before_unique hi hj, hnone⟩
  | marker hx _ => exact absurd hx (not_atExit_of_before hi)
  | leaving hx _ => exact absurd hx (not_atExit_of_before hi)
  | holding hx _ => exact absurd hx (not_atExit_of_before hi)
  | stray hx => exact absurd hx (not_atExit_of_before hi)

/-- A run of instructions goes to its edges and to its end. -/
theorem moves_throughInstrs (ret : Ty) (hnode : g.node? n = some node) (hk : k ≤ node.instrs.length)
    (h : throughInstrs (g.handlers n) origin offset l (node.instrs.drop k) = .ok (es, last)) :
    (∀ e ∈ es, ReflTransGen (g.Moves ret) ⟨n, k, l⟩ (.start e.target e.level)) ∧
      ReflTransGen (g.Moves ret) ⟨n, k, l⟩ ⟨n, node.instrs.length, last⟩ := by
  generalize his : node.instrs.drop k = is at h
  induction is generalizing k offset l es with
  | nil =>
    cases h
    have hlength := drop_eq_nil_iff.1 his
    obtain rfl := Nat.le_antisymm hk hlength
    exact ⟨by simp, .refl⟩
  | cons i is ih =>
    obtain ⟨hi, hrest⟩ := getElem?_of_drop_eq_cons his
    have hbefore : Stop.Before g ⟨n, k, l⟩ i := ⟨node, hnode, hi⟩
    unfold throughInstrs at h
    split at h
    · cases h
    · rename_i after hafter
      obtain ⟨-, -, rfl⟩ := Instr.level_eq_ok hafter
      split at h
      · cases h
      · rename_i rest last' hthrough
        cases h
        obtain ⟨hedges, hend⟩ := ih (List.getElem?_eq_some_iff.1 hi).1 hrest hthrough
        have hstep : ReflTransGen (g.Moves ret) ⟨n, k, l⟩ ⟨n, k + 1, i.after l⟩ :=
          .single (.instr hbefore)
        refine ⟨fun e he => ?_, hstep.trans hend⟩
        rcases mem_append.1 he with he | he
        · split at he
          · rename_i hthrow
            obtain ⟨j, hj, rfl⟩ := mem_map.1 he
            exact .single (.thrown hbefore hthrow hj)
          · cases he
        · exact hstep.trans (hedges e he)

/-- A run of instructions that is refused is at fault somewhere. -/
theorem exists_faulty_throughInstrs (hnode : g.node? n = some node) {d : Defect}
    (h : throughInstrs (g.handlers n) origin offset l (node.instrs.drop k) = .error d) :
    ∃ s, ReflTransGen (g.Moves ret) ⟨n, k, l⟩ s ∧ g.Faulty ret s := by
  generalize his : node.instrs.drop k = is at h
  induction is generalizing k offset l d with
  | nil => cases h
  | cons i is ih =>
    obtain ⟨hi, hrest⟩ := getElem?_of_drop_eq_cons his
    have hbefore : Stop.Before g ⟨n, k, l⟩ i := ⟨node, hnode, hi⟩
    unfold throughInstrs at h
    split at h
    · rename_i c hc
      refine ⟨_, .refl, ?_⟩
      rcases Instr.level_eq_error hc with hlt | ⟨rfl, hnone⟩
      · exact .operands hbefore hlt
      · exact .monitor hbefore hnone
    · rename_i after hafter
      obtain ⟨-, -, rfl⟩ := Instr.level_eq_ok hafter
      split at h
      · rename_i d' hd
        obtain ⟨s, hs, hfaulty⟩ := ih hrest hd
        exact ⟨s, .head (.instr hbefore) hs, hfaulty⟩
      · cases h

theorem atExit_iff (hnode : g.node? n = some node) {x : Exit} :
    Stop.AtExit g ⟨n, node.instrs.length, l⟩ x ↔ node.exit = x := by
  constructor
  · rintro ⟨node', hnode', -, hx⟩
    rw [hnode] at hnode'
    cases hnode'
    exact hx
  · exact fun hx => ⟨node, hnode, rfl, hx⟩

theorem not_before_exit (hnode : g.node? n = some node) :
    ¬ Stop.Before g ⟨n, node.instrs.length, l⟩ i := by
  rintro ⟨node', hnode', hi⟩
  rw [hnode] at hnode'
  cases hnode'
  rw [getElem?_eq_none (Nat.le_refl _)] at hi
  cases hi

theorem moves_exit_iff (hnode : g.node? n = some node) :
    g.Moves ret ⟨n, node.instrs.length, l⟩ t ↔
      match node.exit with
      | .suspend c r =>
        (∃ h ∈ g.handlers n, t = .start h l.caught) ∨ t = .start r ⟨c.ret.slots, 0⟩
      | .leave x =>
        (x = .raise ∧ ∃ h ∈ g.handlers n, t = .start h l.caught) ∨
          ∃ k ∈ x.successors, t = .start k ⟨l.stack - x.pops ret, l.monitors⟩ := by
  constructor
  · intro h
    cases h with
    | instr hi => exact absurd hi (not_before_exit hnode)
    | thrown hi _ _ => exact absurd hi (not_before_exit hnode)
    | failed hx hh =>
      rw [(atExit_iff hnode).1 hx]
      exact .inl ⟨_, hh, rfl⟩
    | raised hx hh =>
      rw [(atExit_iff hnode).1 hx]
      exact .inl ⟨rfl, _, hh, rfl⟩
    | resumed hx =>
      rw [(atExit_iff hnode).1 hx]
      exact .inr rfl
    | left hx hk =>
      rw [(atExit_iff hnode).1 hx]
      exact .inr ⟨_, hk, rfl⟩
  · intro h
    split at h
    · rename_i c r hexit
      have hx := (atExit_iff (l := l) hnode).2 hexit
      rcases h with ⟨j, hj, rfl⟩ | rfl
      · exact .failed hx hj
      · exact .resumed hx
    · rename_i x hexit
      have hx := (atExit_iff (l := l) hnode).2 hexit
      rcases h with ⟨rfl, j, hj, rfl⟩ | ⟨j, hj, rfl⟩
      · exact .raised hx hj
      · exact .left hx hj

theorem faulty_exit_iff (hnode : g.node? n = some node) :
    g.Faulty ret ⟨n, node.instrs.length, l⟩ ↔
      match node.exit with
      | .suspend _ _ => l ≠ ⟨1, 0⟩
      | .leave x => l.stack < x.pops ret ∨ (x = .ret ∧ l.monitors ≠ 0) ∨ x = .endCleanup := by
  constructor
  · intro h
    cases h with
    | operands hi _ => exact absurd hi (not_before_exit hnode)
    | monitor hi _ => exact absurd hi (not_before_exit hnode)
    | marker hx hne =>
      rw [(atExit_iff hnode).1 hx]
      exact hne
    | leaving hx hlt =>
      rw [(atExit_iff hnode).1 hx]
      exact .inl hlt
    | holding hx hne =>
      rw [(atExit_iff hnode).1 hx]
      exact .inr (.inl ⟨rfl, hne⟩)
    | stray hx =>
      rw [(atExit_iff hnode).1 hx]
      exact .inr (.inr rfl)
  · intro h
    split at h
    · rename_i c r hexit
      exact .marker ((atExit_iff hnode).2 hexit) h
    · rename_i x hexit
      have hx := (atExit_iff (l := l) hnode).2 hexit
      rcases h with hlt | ⟨rfl, hne⟩ | rfl
      · exact .leaving hx hlt
      · exact .holding hx hne
      · exact .stray hx

/-- **The end of a node**: its edges are the steps from there, and none is at fault. -/
theorem moves_exitEdges (hnode : g.node? n = some node)
    (h : node.exitEdges ret (g.handlers n) l = .ok fs) :
    (∀ t, g.Moves ret ⟨n, node.instrs.length, l⟩ t ↔ ∃ e ∈ fs, t = .start e.target e.level) ∧
      ¬ g.Faulty ret ⟨n, node.instrs.length, l⟩ := by
  unfold Node.exitEdges at h
  rw [faulty_exit_iff hnode]
  simp only [moves_exit_iff hnode]
  cases hexit : node.exit with
  | suspend c r =>
    simp only [hexit] at h
    obtain ⟨hl, rfl⟩ := suspendEdges_eq_ok h
    refine ⟨fun t => ?_, fun hne => hne hl⟩
    simp [caughtEdges, or_and_right, exists_or]
  | leave x =>
    simp only [hexit] at h
    obtain ⟨hle, hret, hend, rfl⟩ := Terminator.edges_eq_ok h
    refine ⟨fun t => ?_, ?_⟩
    · by_cases hx : x = .raise <;> simp [hx, caughtEdges, Terminator.successors]
    · rintro (hlt | ⟨hx, hne⟩ | hx)
      · exact Nat.not_lt.2 hle hlt
      · exact hne (hret hx)
      · exact hend hx

/-- The end of a node that is refused is at fault. -/
theorem faulty_of_exitEdges (hnode : g.node? n = some node) {c : Cause}
    (h : node.exitEdges ret (g.handlers n) l = .error c) :
    g.Faulty ret ⟨n, node.instrs.length, l⟩ := by
  unfold Node.exitEdges at h
  rw [faulty_exit_iff hnode]
  cases hexit : node.exit with
  | suspend c r =>
    simp only [hexit] at h
    rintro rfl
    simp [suspendEdges] at h
  | leave x =>
    simp only [hexit] at h
    have hspec := x.edges_spec ret (g.handlers n) l node.exitLocation
    rw [h] at hspec
    exact hspec

/-- The edges out of a node are ends of paths through it. -/
theorem moves_edgesOf {es : List Edge} (h : g.edgesOf ret n l = .ok es) :
    ∀ e ∈ es, ReflTransGen (g.Moves ret) (.start n l) (.start e.target e.level) := by
  unfold edgesOf at h
  split at h
  · rename_i node hnode
    obtain ⟨before, last, after, hthrough, hexit, rfl⟩ := Node.edges_eq_ok_levels h
    obtain ⟨hbefore, hend⟩ := moves_throughInstrs ret hnode (Nat.zero_le _) hthrough
    intro e he
    rcases mem_append.1 he with he | he
    · exact hbefore e he
    · exact hend.tail (((moves_exitEdges hnode hexit).1 _).2 ⟨e, he, rfl⟩)
  · cases h
    simp

/-- A path through a node that is refused is at fault somewhere. -/
theorem exists_faulty_edgesOf {d : Defect} (h : g.edgesOf ret n l = .error d) :
    ∃ s, ReflTransGen (g.Moves ret) (.start n l) s ∧ g.Faulty ret s := by
  unfold edgesOf at h
  split at h
  · rename_i node hnode
    unfold Node.edges at h
    split at h
    · rename_i d' hd
      exact exists_faulty_throughInstrs hnode hd
    · rename_i before last hthrough
      obtain ⟨-, hend⟩ := moves_throughInstrs ret hnode (Nat.zero_le _) hthrough
      simp only at h
      split at h
      · rename_i c hc
        exact ⟨_, hend, faulty_of_exitEdges hnode hc⟩
      · cases h
  · cases h

/-! ### Levels that are a fixpoint -/

/-- The entry and whatever a node can go to are nodes. -/
structure Closed (g : Graph) : Prop where
  entry : g.entry < g.size
  next : ∀ n k, k ∈ g.next n → k < g.size

theorem closed_ofMethod {m : Method} {isMarker : String → Bool} (h : m.Sound) :
    (ofMethod m isMarker).Closed :=
  ⟨Nat.lt_of_lt_of_le h.entry (length_blocks_le_size m isMarker), fun _ _ => lt_size_of_mem_next h⟩

/-- **A path agrees with the levels**: it is in a node that has one, which is its own at the start
of the node, and the rest of the node leads to nodes at their levels. -/
structure Agrees (g : Graph) (ret : Ty) (levels : List (Option Level)) (s : Stop) : Prop where
  known : ∃ l, levels[s.node]? = some (some l)
  first : s.index = 0 → levels[s.node]? = some (some s.level)
  ahead : ∃ node offset es last fs, g.node? s.node = some node ∧ s.index ≤ node.instrs.length ∧
    throughInstrs (g.handlers s.node) node.origin offset s.level (node.instrs.drop s.index) =
      .ok (es, last) ∧
    node.exitEdges ret (g.handlers s.node) last = .ok fs ∧
    ∀ e ∈ es ++ fs, levels[e.target]? = some (some e.level)

variable {levels : List (Option Level)} {s t : Stop}

theorem Agrees.start (hclosed : g.Closed) (hlength : levels.length = g.size)
    (hl : levels[n]? = some (some l)) (h : g.Steady ret levels n l) :
    g.Agrees ret levels (.start n l) := by
  obtain ⟨es, hes, hagree⟩ := h
  have htarget : ∀ e ∈ es, levels[e.target]? = some (some e.level) := fun e he =>
    hagree e he (hlength ▸ hclosed.next n e.target (goes_target hes he).mem_next)
  have hlt : n < g.size := hlength ▸ (List.getElem?_eq_some_iff.1 hl).1
  obtain ⟨node, hnode⟩ : ∃ node, g.node? n = some node := ⟨_, List.getElem?_eq_getElem hlt⟩
  simp only [edgesOf, hnode] at hes
  obtain ⟨before, last, after, hthrough, hexit, rfl⟩ := Node.edges_eq_ok_levels hes
  exact ⟨⟨l, hl⟩, fun _ => hl, _, _, before, last, after, hnode, Nat.zero_le _, hthrough, hexit,
    htarget⟩

/-- What a path that agrees with the levels has ahead: an instruction that it can take, or the end
of the node. -/
theorem Agrees.ahead_cases (h : g.Agrees ret levels s) :
    (∃ i, s.Before g i ∧ i.level s.level = .ok (i.after s.level) ∧
      g.Agrees ret levels ⟨s.node, s.index + 1, i.after s.level⟩ ∧
      (i.mayThrow = true → ∀ k ∈ g.handlers s.node, levels[k]? = some (some s.level.caught))) ∨
    ∃ node fs, g.node? s.node = some node ∧ s.index = node.instrs.length ∧
      node.exitEdges ret (g.handlers s.node) s.level = .ok fs ∧
      ∀ e ∈ fs, levels[e.target]? = some (some e.level) := by
  obtain ⟨node, offset, es, last, fs, hnode, hle, hthrough, hexit, htarget⟩ := h.ahead
  generalize his : node.instrs.drop s.index = is at hthrough
  cases is with
  | nil =>
    cases hthrough
    exact .inr ⟨node, fs, hnode, Nat.le_antisymm hle (drop_eq_nil_iff.1 his), hexit,
      by simpa using htarget⟩
  | cons i is =>
    obtain ⟨hi, rfl⟩ := getElem?_of_drop_eq_cons his
    unfold throughInstrs at hthrough
    split at hthrough
    · cases hthrough
    · rename_i after hafter
      obtain ⟨-, -, rfl⟩ := Instr.level_eq_ok hafter
      split at hthrough
      · cases hthrough
      · rename_i rest last' hrest
        cases hthrough
        refine .inl ⟨i, ⟨node, hnode, hi⟩, hafter,
          ⟨h.known, fun heq => absurd heq (Nat.succ_ne_zero _), ?_⟩, ?_⟩
        · refine ⟨node, offset + 1, rest, _, fs, hnode, (List.getElem?_eq_some_iff.1 hi).1,
            hrest, hexit, fun e he => htarget e ?_⟩
          rw [append_assoc]
          exact mem_append_right _ he
        · intro hthrow k hk
          refine htarget ⟨k, s.level.caught, ⟨node.origin, offset⟩⟩ ?_
          rw [if_pos hthrow, append_assoc]
          exact mem_append_left _ (mem_map_of_mem hk)

theorem Agrees.not_faulty (h : g.Agrees ret levels s) : ¬ g.Faulty ret s := by
  rcases h.ahead_cases with ⟨i, hi, hlevel, -, -⟩ | ⟨node, fs, hnode, hindex, hexit, -⟩
  · obtain ⟨hle, hheld, -⟩ := Instr.level_eq_ok hlevel
    intro hfaulty
    rcases hfaulty.of_before hi with hlt | ⟨hi, hnone⟩
    · exact Nat.not_lt.2 hle hlt
    · exact hheld hi hnone
  · obtain ⟨n, k, l⟩ := s
    obtain rfl : k = node.instrs.length := hindex
    exact (moves_exitEdges hnode hexit).2

/-- **One step of a path** keeps the agreement with levels that are a fixpoint. -/
theorem Agrees.moves (h : g.Agrees ret levels s) (hst : g.Moves ret s t)
    (hstart : ∀ n l, levels[n]? = some (some l) → g.Agrees ret levels (.start n l)) :
    g.Agrees ret levels t := by
  rcases h.ahead_cases with ⟨i, hi, -, hnext, hcaught⟩ | ⟨node, fs, hnode, hindex, hexit, htarget⟩
  · rcases hst.of_before hi with rfl | ⟨hthrow, k, hk, rfl⟩
    · exact hnext
    · exact hstart _ _ (hcaught hthrow k hk)
  · obtain ⟨n, k, l⟩ := s
    obtain rfl : k = node.instrs.length := hindex
    obtain ⟨e, he, rfl⟩ := ((moves_exitEdges hnode hexit).1 t).1 hst
    exact hstart _ _ (htarget e he)

end Graph

/-! ### Following the nodes in any order -/

namespace Spread

variable {g : Graph} {s : Spread} {e : Edge} {es : List Edge} {P : Nat → Level → Prop}

/-- An edge is refused if its target has another level. -/
theorem exists_of_absorb_error {d : Defect} (h : s.absorb g e = .error d) :
    ∃ l, s.levels[e.target]? = some (some l) ∧ l ≠ e.level := by
  unfold absorb at h
  split at h
  · cases h
  · cases h
  · rename_i l hl
    split at h
    · cases h
    · rename_i hne
      exact ⟨l, hl, hne⟩

/-- If edges are refused that hold of something, as the levels that are known do, then two levels
that do differ. -/
theorem exists_of_absorbAll_error {d : Defect} (hs : ∀ n l, s.levels[n]? = some (some l) → P n l)
    (hes : ∀ e ∈ es, P e.target e.level) (h : s.absorbAll g es = .error d) :
    ∃ n l l', P n l ∧ P n l' ∧ l ≠ l' := by
  induction es generalizing s with
  | nil => cases h
  | cons e es ih =>
    obtain ⟨he, hes⟩ := forall_mem_cons.1 hes
    unfold absorbAll at h
    split at h
    · rename_i hd
      obtain ⟨l, hl, hne⟩ := exists_of_absorb_error hd
      exact ⟨e.target, l, e.level, hs _ _ hl, he, hne⟩
    · rename_i t ht
      refine ih (fun n l hn => ?_) hes h
      rcases (absorbs_of_absorb ht).new n l hn with hn | ⟨-, e', he', rfl, rfl⟩
      · exact hs n l hn
      · rwa [mem_singleton.1 he']

end Spread

/-- **An order in which to follow the nodes**: which node comes next, and how the others are kept,
may depend on all that is known so far. -/
structure Order where
  arrange : Spread → List Nat
  perm : ∀ s, (arrange s).Perm s.queue

/-- First come first served. -/
def Order.given : Order := ⟨Spread.queue, fun _ => .refl _⟩

namespace Graph

variable {g : Graph} {ret : Ty} {ω : Order} {s t : Spread}

/-- Follows the edges of the nodes in the queue in an order, until none is left. -/
def spreadBy (g : Graph) (ret : Ty) (ω : Order) (s : Spread) :
    Except Defect (List (Option Level)) :=
  match _hq : ω.arrange s with
  | [] => .ok s.levels
  | n :: rest =>
    match s.levels[n]?.join with
    | none => g.spreadBy ret ω ⟨s.levels, rest⟩
    | some l =>
      match g.edgesOf ret n l with
      | .error d => .error d
      | .ok es =>
        match _h : Spread.absorbAll g ⟨s.levels, rest⟩ es with
        | .error d => .error d
        | .ok t => g.spreadBy ret ω t
termination_by s.work
decreasing_by
  · have hlength := (ω.perm s).length_eq
    rw [_hq, length_cons] at hlength
    simp only [Spread.work]
    omega
  · have hlength := (ω.perm s).length_eq
    rw [_hq, length_cons] at hlength
    have hwork := Spread.work_absorbAll _h
    simp only [Spread.work] at hwork ⊢
    omega

/-- The levels as they are found in an order. -/
def balanceBy (g : Graph) (ret : Ty) (ω : Order) : Except Defect (List (Option Level)) :=
  g.spreadBy ret ω ⟨(replicate g.size none).set g.entry (some ⟨0, 0⟩), [g.entry]⟩

theorem spreadBy_eq : g.spreadBy ret ω s =
    match ω.arrange s with
    | [] => .ok s.levels
    | n :: rest =>
      match s.levels[n]?.join with
      | none => g.spreadBy ret ω ⟨s.levels, rest⟩
      | some l =>
        match g.edgesOf ret n l with
        | .error d => .error d
        | .ok es =>
          match Spread.absorbAll g ⟨s.levels, rest⟩ es with
          | .error d => .error d
          | .ok t => g.spreadBy ret ω t := by
  rw [spreadBy]
  split
  · rename_i h
    rw [h]
  · rename_i n rest h
    simp only [h]
    cases s.levels[n]?.join with
    | none => rfl
    | some l =>
      cases hes : g.edgesOf ret n l with
      | error d => simp only [hes]
      | ok es =>
        simp only [hes]
        split <;> simp_all

theorem spread_eq {levels : List (Option Level)} {n : Nat} {rest : List Nat} :
    g.spread ret levels (n :: rest) =
      match levels[n]?.join with
      | none => g.spread ret levels rest
      | some l =>
        match g.edgesOf ret n l with
        | .error d => .error d
        | .ok es =>
          match Spread.absorbAll g ⟨levels, rest⟩ es with
          | .error d => .error d
          | .ok t => g.spread ret t.levels t.queue := by
  rw [spread]
  cases levels[n]?.join with
  | none => rfl
  | some l =>
    cases hes : g.edgesOf ret n l with
    | error d => simp only [hes]
    | ok es =>
      simp only [hes]
      split <;> simp_all

theorem spreadBy_given (levels : List (Option Level)) (queue : List Nat) :
    g.spreadBy ret .given ⟨levels, queue⟩ = g.spread ret levels queue := by
  induction levels, queue using Graph.spread.induct g ret with
  | case1 levels =>
    rw [spreadBy_eq, spread]
    rfl
  | case2 levels n rest hnone ih =>
    rw [spreadBy_eq, spread_eq]
    simp only [Order.given, hnone]
    exact ih
  | case3 levels n rest l hl d hd =>
    rw [spreadBy_eq, spread_eq]
    simp only [Order.given, hl, hd]
  | case4 levels n rest l hl es hes d hd =>
    rw [spreadBy_eq, spread_eq]
    simp only [Order.given, hl, hes, hd]
  | case5 levels n rest l hl es hes s hs ih =>
    rw [spreadBy_eq, spread_eq]
    simp only [Order.given, hl, hes, hs]
    exact ih

/-- What is known on the way are levels of paths. -/
abbrev Pathwise (g : Graph) (ret : Ty) : Spread → Prop :=
  g.Ongoing ret fun n l => g.Visits ret (.start n l)

namespace Pathwise

variable {n : Nat} {l : Level} {rest : List Nat} {es : List Edge} {d : Defect}

theorem visits_target (h : g.Pathwise ret s) (hl : s.levels[n]? = some (some l))
    (hes : g.edgesOf ret n l = .ok es) : ∀ e ∈ es, g.Visits ret (.start e.target e.level) :=
  fun e he => (h.known n l hl).trans (moves_edgesOf hes e he)

theorem not_balanced_of_refused (h : g.Pathwise ret s) (hl : s.levels[n]? = some (some l))
    (hd : g.edgesOf ret n l = .error d) : ¬ g.Balanced ret := by
  obtain ⟨u, hu, hfaulty⟩ := exists_faulty_edgesOf hd
  exact fun hbalanced => hbalanced.faultless u ((h.known n l hl).trans hu) hfaulty

theorem not_balanced_of_clash (h : g.Pathwise ret s) (hl : s.levels[n]? = some (some l))
    (hes : g.edgesOf ret n l = .ok es) (hd : Spread.absorbAll g ⟨s.levels, rest⟩ es = .error d) :
    ¬ g.Balanced ret := by
  obtain ⟨k, j, j', hj, hj', hne⟩ := Spread.exists_of_absorbAll_error
    (s := ⟨s.levels, rest⟩) h.known (h.visits_target hl hes) hd
  exact fun hbalanced => hne (hbalanced.agree k j j' hj hj')

end Pathwise

/-- **Following the nodes in any order** ends with levels that are a fixpoint, or with a defect of
some path. -/
theorem spreadBy_spec (h : g.Pathwise ret s) :
    match g.spreadBy ret ω s with
    | .ok levels => g.Pathwise ret ⟨levels, []⟩
    | .error _ => ¬ g.Balanced ret := by
  induction s using Graph.spreadBy.induct g ret ω with
  | case1 s hq =>
    have hperm := ω.perm s
    rw [hq] at hperm
    rw [spreadBy_eq, hq]
    refine ⟨h.length, h.entry, h.known, fun n l hl => ?_⟩
    exact (h.steady n l hl).imp_left fun hin => hperm.mem_iff.2 hin
  | case2 s n rest hq hnone ih =>
    rw [spreadBy_eq, hq]
    simp only [hnone]
    exact ih (h.skip (hq ▸ ω.perm s) hnone)
  | case3 s n rest hq l hl d hd =>
    rw [spreadBy_eq, hq]
    simp only [hl, hd]
    exact h.not_balanced_of_refused (Option.join_eq_some_iff.1 hl) hd
  | case4 s n rest hq l hl es hes d hd =>
    rw [spreadBy_eq, hq]
    simp only [hl, hes, hd]
    exact h.not_balanced_of_clash (Option.join_eq_some_iff.1 hl) hes hd
  | case5 s n rest hq l hl es hes t ht ih =>
    rw [spreadBy_eq, hq]
    simp only [hl, hes, ht]
    have hn := Option.join_eq_some_iff.1 hl
    exact ih (h.follow (hq ▸ ω.perm s) hn hes (h.visits_target hn hes) ht)

theorem balanceBy_spec (ret : Ty) (ω : Order) (hclosed : g.Closed) :
    match g.balanceBy ret ω with
    | .ok levels => g.Pathwise ret ⟨levels, []⟩
    | .error _ => ¬ g.Balanced ret :=
  spreadBy_spec (ongoing_first hclosed.entry .refl)

/-! ### The verdict -/

variable {levels levels' : List (Option Level)}

theorem Pathwise.agrees (hclosed : g.Closed) (h : g.Pathwise ret ⟨levels, []⟩) {u : Stop}
    (hu : g.Visits ret u) : g.Agrees ret levels u := by
  have hstart : ∀ n l, levels[n]? = some (some l) → g.Agrees ret levels (.start n l) :=
    fun n l hl => .start hclosed h.length hl ((h.steady n l hl).resolve_left (by simp))
  induction hu with
  | refl => exact hstart _ _ h.entry
  | tail _ hstep ih => exact ih.moves hstep hstart

theorem Pathwise.level_iff (hclosed : g.Closed) (h : g.Pathwise ret ⟨levels, []⟩) {n : Nat}
    {l : Level} : levels[n]? = some (some l) ↔ g.Visits ret (.start n l) :=
  ⟨h.known n l, fun hu => (h.agrees hclosed hu).first rfl⟩

theorem Pathwise.balanced (hclosed : g.Closed) (h : g.Pathwise ret ⟨levels, []⟩) :
    g.Balanced ret := by
  refine ⟨fun u hu => (h.agrees hclosed hu).not_faulty, fun n l l' hl hl' => ?_⟩
  have heq := ((h.level_iff hclosed).2 hl).symm.trans ((h.level_iff hclosed).2 hl')
  exact Option.some.inj (Option.some.inj heq)

theorem Pathwise.levels_unique (hclosed : g.Closed) (h : g.Pathwise ret ⟨levels, []⟩)
    (h' : g.Pathwise ret ⟨levels', []⟩) : levels = levels' := by
  have hlength : levels.length = levels'.length := h.length.trans h'.length.symm
  refine ext_getElem hlength fun n hn hn' => Option.ext fun l => ?_
  have hiff := (h.level_iff hclosed (n := n) (l := l)).trans (h'.level_iff hclosed).symm
  rw [List.getElem?_eq_getElem hn, List.getElem?_eq_getElem hn'] at hiff
  simpa using hiff

/-- **The verdict in any order**: there are levels exactly if the paths are in balance, and they are
the same in every order. -/
theorem balanceBy_eq_ok_iff (hclosed : g.Closed) :
    g.balanceBy ret ω = .ok levels ↔ g.Pathwise ret ⟨levels, []⟩ := by
  have hspec := balanceBy_spec ret ω hclosed
  constructor
  · intro h
    rw [h] at hspec
    exact hspec
  · intro h
    split at hspec
    · rename_i out hout
      rw [hout, h.levels_unique hclosed hspec]
    · exact absurd (h.balanced hclosed) hspec

theorem exists_balanceBy_iff (hclosed : g.Closed) :
    (∃ levels, g.balanceBy ret ω = .ok levels) ↔ g.Balanced ret := by
  constructor
  · rintro ⟨levels, h⟩
    exact ((balanceBy_eq_ok_iff hclosed).1 h).balanced hclosed
  · intro hbalanced
    have hspec := balanceBy_spec ret ω hclosed
    split at hspec
    · rename_i out hout
      exact ⟨out, hout⟩
    · exact absurd hbalanced hspec

theorem balanceBy_given : g.balanceBy ret .given = g.balance ret := spreadBy_given _ _

/-- **The check of stack depths and monitors is exact**: it accepts a graph exactly if along every
path the operands and monitors are there, markers are met with the future alone, no return holds a
monitor, no end of a cleanup body is met, and paths that meet agree.  Then the levels are those of
the paths, and the nodes with a level are the nodes on them.  The order in which the nodes are
followed does not matter. -/
theorem balance_exact {m : Method} (isMarker : String → Bool) (ret : Ty)
    (h : m.referenceDefects = []) :
    ((∃ levels, (ofMethod m isMarker).balance ret = .ok levels) ↔
        (ofMethod m isMarker).Balanced ret) ∧
      (∀ levels, (ofMethod m isMarker).balance ret = .ok levels →
        (∀ n l, levels[n]? = some (some l) ↔ (ofMethod m isMarker).Visits ret (.start n l)) ∧
        ∀ n, n ∈ reached levels ↔ ∃ u, (ofMethod m isMarker).Visits ret u ∧ u.node = n) ∧
      ∀ (ω : Order) (levels : List (Option Level)),
        (ofMethod m isMarker).balanceBy ret ω = .ok levels ↔
          (ofMethod m isMarker).balance ret = .ok levels := by
  have hclosed : (ofMethod m isMarker).Closed :=
    closed_ofMethod (m.referenceDefects_eq_nil_iff.1 h)
  simp only [← balanceBy_given]
  refine ⟨exists_balanceBy_iff hclosed, fun levels hok => ?_, fun ω levels => ?_⟩
  · have hfinal := (balanceBy_eq_ok_iff hclosed).1 hok
    refine ⟨fun n l => hfinal.level_iff hclosed, fun n => ⟨fun hn => ?_, ?_⟩⟩
    · obtain ⟨l, hl⟩ := mem_reached.1 hn
      exact ⟨.start n l, hfinal.known n l hl, rfl⟩
    · rintro ⟨u, hu, rfl⟩
      exact mem_reached.2 (hfinal.agrees hclosed hu).known
  · rw [balanceBy_eq_ok_iff hclosed, balanceBy_eq_ok_iff hclosed]

end Graph

/-! ### A method that waits in a loop -/

/-- Adds up what its first argument gives, as often as its second argument says; where a wait fails,
it waits once more and answers with that. -/
def sumOfWaits : Method where
  name := "sum"
  params := [⟨0, some "f", .future, true⟩, ⟨1, some "k", .int, true⟩]
  ret := .int
  locals := [⟨0, some "f", .future, true⟩, ⟨1, some "k", .int, true⟩, ⟨2, some "s", .int, false⟩]
  blocks :=
    [⟨0, [.push (.int 0), .store 2], .goto 1⟩,
      ⟨1, [.load 1, .push (.int 0), .binary .gt], .branch 2 3⟩,
      ⟨2, [.load 0, .invoke ⟨"Await.await", 1, .int⟩, .load 2, .binary .add, .store 2,
        .load 1, .push (.int 1), .binary .sub, .store 1], .goto 1⟩,
      ⟨3, [.load 0, .monitorEnter, .load 2, .load 0, .monitorExit], .ret⟩,
      ⟨4, [.pop, .load 0, .invoke ⟨"Await.await", 1, .int⟩], .ret⟩]
  entry := 0
  regions := [⟨0, IdSet.ofList [2], 4, .catchAll⟩]

/-- The levels of the five blocks and of what follows the two waits. -/
def sumOfWaits.levels : List (Option Level) :=
  [some ⟨0, 0⟩, some ⟨0, 0⟩, some ⟨0, 0⟩, some ⟨0, 0⟩, some ⟨1, 0⟩, some ⟨1, 0⟩, some ⟨1, 0⟩]

/-- The paths around the loop and through the handler are in balance, and every order finds that. -/
theorem balance_exact_sumOfWaits :
    sumOfWaits.referenceDefects = [] ∧
      (Graph.ofMethod sumOfWaits ({} : Options).isMarker).Balanced .int ∧
      ∀ ω, (Graph.ofMethod sumOfWaits ({} : Options).isMarker).balanceBy .int ω =
        .ok sumOfWaits.levels := by
  have hsound : sumOfWaits.referenceDefects = [] := by decide +kernel
  have hok : (Graph.ofMethod sumOfWaits ({} : Options).isMarker).balance .int =
      .ok sumOfWaits.levels := by decide +kernel
  obtain ⟨hiff, -, horder⟩ := Graph.balance_exact ({} : Options).isMarker .int hsound
  exact ⟨hsound, hiff.1 ⟨_, hok⟩, fun ω => (horder ω _).2 hok⟩

end Resumable
