/-
**The nodes that control gets to.**

The check of stack depths and monitors follows control from the entry until nothing new turns up.
What it leaves behind is a fixpoint: the level of a node determines the edges out of it, and each of
them enters its target at the level that the target has.  So the nodes with a level contain the
entry, and with a node its successors and, if an exception can leave the node, its handlers; and
control does get to each of them.

Main results:

* `Graph.steady_of_balance` — **the levels of a graph in balance are a fixpoint**;
* `Graph.flowSet_reached` — **the nodes with a level are those that control gets to**.
-/

import Resumable.Graph.Balance
import Resumable.Proofs.Pieces

set_option autoImplicit false

namespace Resumable

open Relation List

/-! ### Edges out of a node -/

/-- Whether an exception can leave the node: some instruction may throw, or the node ends with a
marker call or a throw. -/
def Node.canThrow (n : Node) : Bool :=
  n.instrs.any (·.mayThrow) || n.isSuspend || n.exit == .leave .raise

variable {hs : List Nat} {l : Level} {at' : Location} {k : Nat} {es : List Edge} {ret : Ty}
  {n : Node}

/-- A marker is called with the future alone on the stack and without monitors. -/
theorem suspendEdges_eq_ok {marker : Callee} {resume : Nat} {source : Location}
    (h : suspendEdges marker resume hs l source = .ok es) :
    l = ⟨1, 0⟩ ∧ es = caughtEdges hs l source ++ [⟨resume, ⟨marker.ret.slots, 0⟩, source⟩] := by
  unfold suspendEdges at h
  split at h
  · cases h
  · split at h
    · cases h
    · rename_i hone
      split at h
      · cases h
      · rename_i hzero
        cases h
        obtain ⟨stack, monitors⟩ := l
        exact ⟨by simp_all, rfl⟩

/-- The edges from a terminator, or why it is refused. -/
theorem Terminator.edges_spec (t : Terminator) (ret : Ty) (hs : List Nat) (l : Level)
    (source : Location) :
    match t.edges ret hs l source with
    | .ok es =>
      t.pops ret ≤ l.stack ∧ (t = .ret → l.monitors = 0) ∧ t ≠ .endCleanup ∧
        es = (if t = .raise then caughtEdges hs l source else []) ++
          t.successors.map fun k => ⟨k, ⟨l.stack - t.pops ret, l.monitors⟩, source⟩
    | .error _ => l.stack < t.pops ret ∨ (t = .ret ∧ l.monitors ≠ 0) ∨ t = .endCleanup := by
  by_cases hlt : l.stack < t.pops ret
  · rw [edges, if_pos hlt]
    exact .inl hlt
  · have hle := Nat.le_of_not_lt hlt
    rw [edges, if_neg hlt]
    cases t with
    | ret =>
      by_cases hnone : l.monitors = 0
      · simp only [hnone, if_true]
        exact ⟨hle, fun _ => trivial, by simp, rfl⟩
      · simp only [hnone, if_false]
        exact .inr (.inl ⟨trivial, hnone⟩)
    | endCleanup => exact .inr (.inr rfl)
    | raise => exact ⟨hle, by simp, by simp, by simp [successors]⟩
    | goto _ | branch _ _ | switch _ _ | unreachable => exact ⟨hle, by simp, by simp, by simp⟩

theorem Terminator.edges_eq_ok {t : Terminator} {source : Location}
    (h : t.edges ret hs l source = .ok es) :
    t.pops ret ≤ l.stack ∧ (t = .ret → l.monitors = 0) ∧ t ≠ .endCleanup ∧
      es = (if t = .raise then caughtEdges hs l source else []) ++
        t.successors.map fun k => ⟨k, ⟨l.stack - t.pops ret, l.monitors⟩, source⟩ := by
  have hspec := t.edges_spec ret hs l source
  rwa [h] at hspec

theorem Node.edges_eq_ok_levels (h : n.edges ret hs l = .ok es) :
    ∃ before last after, throughInstrs hs n.origin n.start l n.instrs = .ok (before, last) ∧
      (match n.exit with
        | .suspend marker resume => suspendEdges marker resume hs last n.exitLocation
        | .leave t => t.edges ret hs last n.exitLocation) = .ok after ∧ es = before ++ after := by
  unfold Node.edges at h
  split at h
  · cases h
  · rename_i before last hbefore
    simp only at h
    split at h
    · cases h
    · rename_i after hafter
      cases h
      exact ⟨before, last, after, hbefore, hafter, rfl⟩

theorem targets_caughtEdges : (caughtEdges hs l at').map (·.target) = hs := by
  simp [caughtEdges, List.map_map, Function.comp_def]

/-- The edges from a run of instructions go to all handlers if one of them may throw. -/
theorem targets_throughInstrs {origin offset : Nat} {last : Level} {is : List Instr}
    (h : throughInstrs hs origin offset l is = .ok (es, last)) :
    k ∈ es.map (·.target) ↔ is.any (·.mayThrow) = true ∧ k ∈ hs := by
  induction is generalizing offset l es with
  | nil =>
    cases h
    simp
  | cons i is ih =>
    unfold throughInstrs at h
    split at h
    · cases h
    · split at h
      · cases h
      · rename_i rest last' hrest
        cases h
        rw [map_append, mem_append, ih hrest, any_cons]
        cases hi : i.mayThrow with
        | false => simp
        | true =>
          rw [if_pos rfl, targets_caughtEdges]
          simp +contextual

/-- **The edges out of a node** go to the successors and, if an exception can leave the node, to the
handlers. -/
theorem Node.targets_edges (h : n.edges ret hs l = .ok es) :
    k ∈ es.map (·.target) ↔ k ∈ n.successors ∨ n.canThrow = true ∧ k ∈ hs := by
  obtain ⟨before, last, after, hbefore, hafter, rfl⟩ := edges_eq_ok_levels h
  rw [map_append, mem_append, targets_throughInstrs hbefore, canThrow]
  cases hexit : n.exit with
  | suspend c r =>
    simp only [hexit] at hafter
    obtain ⟨-, rfl⟩ := suspendEdges_eq_ok hafter
    rw [map_append, targets_caughtEdges]
    simp only [successors, isSuspend, hexit, mem_append, map_cons, map_nil, Bool.or_true,
      Bool.true_or, true_and]
    grind
  | leave t =>
    simp only [hexit] at hafter
    obtain ⟨-, -, -, rfl⟩ := Terminator.edges_eq_ok hafter
    by_cases ht : t = .raise
    · subst ht
      simp [targets_caughtEdges, successors, isSuspend, hexit, Terminator.successors]
    · simp [ht, successors, isSuspend, hexit, or_comm, List.map_map, Function.comp_def]

/-! ### The fixpoint -/

namespace Spread

/-- What taking in edges does to a spread: levels that are known stay, and a node that gets a level
is put into the queue and is the target of one of the edges; afterwards each edge agrees with the
level of its target. -/
structure Absorbs (es : List Edge) (s t : Spread) : Prop where
  length : t.levels.length = s.levels.length
  kept : ∀ (n : Nat) (l : Level), s.levels[n]? = some (some l) → t.levels[n]? = some (some l)
  queued : ∀ n ∈ s.queue, n ∈ t.queue
  agrees : ∀ e ∈ es, e.target < s.levels.length → t.levels[e.target]? = some (some e.level)
  new : ∀ (n : Nat) (l : Level), t.levels[n]? = some (some l) →
    s.levels[n]? = some (some l) ∨ n ∈ t.queue ∧ ∃ e ∈ es, e.target = n ∧ e.level = l

theorem absorbs_of_absorb {g : Graph} {s t : Spread} {e : Edge} (h : s.absorb g e = .ok t) :
    Absorbs [e] s t := by
  unfold absorb at h
  split at h
  · rename_i hnone
    cases h
    refine ⟨rfl, fun _ _ h => h, fun _ h => h, ?_, fun _ _ h => .inl h⟩
    intro e' he' hlt
    rw [mem_singleton.1 he'] at hlt
    rw [List.getElem?_eq_getElem hlt] at hnone
    cases hnone
  · rename_i hfree
    cases h
    have hlt : e.target < s.levels.length := (List.getElem?_eq_some_iff.1 hfree).1
    refine ⟨by simp, ?_, by simp; intro _ h; exact .inl h, ?_, ?_⟩
    · intro n l hn
      have hne : e.target ≠ n := by
        rintro rfl
        rw [hfree] at hn
        cases hn
      simpa [getElem?_set_ne hne] using hn
    · intro e' he' _
      rw [mem_singleton.1 he']
      simp [hlt]
    · intro n l hn
      by_cases hne : e.target = n
      · subst hne
        rw [getElem?_set_self hlt] at hn
        cases hn
        exact .inr ⟨by simp, e, by simp, rfl, rfl⟩
      · simp only [getElem?_set_ne hne] at hn
        exact .inl hn
  · rename_i l hl
    split at h
    · rename_i heq
      cases h
      refine ⟨rfl, fun _ _ h => h, fun _ h => h, ?_, fun _ _ h => .inl h⟩
      intro e' he' _
      rw [mem_singleton.1 he', hl, heq]
    · split at h <;> cases h

theorem absorbs_of_absorbAll {g : Graph} {es : List Edge} {s t : Spread}
    (h : s.absorbAll g es = .ok t) : Absorbs es s t := by
  induction es generalizing s with
  | nil =>
    cases h
    exact ⟨rfl, fun _ _ h => h, fun _ h => h, by simp, fun _ _ h => .inl h⟩
  | cons e es ih =>
    unfold absorbAll at h
    split at h
    · cases h
    · rename_i s' hs'
      have first := absorbs_of_absorb hs'
      have rest := ih h
      refine ⟨rest.length.trans first.length, fun n l hn => rest.kept n l (first.kept n l hn),
        fun n hn => rest.queued n (first.queued n hn), ?_, ?_⟩
      · intro e' he' hlt
        rcases mem_cons.1 he' with rfl | he'
        · exact rest.kept _ _ (first.agrees e' (by simp) hlt)
        · exact rest.agrees e' he' (first.length ▸ hlt)
      · intro n l hn
        rcases rest.new n l hn with hn | ⟨hq, e', he', ht⟩
        · rcases first.new n l hn with hn | ⟨hq, e', he', ht⟩
          · exact .inl hn
          · exact .inr ⟨rest.queued n hq, e', mem_cons.2 (.inl (mem_singleton.1 he')), ht⟩
        · exact .inr ⟨hq, e', mem_cons_of_mem _ he', ht⟩

end Spread

namespace Graph

/-- The edges out of a node that is entered at a level agree with the levels of their targets. -/
def Steady (g : Graph) (ret : Ty) (levels : List (Option Level)) (n : Nat) (l : Level) : Prop :=
  ∃ es, g.edgesOf ret n l = .ok es ∧
    ∀ e ∈ es, e.target < levels.length → levels[e.target]? = some (some e.level)

/-- Control can go from one node to another: to a successor, or to a handler if an exception can
leave the node. -/
def Goes (g : Graph) (n k : Nat) : Prop :=
  ∃ node, g.node? n = some node ∧
    (k ∈ node.successors ∨ node.canThrow = true ∧ k ∈ g.handlers n)

variable {g : Graph} {n k : Nat} {ret : Ty} {levels : List (Option Level)}

theorem Goes.mem_next (h : g.Goes n k) : k ∈ g.next n := by
  obtain ⟨node, hnode, hk | ⟨_, hk⟩⟩ := h
  · exact mem_append_left _ (by simpa only [successors, hnode] using hk)
  · exact mem_append_right _ hk

/-- The edges out of a node go where control can go. -/
theorem goes_iff {l : Level} {es : List Edge} (h : g.edgesOf ret n l = .ok es) :
    g.Goes n k ↔ k ∈ es.map (·.target) := by
  unfold edgesOf at h
  split at h
  · rename_i node hnode
    simp [Goes, hnode, Node.targets_edges h]
  · rename_i hnone
    cases h
    simp [Goes, hnone]

theorem goes_target {l : Level} {es : List Edge} {e : Edge} (h : g.edgesOf ret n l = .ok es)
    (he : e ∈ es) : g.Goes n e.target :=
  (goes_iff h).2 (mem_map_of_mem he)

/-- **What is known on the way**: the levels have some property, and each of them is still to be
followed or agrees with its edges. -/
structure Ongoing (g : Graph) (ret : Ty) (P : Nat → Level → Prop) (s : Spread) : Prop where
  length : s.levels.length = g.size
  entry : s.levels[g.entry]? = some (some ⟨0, 0⟩)
  known : ∀ n l, s.levels[n]? = some (some l) → P n l
  steady : ∀ n l, s.levels[n]? = some (some l) → n ∈ s.queue ∨ g.Steady ret s.levels n l

variable {P : Nat → Level → Prop} {s t : Spread} {l : Level} {es : List Edge} {rest : List Nat}

theorem ongoing_first (hentry : g.entry < g.size) (hP : P g.entry ⟨0, 0⟩) :
    g.Ongoing ret P ⟨(replicate g.size none).set g.entry (some ⟨0, 0⟩), [g.entry]⟩ := by
  have honly : ∀ (n : Nat) (l : Level),
      ((replicate g.size none).set g.entry (some ⟨0, 0⟩))[n]? = some (some l) →
        n = g.entry ∧ l = ⟨0, 0⟩ := by
    intro n l hn
    by_cases hne : g.entry = n
    · subst hne
      rw [getElem?_set_self (by simpa using hentry)] at hn
      cases hn
      exact ⟨rfl, rfl⟩
    · rw [getElem?_set_ne hne, getElem?_replicate] at hn
      split at hn <;> cases hn
  refine ⟨by simp, by simp [hentry], fun n l hn => ?_, fun n l hn => ?_⟩
  · obtain ⟨rfl, rfl⟩ := honly n l hn
    exact hP
  · exact .inl (by simp [(honly n l hn).1])

namespace Ongoing

theorem skip (h : g.Ongoing ret P s) (hq : (n :: rest).Perm s.queue)
    (hnone : s.levels[n]?.join = none) : g.Ongoing ret P ⟨s.levels, rest⟩ := by
  refine ⟨h.length, h.entry, h.known, fun k j hk => ?_⟩
  rcases h.steady k j hk with hin | hst
  · rcases mem_cons.1 (hq.mem_iff.2 hin) with rfl | hin
    · rw [hk] at hnone
      cases hnone
    · exact .inl hin
  · exact .inr hst

theorem follow (h : g.Ongoing ret P s) (hq : (n :: rest).Perm s.queue)
    (hl : s.levels[n]? = some (some l)) (hes : g.edgesOf ret n l = .ok es)
    (hP : ∀ e ∈ es, P e.target e.level) (ht : Spread.absorbAll g ⟨s.levels, rest⟩ es = .ok t) :
    g.Ongoing ret P t := by
  have habs := Spread.absorbs_of_absorbAll ht
  refine ⟨habs.length.trans h.length, habs.kept _ _ h.entry, fun k j hk => ?_, fun k j hk => ?_⟩
  · rcases habs.new k j hk with hk | ⟨-, e, he, rfl, rfl⟩
    · exact h.known k j hk
    · exact hP e he
  rcases habs.new k j hk with hk | ⟨hin, -⟩
  · rcases h.steady k j hk with hin | ⟨fs, hfs, hagree⟩
    · rcases mem_cons.1 (hq.mem_iff.2 hin) with rfl | hin
      · -- the node whose edges were taken in is settled
        obtain rfl : l = j := by
          rw [hl] at hk
          cases hk
          rfl
        exact .inr ⟨es, hes, fun e he hlt => habs.agrees e he (habs.length ▸ hlt)⟩
      · exact .inl (habs.queued k hin)
    · exact .inr ⟨fs, hfs, fun e he hlt => habs.kept _ _ (hagree e he (habs.length ▸ hlt))⟩
  · exact .inl hin

/-- **What the spreading of levels leaves behind**: all levels agree with their edges, and they have
the property if it goes along edges. -/
theorem spread {queue : List Nat} {out : List (Option Level)}
    (hstep : ∀ n l es, P n l → g.edgesOf ret n l = .ok es → ∀ e ∈ es, P e.target e.level)
    (h : g.Ongoing ret P ⟨levels, queue⟩) (hout : g.spread ret levels queue = .ok out) :
    g.Ongoing ret P ⟨out, []⟩ := by
  induction levels, queue using Graph.spread.induct g ret with
  | case1 levels =>
    rw [Graph.spread] at hout
    cases hout
    exact h
  | case2 levels n rest hnone ih =>
    rw [Graph.spread, hnone] at hout
    exact ih (h.skip (.refl _) hnone) hout
  | case3 levels n rest l hl d hd =>
    rw [Graph.spread, hl] at hout
    simp only [hd] at hout
    cases hout
  | case4 levels n rest l hl es hes d hd =>
    rw [Graph.spread, hl] at hout
    simp only [hes] at hout
    split at hout
    · cases hout
    · simp_all
  | case5 levels n rest l hl es hes s hs ih =>
    rw [Graph.spread, hl] at hout
    simp only [hes] at hout
    split at hout
    · cases hout
    · rename_i s' hs'
      rw [hs] at hs'
      cases hs'
      have hn : levels[n]? = some (some l) := Option.join_eq_some_iff.1 hl
      exact ih (h.follow (.refl _) hn hes (hstep n l es (h.known n l hn) hes) hs) hout

end Ongoing

/-- **The levels of a graph in balance are a fixpoint**, in which the entry has an empty stack and
no monitor. -/
theorem steady_of_balance (h : g.balance ret = .ok levels) (hentry : g.entry < g.size) :
    levels.length = g.size ∧ levels[g.entry]? = some (some ⟨0, 0⟩) ∧
      (∀ (n : Nat) (l : Level), levels[n]? = some (some l) → g.Steady ret levels n l) ∧
      ∀ (n : Nat) (l : Level), levels[n]? = some (some l) → ReflTransGen g.Goes g.entry n := by
  have hfinal := Ongoing.spread (P := fun n _ => ReflTransGen g.Goes g.entry n)
    (fun n l es hn hes e he => hn.tail (goes_target hes he)) (ongoing_first hentry .refl) h
  exact ⟨hfinal.length, hfinal.entry,
    fun n l hl => (hfinal.steady n l hl).resolve_left (by simp), hfinal.known⟩

/-! ### The set of nodes that control gets to -/

/-- A set of nodes that contains the entry, and with a node its successors and, if an exception can
leave the node, its handlers; and control gets to each of them from the entry. -/
structure FlowSet (g : Graph) (r : IdSet) : Prop where
  entry : g.entry ∈ r
  bound : ∀ n ∈ r, n < g.size
  successors : ∀ n ∈ r, ∀ k ∈ g.successors n, k ∈ r
  handlers : ∀ n ∈ r, ∀ node, g.node? n = some node → node.canThrow = true →
    ∀ k ∈ g.handlers n, k ∈ r
  path : ∀ n ∈ r, ReflTransGen (fun a b => g.Goes a b ∧ b ∈ r) g.entry n

theorem FlowSet.goes {r : IdSet} (h : g.FlowSet r) (hn : n ∈ r) (hk : g.Goes n k) : k ∈ r := by
  obtain ⟨node, hnode, hk | ⟨hthrow, hk⟩⟩ := hk
  · exact h.successors n hn k (by simpa only [Graph.successors, hnode] using hk)
  · exact h.handlers n hn node hnode hthrow k hk

theorem mem_reached : n ∈ reached levels ↔ ∃ l, levels[n]? = some (some l) := by
  simp only [reached, IdSet.mem_ofList, mem_filterMap]
  constructor
  · rintro ⟨⟨o, k⟩, hc, ho⟩
    split at ho
    · rename_i hsome
      cases ho
      obtain ⟨l, rfl⟩ := Option.isSome_iff_exists.1 hsome
      exact ⟨l, mem_zipIdx_iff_getElem?.1 hc⟩
    · cases ho
  · rintro ⟨l, hl⟩
    exact ⟨(some l, n), mem_zipIdx_iff_getElem?.2 hl, rfl⟩

theorem length_blocks_le_size (m : Method) (isMarker : String → Bool) :
    m.blocks.length ≤ (ofMethod m isMarker).size := by
  have := congrArg List.length (map_id_heads isMarker m.blocks.length m.blocks)
  simp only [length_map] at this
  simp only [size, ofMethod, length_append, this]
  omega

/-- Whatever a node of the graph of a sound method can go to is a node. -/
theorem lt_size_of_mem_next {m : Method} {isMarker : String → Bool} (h : m.Sound)
    (hk : k ∈ (ofMethod m isMarker).next n) : k < (ofMethod m isMarker).size := by
  have hblocks := length_blocks_le_size m isMarker
  rcases mem_append.1 hk with hk | hk
  · unfold successors at hk
    split at hk
    · rename_i node hnode
      obtain ⟨b, hb, hpiece⟩ := pieceOf h (mem_of_node? hnode)
      have hends := hpiece.ends
      unfold Node.successors at hk
      unfold Node.Ends at hends
      split at hk
      · rename_i t ht
        rw [ht] at hends
        rw [hends.1] at hk
        exact Nat.lt_of_lt_of_le ((h.blocks b (mem_of_getElem? hb)).targets k hk) hblocks
      · rename_i c r hr
        rw [hr] at hends
        obtain ⟨_, _, node', hnode', hid, _⟩ := hends
        rw [mem_singleton.1 hk, ← hid]
        exact (List.getElem?_eq_some_iff.1 (node?_of_mem h hnode')).1
    · cases hk
  · obtain ⟨r, hr, rfl⟩ := mem_map.1 hk
    have hr := (mem_filter.1 hr).1
    rw [regions_eq h] at hr
    obtain ⟨r', hr', rfl⟩ := mem_map.1 hr
    exact Nat.lt_of_lt_of_le (h.regions r' hr').handler hblocks

/-- **The nodes with a level are those that control gets to.** -/
theorem flowSet_reached {m : Method} {isMarker : String → Bool} (h : m.Sound)
    (hb : (ofMethod m isMarker).balance ret = .ok levels) :
    (ofMethod m isMarker).FlowSet (reached levels) := by
  have hentry : (ofMethod m isMarker).entry < (ofMethod m isMarker).size :=
    Nat.lt_of_lt_of_le h.entry (length_blocks_le_size m isMarker)
  obtain ⟨hlen, hfirst, hsteady, hreach⟩ := steady_of_balance hb hentry
  have hgoes : ∀ {n k}, n ∈ reached levels → (ofMethod m isMarker).Goes n k →
      k ∈ reached levels := by
    intro n k hn hk
    obtain ⟨l, hl⟩ := mem_reached.1 hn
    obtain ⟨es, hes, hagree⟩ := hsteady n l hl
    obtain ⟨e, he, rfl⟩ := mem_map.1 ((goes_iff hes).1 hk)
    exact mem_reached.2 ⟨e.level, hagree e he (hlen ▸ lt_size_of_mem_next h hk.mem_next)⟩
  have hentered : (ofMethod m isMarker).entry ∈ reached levels := mem_reached.2 ⟨_, hfirst⟩
  have hpath : ∀ n, ReflTransGen (ofMethod m isMarker).Goes (ofMethod m isMarker).entry n →
      n ∈ reached levels ∧ ReflTransGen (fun a b => (ofMethod m isMarker).Goes a b ∧
        b ∈ reached levels) (ofMethod m isMarker).entry n := by
    intro n hn
    induction hn with
    | refl => exact ⟨hentered, .refl⟩
    | tail _ hab ih => exact ⟨hgoes ih.1 hab, ih.2.tail ⟨hab, hgoes ih.1 hab⟩⟩
  refine ⟨hentered, ?_, ?_, ?_, ?_⟩
  · intro n hn
    obtain ⟨l, hl⟩ := mem_reached.1 hn
    exact hlen ▸ (List.getElem?_eq_some_iff.1 hl).1
  · intro n hn k hk
    unfold successors at hk
    split at hk
    · rename_i node hnode
      exact hgoes hn ⟨node, hnode, .inl hk⟩
    · cases hk
  · intro n hn node hnode hthrow k hk
    exact hgoes hn ⟨node, hnode, .inr ⟨hthrow, hk⟩⟩
  · intro n hn
    obtain ⟨l, hl⟩ := mem_reached.1 hn
    exact (hpath n (hreach n l hl)).2

end Graph

end Resumable
