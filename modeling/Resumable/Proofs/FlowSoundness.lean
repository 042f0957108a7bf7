/-
**The levels hold when the code runs.**

The check of stack depths and monitors gives each node of a method its level.  Here a machine runs
the method: whenever an activation of it is at the start of a node, its operand stack has the depth
and it holds the monitors that the level says.  Inside a node the level is followed instruction by
instruction, as the check does, so an activation never takes an operand, a monitor or a block that
is not there, and it calls a marker only with the awaited future alone on its stack.

Nothing is assumed of the rest of the program, of the arguments or of the functions that the method
calls.

Main results:

* `Activation.level_of_completes` — the level after an instruction is the one of the check;
* `Activation.Rides.walks` — **each step of an activation stays at its level**;
* `Machine.atLevel_of_balance` — **the levels hold in every run**.
-/

import Resumable.Proofs.ActivationSteps
import Resumable.Proofs.EntryRuns

set_option autoImplicit false

namespace Resumable

open List

/-! ### Levels -/

namespace Activation

/-- The depth of the operand stack and the number of monitors held. -/
def level (a : Activation) : Level := ⟨a.stack.length, a.monitors⟩

/-- **The level after an instruction** is the one that the check has. -/
theorem level_of_completes {a b : Activation} {i : Instr} (hle : i.pops ≤ a.stack.length)
    (h : a.Completes i b) : i.level a.level = .ok b.level := by
  obtain ⟨results, hresults, hstack⟩ := h.stack
  have hlength : b.stack.length = a.stack.length - i.pops + i.pushes := by
    rw [hstack, length_append, hresults, length_drop]
    omega
  have hmonitors := h.monitors
  unfold Instr.level
  rw [if_neg (show ¬ a.level.stack < i.pops from Nat.not_lt.2 hle)]
  simp only [level, hlength, hmonitors]
  cases i with
  | monitorExit => exact if_neg (h.held rfl)
  | _ => rfl

/-- An instruction that has a level after it finds its operands, and a monitor to release. -/
theorem le_of_level {a : Activation} {i : Instr} {after : Level} (h : i.level a.level = .ok after) :
    i.pops ≤ a.stack.length ∧ (i = .monitorExit → a.monitors ≠ 0) := by
  unfold Instr.level at h
  split at h
  · cases h
  · rename_i hle
    refine ⟨Nat.le_of_not_lt hle, ?_⟩
    rintro rfl hnone
    simp only [level, hnone, if_true] at h
    cases h

end Activation

/-- **The levels of a method** that passes the checks. -/
structure Method.Levels (n : Method) (isMarker : String → Bool) (levels : List (Option Level)) :
    Prop where
  sound : n.Sound
  arity : n.arityDefects isMarker = []
  balance : (Graph.ofMethod n isMarker).balance n.ret = .ok levels

namespace Method.Levels

variable {n : Method} {isMarker : String → Bool} {levels : List (Option Level)}

theorem entry (h : n.Levels isMarker levels) : levels[n.entry]? = some (some ⟨0, 0⟩) :=
  (Graph.steady_of_balance h.balance
    (Nat.lt_of_lt_of_le h.sound.entry (Graph.length_blocks_le_size n isMarker))).2.1

/-- The edges out of a node with a level enter their targets at the levels that these have. -/
theorem edges (h : n.Levels isMarker levels) {node : Node}
    (hnode : node ∈ (Graph.ofMethod n isMarker).nodes) {l : Level}
    (hl : levels[node.id]? = some (some l)) :
    ∃ es, node.edges n.ret (n.handlers node.origin) l = .ok es ∧
      ∀ e ∈ es, levels[e.target]? = some (some e.level) := by
  obtain ⟨hlength, -, hsteady, -⟩ := Graph.steady_of_balance h.balance
    (Nat.lt_of_lt_of_le h.sound.entry (Graph.length_blocks_le_size n isMarker))
  obtain ⟨es, hes, hagree⟩ := hsteady node.id l hl
  refine ⟨es, ?_, fun e he => hagree e he ?_⟩
  · rw [Graph.edgesOf, Graph.node?_of_mem h.sound hnode, Graph.handlers_eq h.sound hnode] at hes
    exact hes
  · rw [hlength]
    exact Graph.lt_size_of_mem_next h.sound (Graph.goes_target hes he).mem_next

end Method.Levels

/-! ### Along a node -/

namespace Activation

/-- What is left of a node after its first `k` instructions is in balance with the levels. -/
def Passes (n : Method) (levels : List (Option Level)) (node : Node) (k : Nat) (l : Level) : Prop :=
  ∃ es last fs,
    throughInstrs (n.handlers node.origin) node.origin (node.start + k) l (node.instrs.drop k) =
      .ok (es, last) ∧
    (match node.exit with
      | .suspend marker resume =>
        suspendEdges marker resume (n.handlers node.origin) last node.exitLocation
      | .leave t => t.edges n.ret (n.handlers node.origin) last node.exitLocation) = .ok fs ∧
    ∀ e ∈ es ++ fs, levels[e.target]? = some (some e.level)

/-- **An activation in a node**, after its first `k` instructions, at the level that the check has
there. -/
structure Rides (n : Method) (isMarker : String → Bool) (levels : List (Option Level))
    (a : Activation) (node : Node) (k : Nat) : Prop where
  mem : node ∈ (Graph.ofMethod n isMarker).nodes
  method : a.method = n
  block : a.block = node.origin
  offset : a.offset = node.start + k
  bound : k ≤ node.instrs.length
  first : k = 0 → levels[node.id]? = some (some a.level)
  passes : Passes n levels node k a.level

section Rides

variable {n : Method} {isMarker : String → Bool} {levels : List (Option Level)} {p : Program}
  {a b : Activation} {node : Node} {k : Nat} {i : Instr} {t : Terminator}

theorem rides_start (h : n.Levels isMarker levels)
    (hnode : node ∈ (Graph.ofMethod n isMarker).nodes)
    (hl : levels[node.id]? = some (some a.level)) (hmethod : a.method = n)
    (hblock : a.block = node.origin) (hoffset : a.offset = node.start) :
    a.Rides n isMarker levels node 0 := by
  obtain ⟨es, hes, hagree⟩ := h.edges hnode hl
  obtain ⟨before, last, after, hbefore, hafter, rfl⟩ := Node.edges_eq_ok_levels hes
  exact ⟨hnode, hmethod, hblock, hoffset, Nat.zero_le _, fun _ => hl,
    before, last, after, hbefore, hafter, hagree⟩

theorem exists_rides (h : n.Levels isMarker levels) {target : Nat}
    (htarget : target < n.blocks.length)
    (hl : levels[target]? = some (some a.level)) (hmethod : a.method = n)
    (hblock : a.block = target)
    (hoffset : a.offset = 0) : ∃ node k, a.Rides n isMarker levels node k := by
  obtain ⟨node, hnode, hid, horigin, hstart⟩ := Graph.exists_head_mem isMarker h.sound htarget
  exact ⟨node, 0, rides_start h hnode (hid ▸ hl) hmethod (hblock.trans horigin.symm)
    (hoffset.trans hstart.symm)⟩

theorem Rides.holds (ha : a.Rides n isMarker levels node k) : node.Holds a.location := by
  have hoffset := ha.offset
  have hbound := ha.bound
  refine ⟨ha.block, ?_, ?_⟩ <;> simp only [location] <;> omega

theorem Rides.at_cases (h : n.Levels isMarker levels) (ha : a.Rides n isMarker levels node k)
    (hi : a.At i) : node.instrs[k]? = some i ∨
      (k = node.instrs.length ∧ ∃ c r, node.exit = .suspend c r ∧ i = .invoke c) := by
  obtain ⟨block, hblock, hi⟩ := hi
  rw [ha.method, ha.block] at hblock
  rw [ha.offset] at hi
  exact Graph.instr_cases h.sound ha.mem ha.bound (Option.bind_eq_some_iff.2 ⟨block, hblock, hi⟩)

/-- The terminator of the block is the exit of the node. -/
theorem Rides.ends_cases (h : n.Levels isMarker levels) (ha : a.Rides n isMarker levels node k)
    (ht : a.Ends t) : k = node.instrs.length ∧ node.exit = .leave t := by
  obtain ⟨block, hblock, hnone, rfl⟩ := ht
  obtain ⟨block', hblock', hpiece⟩ := Graph.pieceOf h.sound ha.mem
  rw [ha.method, ha.block, hblock'] at hblock
  cases hblock
  rw [ha.offset] at hnone
  have hk : k = node.instrs.length := by
    rcases Nat.lt_or_ge k node.instrs.length with hlt | hge
    · rw [hpiece.getElem? (List.getElem?_eq_getElem hlt)] at hnone
      cases hnone
    · exact Nat.le_antisymm ha.bound hge
  refine ⟨hk, ?_⟩
  cases hexit : node.exit with
  | leave t => rw [(hpiece.of_leave hexit).1]
  | suspend c r =>
    rw [hk, (hpiece.of_suspend hexit).2.1] at hnone
    cases hnone

/-- **At an instruction**: it has a level after it, at which the activation goes on, and a handler
is entered at the level of an exception. -/
structure Poised (n : Method) (isMarker : String → Bool) (levels : List (Option Level))
    (a : Activation) (i : Instr) : Prop where
  level : ∃ after, i.level a.level = .ok after
  next : ∀ b : Activation, b.method = n → b.block = a.block → b.offset = a.offset + 1 →
    i.level a.level = .ok b.level → ∃ node k, b.Rides n isMarker levels node k
  caught : i.mayThrow = true → ∀ h ∈ n.handlers a.block, levels[h]? = some (some a.level.caught)
  marker : ∀ c, i = .invoke c → isMarker c.name = true → a.level = ⟨1, 0⟩

theorem Rides.poised_instr (h : n.Levels isMarker levels) (ha : a.Rides n isMarker levels node k)
    (hi : node.instrs[k]? = some i) : a.Poised n isMarker levels i := by
  obtain ⟨es, last, fs, hthrough, hending, hagree⟩ := ha.passes
  obtain ⟨block, hblock, hpiece⟩ := Graph.pieceOf h.sound ha.mem
  obtain ⟨hlt, hget⟩ := List.getElem?_eq_some_iff.1 hi
  rw [drop_eq_getElem_cons hlt, hget, throughInstrs] at hthrough
  split at hthrough
  · cases hthrough
  · rename_i after hafter
    split at hthrough
    · cases hthrough
    · rename_i rest last' hrest
      cases hthrough
      refine ⟨⟨after, hafter⟩, ?_, ?_, ?_⟩
      · intro b hmethod hb hoffset hlevel
        rw [hafter] at hlevel
        cases hlevel
        refine ⟨node, k + 1, ha.mem, hmethod, hb.trans ha.block, by rw [hoffset, ha.offset]; rfl,
          hlt,
          fun h => absurd h (Nat.succ_ne_zero k), rest, last, fs, hrest, hending,
          fun e he => hagree e ?_⟩
        rw [append_assoc]
        exact mem_append_right _ he
      · intro hthrow handler hhandler
        rw [ha.block] at hhandler
        refine hagree ⟨handler, a.level.caught, ⟨node.origin, node.start + k⟩⟩
          (mem_append_left _ (mem_append_left _ ?_))
        rw [if_pos hthrow]
        exact mem_map.2 ⟨handler, hhandler, rfl⟩
      · rintro c rfl hmarker
        have hplain := hpiece.plain _ (mem_of_getElem? hi)
        simp only [Instr.callee?, hmarker, if_true] at hplain
        cases hplain

theorem Rides.poised_marker (h : n.Levels isMarker levels) (ha : a.Rides n isMarker levels node k)
    (hk : k = node.instrs.length) {c : Callee} {r : Nat} (hexit : node.exit = .suspend c r) :
    a.Poised n isMarker levels (.invoke c) := by
  obtain ⟨es, last, fs, hthrough, hending, hagree⟩ := ha.passes
  obtain ⟨block, hblock, hpiece⟩ := Graph.pieceOf h.sound ha.mem
  obtain ⟨hmarker, hinvoke, next, hnext, hid, horigin, hstart⟩ := hpiece.of_suspend hexit
  have hargc : c.argc = 1 := Method.argc_of_arityDefects h.arity (mem_of_getElem? hblock)
    (mem_of_getElem? hinvoke) hmarker
  rw [hk, drop_length, throughInstrs] at hthrough
  cases hthrough
  simp only [hexit] at hending
  obtain ⟨hlevel, rfl⟩ := suspendEdges_eq_ok hending
  have hafter : (Instr.invoke c).level a.level = .ok ⟨c.ret.slots, 0⟩ := by
    rw [hlevel]
    simp [Instr.level, Instr.pops, Instr.pushes, hargc]
  refine ⟨⟨_, hafter⟩, ?_, ?_, fun _ _ _ => hlevel⟩
  · intro b hmethod hb hoffset hlevel'
    rw [hafter] at hlevel'
    have hb' : ⟨c.ret.slots, 0⟩ = b.level := Except.ok.inj hlevel'
    refine ⟨next, 0, rides_start h hnext ?_ hmethod ?_ ?_⟩
    · rw [hid]
      exact hagree ⟨r, b.level, node.exitLocation⟩
        (mem_append_right _ (mem_append_right _ (by rw [← hb']; exact mem_cons_self)))
    · rw [hb, ha.block, horigin]
    · rw [hoffset, ha.offset, hstart, hk]
  · intro _ handler hhandler
    rw [ha.block] at hhandler
    exact hagree ⟨handler, a.level.caught, node.exitLocation⟩
      (mem_append_right _ (mem_append_left _ (mem_map.2 ⟨handler, hhandler, rfl⟩)))

theorem Rides.poised (h : n.Levels isMarker levels) (ha : a.Rides n isMarker levels node k)
    (hi : a.At i) : a.Poised n isMarker levels i := by
  rcases ha.at_cases h hi with hget | ⟨hk, c, r, hexit, rfl⟩
  · exact ha.poised_instr h hget
  · exact ha.poised_marker h hk hexit

/-- **At a terminator**: it finds its operands, and what it leads to has the level that is left. -/
theorem Rides.leaving (h : n.Levels isMarker levels) (ha : a.Rides n isMarker levels node k)
    (ht : a.Ends t) :
    t.pops n.ret ≤ a.stack.length ∧ t ≠ .endCleanup ∧
      (t = .raise → ∀ h ∈ n.handlers a.block, levels[h]? = some (some a.level.caught)) ∧
      ∀ target ∈ t.successors, target < n.blocks.length ∧
        levels[target]? = some (some ⟨a.stack.length - t.pops n.ret, a.monitors⟩) := by
  obtain ⟨hk, hexit⟩ := ha.ends_cases h ht
  obtain ⟨es, last, fs, hthrough, hending, hagree⟩ := ha.passes
  obtain ⟨block, hblock, hpiece⟩ := Graph.pieceOf h.sound ha.mem
  rw [hk, drop_length, throughInstrs] at hthrough
  cases hthrough
  simp only [hexit] at hending
  obtain ⟨hle, -, hend, rfl⟩ := Terminator.edges_eq_ok hending
  refine ⟨hle, hend, ?_, ?_⟩
  · rintro rfl handler hhandler
    rw [ha.block] at hhandler
    exact hagree ⟨handler, a.level.caught, node.exitLocation⟩
      (mem_append_right _ (mem_append_left _ (mem_map.2 ⟨handler, hhandler, rfl⟩)))
  · intro target htarget
    refine ⟨?_, hagree _ (mem_append_right _ (mem_append_right _ (mem_map_of_mem htarget)))⟩
    rw [← (hpiece.of_leave hexit).1] at htarget
    exact (h.sound.blocks block (mem_of_getElem? hblock)).targets target htarget

/-! ### Runs -/

theorem exists_rides_handle (h : n.Levels isMarker levels) (hmethod : a.method = n) {e : Value}
    {handler : Nat} (hhandler : p.handler? a.method a.block e = some handler)
    (hl : ∀ j ∈ n.handlers a.block, levels[j]? = some (some a.level.caught)) :
    ∃ node k, (a.handle handler e).Rides n isMarker levels node k := by
  have hmem := Program.mem_handlers_of_handler? (hmethod ▸ hhandler)
  exact exists_rides h (Graph.lt_of_mem_handlers h.sound hmem) (hl handler hmem) hmethod rfl rfl

/-- **Each step of an activation stays at its level.** -/
theorem Rides.walks (h : n.Levels isMarker levels) (ha : a.Rides n isMarker levels node k)
    (hb : a.Walks p b) : ∃ node k, b.Rides n isMarker levels node k := by
  cases hb with
  | next hi hle hb =>
    exact (ha.poised h hi).next b (hb.method.trans ha.method) hb.block hb.offset
      (level_of_completes hle hb)
  | caught hi hle hthrow hhandler =>
    exact exists_rides_handle h ha.method hhandler ((ha.poised h hi).caught hthrow)
  | @jump t target rest ht hjump =>
    obtain ⟨hmem, -, hrest⟩ := (t.accurate a).jump hjump
    obtain ⟨-, -, -, hsuccessors⟩ := ha.leaving h ht
    obtain ⟨hlt, hl⟩ := hsuccessors target hmem
    refine exists_rides h hlt ?_ ha.method rfl rfl
    rw [hl, hrest, ha.method]
    simp only [level, Activation.jump, length_drop]
  | raised ht hthrow hhandler =>
    obtain ⟨-, -, hraise, -⟩ := ha.leaving h ht
    exact exists_rides_handle h ha.method hhandler
      (hraise ((Terminator.accurate a _).throw hthrow).1)

/-- **An activation at its level takes nothing that is not there.** -/
theorem Rides.not_imbalance (h : n.Levels isMarker levels) (ha : a.Rides n isMarker levels node k)
    {s : Store} {ts : List Task} {f : Fault}
    (hf : (Machine.execute p s a ts).control = .unwind (.fault f)) : f.isImbalance = false := by
  obtain ⟨block, hblock, hpiece⟩ := Graph.pieceOf h.sound ha.mem
  have hcurrent : a.method.block? a.block = some block := by
    rw [ha.method, ha.block]
    exact hblock
  have hraise : ∀ {e : Value}, p.raise a e ≠ .unwind (.fault f) := by
    intro e
    unfold Program.raise
    split <;> exact nofun
  simp only [Machine.execute, hcurrent] at hf
  split at hf
  · rename_i i hi
    obtain ⟨after, hafter⟩ := (ha.poised h ⟨block, hcurrent, hi⟩).level
    obtain ⟨hle, hheld⟩ := le_of_level hafter
    obtain ⟨t, action, hexec⟩ : ∃ t action, a.exec s i = (t, action) := ⟨_, _, rfl⟩
    have hobeys := obeys_exec hle s
    rw [hexec] at hf hobeys
    cases hobeys with
    | next hb => cases hf
    | throw e _ => exact absurd hf hraise
    | fault f hf' =>
      cases hf
      exact hf'
    | unheld hi hnone => exact absurd hnone (hheld hi)
    | @errand action e he _ =>
      rw [Machine.act_of_errand he] at hf
      have hwork : (e.work t).control = .unwind (.fault f) := hf
      have herrand := (Machine.isErrand_work he t).2
      rw [hwork] at herrand
      cases herrand
  · rename_i hnone
    obtain ⟨hle, hend, -, -⟩ := ha.leaving h ⟨block, hcurrent, hnone, rfl⟩
    have hfits := fits_leave (a := a) (t := block.terminator) (by rw [ha.method]; exact hle)
    split at hf
    · cases hf
    · cases hf
    · exact absurd hf hraise
    · rename_i g hleave
      cases hf
      rw [hleave] at hfits
      rcases hfits with hfits | ⟨hfits, -⟩
      · exact hfits
      · exact absurd hfits hend

end Rides

end Activation

/-- What the levels of a method say about an activation of it in a machine. -/
structure Machine.AtLevel (n : Method) (isMarker : String → Bool) (levels : List (Option Level))
    (p : Program) (m : Machine) (a : Activation) : Prop where
  /-- At the start of a node, which is one that control gets to. -/
  node : ∀ node ∈ (Graph.ofMethod n isMarker).nodes, a.block = node.origin →
    a.offset = node.start →
    node.id ∈ Graph.reached levels ∧ levels[node.id]? = some (some ⟨a.stack.length, a.monitors⟩)
  /-- The activation is not at fault for what is not there. -/
  fault : ∀ (m' : Machine) (f : Fault), m.Step p m' → m'.control = .unwind (.fault f) →
    f.isImbalance = false
  /-- A marker is called with the future alone. -/
  marker : ∀ c, a.At (.invoke c) → isMarker c.name = true → a.stack.length = 1 ∧ a.monitors = 0

/-- **The levels hold in every run.** -/
theorem Machine.atLevel_of_balance {n : Method} {isMarker : String → Bool}
    {levels : List (Option Level)} (hreferences : n.referenceDefects = [])
    (harity : n.arityDefects isMarker = [])
    (hbalance : (Graph.ofMethod n isMarker).balance n.ret = .ok levels) {p : Program}
    {m₀ m : Machine} (hstart : m₀.Started) (hm : m₀.Steps p m) {a : Activation}
    (ha : m.control = .exec a) (hn : a.method = n) : m.AtLevel n isMarker levels p a := by
  have h : n.Levels isMarker levels :=
    ⟨Method.referenceDefects_eq_nil_iff.1 hreferences, harity, hbalance⟩
  have hkept : Kept p fun a => a.method = n → ∃ node k, a.Rides n isMarker levels node k := by
    refine ⟨?_, ?_⟩
    · rintro _ args depth rfl
      exact Activation.exists_rides h h.sound.entry h.entry rfl rfl rfl
    · intro a b hP hwalks hb
      obtain ⟨node, k, hrides⟩ := hP (hwalks.method.symm.trans hb)
      exact hrides.walks h hwalks
  obtain ⟨node, k, hrides⟩ := ((hstart.keeps _).steps hkept hm).running a ha hn
  obtain ⟨s, c, ts⟩ := m
  cases ha
  refine ⟨?_, ?_, ?_⟩
  · intro node' hnode' hblock hoffset
    have hholds : node'.Holds a.location :=
      ⟨hblock, Nat.le_of_eq hoffset.symm, hoffset ▸ Nat.le_add_right a.offset _⟩
    obtain rfl := Graph.node_unique h.sound hrides.mem hnode' hrides.holds hholds
    have hk : k = 0 := Nat.add_left_cancel (hrides.offset.symm.trans hoffset)
    have hl := hrides.first hk
    exact ⟨Graph.mem_reached.2 ⟨_, hl⟩, hl⟩
  · rintro m' f hstep hf
    cases hstep
    exact hrides.not_imbalance h hf
  · intro c hi hmarker
    have hlevel := (hrides.poised h hi).marker c rfl hmarker
    exact ⟨congrArg Level.stack hlevel, congrArg Level.monitors hlevel⟩

namespace awaitAndAdd

/-- The levels of the three nodes: the block before the wait, the handler, and what follows. -/
def levels : List (Option Level) := [some ⟨0, 0⟩, some ⟨1, 0⟩, some ⟨1, 0⟩]

/-- The activation that is about to wait. -/
def waiting : Activation :=
  { Activation.start awaitAndAdd [.future 0, .int 7] 1 with stack := [.future 0], offset := 1 }

end awaitAndAdd

open awaitAndAdd in
/-- A call that is about to wait for its argument. -/
theorem atLevel_awaitAndAdd :
    (Graph.ofMethod awaitAndAdd ({} : Options).isMarker).balance .int = .ok levels ∧
      Machine.AtLevel awaitAndAdd ({} : Options).isMarker levels source
        ⟨store, .exec waiting, []⟩ waiting := by
  have hbalance : (Graph.ofMethod awaitAndAdd ({} : Options).isMarker).balance .int =
      .ok levels := by
    decide +kernel
  have hsteps : Machine.Steps source (.invoke store "m" [.future 0, .int 7])
      ⟨store, .exec waiting, []⟩ := by
    have hfirst : Machine.Step source (.invoke store "m" [.future 0, .int 7])
        ⟨store, .exec (Activation.start awaitAndAdd [.future 0, .int 7] 1), []⟩ := rfl
    exact hfirst.steps.trans (Machine.Step.steps rfl)
  exact ⟨hbalance, Machine.atLevel_of_balance (by decide +kernel) (by decide +kernel) hbalance
    (.invoke store "m" [.future 0, .int 7]) hsteps rfl rfl⟩

end Resumable
