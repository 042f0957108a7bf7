/-
**How generated code hands over its duty.**

A dispatcher that is called with a frame has the duty for the outer future of the frame.  It hands
the duty over by settling the future, or by parking with a frame that it has just made; in both
cases it goes on to return the future.  An entry makes the outer future and hands the duty over to
its dispatcher.  Whoever calls a dispatcher without a frame gets a fault at once.

Main results:

* `Dispatcher.Plan.checks_custody` — **all code of a dispatcher keeps the duty**;
* `Dispatcher.Plan.at_start_custody` — a dispatcher takes the duty up;
* `Dispatcher.Plan.Hands.gives`, `Dispatcher.EntryHands.exec` — what handing over does.
-/

import Resumable.Proofs.Custody

set_option autoImplicit false

namespace Resumable.Dispatcher

open Custody List

/-! ### The custody of a dispatcher -/

namespace Plan

/-- The marks of the locals of a dispatcher after its head. -/
def marks (p : Plan) (l : Nat) : Mark :=
  if l = p.slots.frame then .frame
  else if l = p.slots.outer then .own
  else if l = p.slots.next then .hidden
  else .plain

/-- **How a dispatcher hands over the duty for its outer future**: it settles the future, or it
parks with a new frame.  Then it returns the future. -/
inductive Hands (p : Plan) : Marks → Instr → List Instr → Terminator → Prop where
  | settles {σ : Marks} {i : Instr} {ks : List Mark} (hi : i = .futureFulfill ∨ i = .futureReject)
      (hstack : σ.stack = .plain :: .own :: ks) (hframe : (σ.locals p.slots.frame).isFrame = true)
      (houter : σ.locals p.slots.outer = .own) : Hands p σ i [.load p.slots.outer] .ret
  | parks {σ : Marks} {k : Nat} (htop : σ.top = .plain) (hnext : σ.locals p.slots.next = .fresh)
      (houter : σ.locals p.slots.outer = .own) :
      Hands p σ (.resume p.name k p.slots.next) [.load p.slots.outer] .ret

/-- **The custody of a dispatcher.** -/
def custody (p : Plan) : Custody where
  base := p.marks
  inner b := b ≠ 0
  free := False
  hands := p.Hands

variable {p : Plan} {isMarker : String → Bool} {r : IdSet} {σ : Marks} {t : Terminator}

theorem slots_frame : p.slots.frame = 2 := rfl

theorem slots_outer : p.slots.outer = 3 + p.method.locals.length := rfl

theorem slots_next : p.slots.next = 3 + p.method.locals.length + 2 := rfl

theorem marks_frame : p.marks p.slots.frame = .frame := if_pos rfl

theorem marks_outer : p.marks p.slots.outer = .own := by
  rw [marks, if_neg (by rw [slots_outer, slots_frame]; omega), if_pos rfl]

variable {l : Nat}

theorem marks_of_ne (hframe : l ≠ 2) (houter : l ≠ 3 + p.method.locals.length)
    (hnext : l ≠ 3 + p.method.locals.length + 2) : p.marks l = .plain := by
  rw [marks, slots_frame, slots_outer, slots_next, if_neg hframe, if_neg houter, if_neg hnext]

theorem marks_local (hl : l ∈ p.method.localIds) : p.marks (p.slots.local l) = .plain := by
  have hbounds : 3 ≤ p.slots.local l ∧ p.slots.local l < 3 + p.method.locals.length :=
    Slots.local_bounds hl
  exact marks_of_ne (by omega) (by omega) (by omega)

theorem marks_state : p.marks p.slots.state = .plain := by
  have hstate : p.slots.state = 0 := rfl
  exact marks_of_ne (by omega) (by omega) (by omega)

theorem marks_resume : p.marks p.slots.resume = .plain := by
  have hresume : p.slots.resume = 1 := rfl
  exact marks_of_ne (by omega) (by omega) (by omega)

theorem marks_pending : p.marks p.slots.pending = .plain := by
  have hpending : p.slots.pending = 3 + p.method.locals.length + 1 := rfl
  exact marks_of_ne (by omega) (by omega) (by omega)

theorem marks_exc : p.marks p.slots.exc = .plain := by
  have hexc : 3 + p.method.locals.length + 3 ≤ p.slots.exc := by
    simp only [slots, Slots.ofMethod]
    split <;> omega
  exact marks_of_ne (by omega) (by omega) (by omega)

theorem marks_ret {k : Nat} (h : p.slots.ret = some k) : p.marks k = .plain := by
  have hk : k = 3 + p.method.locals.length + 3 := by
    simp only [slots, Slots.ofMethod] at h
    split at h
    · exact (Option.some.inj h).symm
    · cases h
  exact marks_of_ne (by omega) (by omega) (by omega)

/-! ### Handing over -/

/-- The outer future and an ordinary value are put on the stack, and the future is settled. -/
theorem tends_settle (hσ : p.custody.Calm σ) {i j : Instr}
    (hi : i = .futureFulfill ∨ i = .futureReject)
    (hj : ∀ τ : Marks, τ.locals = p.marks → j.marks? τ = some (τ.push .plain)) :
    p.custody.Tends .ret σ [.load p.slots.outer, j, i, .load p.slots.outer] := by
  have houter : σ.locals p.slots.outer = .own := by
    rw [hσ.locals]
    exact marks_outer
  have hload : (Instr.load p.slots.outer).marks? σ = some (σ.push .own) := by
    simp [Instr.marks?, houter]
  refine .inr ⟨fun h => (by cases h), _, hload, .inr ⟨fun _ => hσ.locals, _, hj _ hσ.locals,
    .inl (.settles hi rfl ?_ houter)⟩⟩
  show Mark.isFrame (σ.locals p.slots.frame) = true
  rw [hσ.locals]
  rfl

theorem marks?_load (hl : p.marks l = .plain) {τ : Marks} (hτ : τ.locals = p.marks) :
    (Instr.load l).marks? τ = some (τ.push .plain) := by
  simp [Instr.marks?, hτ, hl]

theorem tends_fulfill (hσ : p.custody.Calm σ) : p.custody.Tends .ret σ p.fulfill := by
  unfold fulfill
  cases hret : p.slots.ret with
  | none => exact tends_settle hσ (.inl rfl) fun τ _ => rfl
  | some k =>
    exact tends_cons (keeps_store (marks_ret hret)) hσ fun τ hτ =>
      tends_settle hτ (.inl rfl) fun _ => marks?_load (marks_ret hret)

/-- **Parking** makes a new frame for the outer future. -/
theorem tends_park {q : Suspension} (hq : ∀ l ∈ q.live.map (·.1), l ∈ p.method.localIds)
    (hσ : p.custody.Calm σ) : p.custody.Tends .ret σ (p.parkCode q) := by
  rw [parkCode, append_assoc]
  refine tends_cons (keeps_store marks_pending) hσ fun τ hτ => ?_
  have houter : τ.locals p.slots.outer = .own := by
    rw [hτ.locals]
    exact marks_outer
  have hload : (Instr.load p.slots.outer).marks? τ = some (τ.push .own) := by
    simp [Instr.marks?, houter]
  have hnew : (Instr.frameNew q.live.length).marks? (τ.push .own) = some (τ.push .fresh) := by
    simp [Instr.marks?, Marks.push, Marks.top, Marks.pop]
  have hstore : (Instr.store p.slots.next).marks? (τ.push .fresh) =
      some ⟨Function.update p.marks p.slots.next .fresh, τ.stack⟩ := by
    simp only [Instr.marks?, Marks.push, Marks.top, Marks.pop, hτ.locals]
    rfl
  refine .inr ⟨fun h => (by cases h), _, hload, .inr ⟨fun h => (by cases h), _, hnew,
    .inr ⟨fun h => (by cases h), _, hstore, ?_⟩⟩⟩
  -- From here on the next frame is known.
  have hother : ∀ {l : Nat}, l ≠ p.slots.next →
      Function.update p.marks p.slots.next .fresh l = p.marks l :=
    fun hl => Function.update_of_ne hl ..
  show p.custody.Tends .ret _ (p.save (q.live.map (·.1)) ++ _)
  rw [save]
  refine tends_copies p.slots.next ?_ (fun c hc => ?_) ?_
  · show Mark.isFrame (Function.update p.marks p.slots.next .fresh p.slots.next) = true
    rw [Function.update_self]
    rfl
  · obtain ⟨k, hk, rfl⟩ := mem_mapIdx.1 hc
    have hl := hq _ (List.getElem_mem hk)
    refine ⟨_, _, rfl, (hother ?_).trans (marks_local hl)⟩
    have hbounds : p.slots.local _ < 3 + p.method.locals.length := (Slots.local_bounds hl).2
    rw [slots_next]
    omega
  · have hpending : (Instr.load p.slots.pending).marks?
        ⟨Function.update p.marks p.slots.next .fresh, τ.stack⟩ =
        some ⟨Function.update p.marks p.slots.next .fresh, .plain :: τ.stack⟩ := by
      have hne : p.slots.pending ≠ p.slots.next := Nat.ne_of_lt (Nat.lt_succ_self _)
      simp [Instr.marks?, Marks.push, (hother hne).trans marks_pending]
    refine .inr ⟨fun h => (by cases h), _, hpending, .inl (.parks rfl ?_ ?_)⟩
    · exact Function.update_self ..
    · refine (hother ?_).trans marks_outer
      rw [slots_next, slots_outer]
      omega

/-! ### The blocks of a dispatcher -/

theorem keeps_restore {ls : List Nat} (hls : ∀ l ∈ ls, l ∈ p.method.localIds) :
    ∀ i ∈ p.restore ls, p.custody.Keeps i := by
  intro i hi
  obtain ⟨c, hc, hi⟩ := mem_flatten.1 hi
  obtain ⟨k, hk, rfl⟩ := mem_mapIdx.1 hc
  rcases mem_cons.1 hi with rfl | hi
  · exact keeps_frameLoad rfl k
  · rw [mem_singleton.1 hi]
    exact keeps_store (marks_local (hls _ (List.getElem_mem hk)))

theorem keeps_dropVoid (ty : Ty) : ∀ i ∈ dropVoid ty, p.custody.Keeps i := by
  intro i hi
  unfold dropVoid at hi
  split at hi
  · rw [mem_singleton.1 hi]
    exact keeps_of_isOrdinary rfl
  · cases hi

theorem tends_head {ls : Nat → Mark} (hframe : ls p.slots.frame = .frame)
    (hls : Function.update ls p.slots.outer .own = p.marks) :
    p.custody.Tends (p.code .head).2 ⟨ls, []⟩ (p.code .head).1 := by
  have houter : (Instr.frameOuter p.slots.frame).marks? ⟨ls, []⟩ = some ⟨ls, [.own]⟩ := by
    simp [Instr.marks?, hframe, Mark.isFrame, Marks.push]
  have hstore : (Instr.store p.slots.outer).marks? ⟨ls, [.own]⟩ = some ⟨p.marks, []⟩ := by
    simp only [Instr.marks?, Marks.top, Marks.pop]
    rw [← hls]
    rfl
  refine .inr ⟨fun h => (by cases h), _, houter, .inr ⟨fun h => (by cases h), _, hstore, ?_⟩⟩
  refine tends_of_keeps (fun i hi => ?_) ⟨rfl, fun k hk => by cases hk⟩ fun h => by cases h
  rw [mem_singleton.1 hi]
  exact keeps_load marks_state

section Blocks

variable (h : p.Made isMarker r) (hplain : p.method.Plain)
  (hparams : p.method.DeclaresParams)
include h hplain

/-- The instructions of a node are those of the method. -/
theorem keeps_body {n : Nat} {node : Node} (hn : p.graph.node? n = some node) :
    ∀ i ∈ node.instrs.map (·.mapLocals p.slots.local), p.custody.Keeps i := by
  intro i hi
  obtain ⟨j, hj, rfl⟩ := mem_map.1 hi
  obtain ⟨hmem, -⟩ := h.mem_nodes hn
  rw [h.graph] at hmem
  obtain ⟨block, hblock, hpiece⟩ := Graph.pieceOf h.sound hmem
  have hinstr : j ∈ block.instrs := by
    obtain ⟨k, hk⟩ := mem_iff_getElem?.1 hj
    exact mem_of_getElem? (hpiece.getElem? hk)
  have hblock' : block ∈ p.method.blocks := mem_of_getElem? hblock
  exact keeps_mapLocals (hplain block hblock' j hinstr) _ fun l hl =>
    marks_local ((h.sound.blocks block hblock').declared j hinstr l hl)

theorem tends_node {n : Nat} {node : Node} (hn : p.graph.node? n = some node)
    (hσ : p.custody.Calm σ) : p.custody.Tends (p.nodeCode node).2 σ (p.nodeCode node).1 := by
  have hbody := keeps_body h hplain hn
  unfold nodeCode
  cases hexit : node.exit with
  | suspend marker resume =>
    dsimp only
    split
    · refine tends_append hbody hσ fun τ hτ =>
        tends_of_keeps (fun i hi => ?_) hτ fun h => by cases h
      simp only [mem_cons, not_mem_nil, or_false] at hi
      rcases hi with rfl | rfl <;> exact keeps_of_isOrdinary rfl
    · exact tends_of_keeps hbody hσ fun h => by cases h
  | leave t =>
    cases t with
    | ret => exact tends_append hbody hσ fun τ hτ => tends_fulfill hτ
    | goto _ | branch _ _ | switch _ _ | raise | endCleanup | unreachable =>
      exact tends_of_keeps hbody hσ fun h => by cases h

include hparams

/-- **The code of every role keeps the duty or hands it over.** -/
theorem tends_code {ρ : Role} : p.custody.Tends (p.code ρ).2 ⟨p.marks, []⟩ (p.code ρ).1 := by
  have hcalm : p.custody.Calm ⟨p.marks, []⟩ := ⟨rfl, fun k hk => by cases hk⟩
  have hdead : p.custody.Tends .unreachable ⟨p.marks, []⟩ [] := ⟨hcalm, fun h => by cases h⟩
  have hlive : ∀ {k : Nat} {q : Suspension}, p.point? k = some q →
      ∀ l ∈ q.live.map (·.1), l ∈ p.method.localIds := by
    intro k q hq l hl
    have hmem : q ∈ p.points := mem_of_find?_eq_some hq
    obtain ⟨n, marker, hn, -⟩ := (h.isAt hmem).node
    exact (mem_live h hmem hn hl).1
  cases ρ with
  | head =>
    refine tends_head marks_frame ?_
    rw [← marks_outer, Function.update_eq_self]
  | start =>
    refine tends_of_keeps (keeps_restore fun l hl => ?_) hcalm fun h => by cases h
    exact hparams.mem_localIds hl
  | resume k =>
    simp only [code]
    split
    · rename_i q hq
      refine tends_of_keeps (fun i hi => ?_) hcalm fun h => by cases h
      simp only [mem_append, mem_cons, not_mem_nil, or_false] at hi
      rcases hi with (hi | rfl | rfl) | hi
      · exact keeps_restore (hlive hq) i hi
      · exact keeps_load marks_resume
      · exact keeps_of_isOrdinary rfl
      · exact keeps_dropVoid _ i hi
    · exact hdead
  | node n =>
    simp only [code]
    split
    · rename_i node hn
      exact tends_node h hplain hn hcalm
    · exact hdead
  | fast k =>
    simp only [code]
    split
    · refine tends_of_keeps (fun i hi => ?_) hcalm fun h => by cases h
      rcases mem_cons.1 hi with rfl | hi
      · exact keeps_of_isOrdinary rfl
      · exact keeps_dropVoid _ i hi
    · exact hdead
  | park k =>
    simp only [code]
    split
    · rename_i q hq
      exact tends_park (hlive hq) hcalm
    · exact hdead
  | fail =>
    refine tends_of_keeps (fun i hi => ?_) hcalm fun h => by cases h
    simp only [code, mem_cons, not_mem_nil, or_false] at hi
    rcases hi with rfl | rfl | rfl | rfl
    · exact keeps_store marks_exc
    · exact keeps_load marks_state
    · exact keeps_push _
    · exact keeps_of_isOrdinary rfl
  | rethrow =>
    refine tends_of_keeps (fun i hi => ?_) hcalm fun h => by cases h
    rw [mem_singleton.1 hi]
    exact keeps_load marks_exc
  | reject => exact tends_settle hcalm (.inr rfl) fun _ => marks?_load marks_exc
  | badState => exact hdead

omit h hplain hparams in
theorem block_ne_zero {ρ : Role} (hρ : ρ ≠ .head) : p.block ρ ≠ 0 := by
  have hidx : ∀ {σ : Role}, σ ≠ .head → p.roles.idxOf σ ≠ 0 := by
    intro σ hσ
    rw [roles, layout, append_assoc, cons_append, idxOf_cons_ne _ hσ.symm]
    exact Nat.succ_ne_zero _
  unfold block blockOf
  split
  · exact hidx hρ
  · exact hidx (by decide)

omit h hplain hparams in
/-- No node leads back to the head. -/
theorem inner_nodeCode (node : Node) :
    ∀ target ∈ (p.nodeCode node).2.successors, target ≠ 0 := by
  intro target htarget
  unfold nodeCode at htarget
  cases hexit : node.exit with
  | suspend marker resume =>
    simp only [hexit] at htarget
    split at htarget
    · simp only [Terminator.successors, mem_cons, not_mem_nil, or_false] at htarget
      rcases htarget with rfl | rfl <;> exact block_ne_zero (by simp)
    · cases htarget
  | leave t =>
    have hmap : ∀ target ∈ (t.mapTargets p.nodeBlock).successors, target ≠ 0 := by
      intro target htarget
      rw [Terminator.successors_mapTargets] at htarget
      obtain ⟨k, -, rfl⟩ := mem_map.1 htarget
      exact block_ne_zero (by simp)
    simp only [hexit] at htarget
    cases t with
    | ret => cases htarget
    | goto _ | branch _ _ | switch _ _ | raise | endCleanup | unreachable =>
      exact hmap target htarget

omit h hplain hparams in
/-- No block leads back to the head. -/
theorem inner_successors (ρ : Role) : ∀ target ∈ (p.code ρ).2.successors, target ≠ 0 := by
  have hgoto : ∀ {n : Nat}, ∀ target ∈ (Terminator.goto (p.nodeBlock n)).successors,
      target ≠ 0 := by
    intro n target htarget
    rw [mem_singleton.1 htarget]
    exact block_ne_zero (by simp)
  intro target htarget
  cases ρ with
  | head =>
    simp only [code, Terminator.successors, cases, map_cons, List.map_map, mem_append,
      mem_cons, mem_map, not_mem_nil, or_false] at htarget
    rcases htarget with (rfl | ⟨q, -, rfl⟩) | rfl <;> exact block_ne_zero (by simp)
  | start => exact hgoto target htarget
  | resume k | fast k =>
    simp only [code] at htarget
    split at htarget
    · exact hgoto target htarget
    · cases htarget
  | node n =>
    simp only [code] at htarget
    split at htarget
    · exact inner_nodeCode _ target htarget
    · cases htarget
  | park k =>
    simp only [code] at htarget
    split at htarget <;> cases htarget
  | fail =>
    simp only [code, Terminator.successors, mem_cons, not_mem_nil, or_false] at htarget
    rcases htarget with rfl | rfl <;> exact block_ne_zero (by simp)
  | rethrow | reject | badState => cases htarget

omit h hplain hparams in
/-- No handler is the head. -/
theorem inner_handlers : ∀ R ∈ p.dispatcher.regions, R.handler ≠ 0 := by
  intro R hR
  rcases mem_append.1 hR with hR | hR
  · obtain ⟨k, hk, rfl⟩ := mem_mapIdx.1 hR
    obtain ⟨G, -, hpiece⟩ := mem_flatMap.1 (List.getElem_mem hk)
    dsimp only
    split at hpiece
    · rename_i handler hhandler
      obtain ⟨s, -, hs⟩ := mem_filterMap.1 hpiece
      have hblock : p.block (.node G.handler) = handler := by
        unfold blockOf? at hhandler
        split at hhandler
        · rename_i hmem
          rw [block, blockOf, if_pos hmem]
          exact Option.some.inj hhandler
        · cases hhandler
      rw [(piece?_eq_some hs).1, ← hblock]
      exact block_ne_zero (by simp)
    · cases hpiece
  · rw [mem_singleton.1 hR]
    exact block_ne_zero (by simp)

/-- **All code of a dispatcher keeps the duty for the outer future.** -/
theorem checks_custody : p.custody.Checks p.dispatcher where
  steady l := by
    show p.marks l ≠ .fresh
    unfold marks
    repeat' split
    all_goals simp
  tends b block _ hblock := by
    obtain ⟨ρ, -, rfl⟩ := Option.map_eq_some_iff.1 (getElem?_mapIdx.symm.trans hblock)
    exact tends_code h hplain hparams
  successors b block hblock := by
    obtain ⟨ρ, -, rfl⟩ := Option.map_eq_some_iff.1 (getElem?_mapIdx.symm.trans hblock)
    exact inner_successors ρ
  handlers := inner_handlers

end Blocks

variable {s : Store} {used : Nat → Prop} {o : Nat} {a : Activation}

theorem ahead_start (p : Plan) (args : List Value) (depth : Nat) :
    (Activation.start p.dispatcher args depth).Ahead (p.code .head).1 (p.code .head).2 := by
  have hblock := block?_dispatcher (p := p) (ρ := .head) (mem_roles_fixed (by simp))
  rw [block_head] at hblock
  exact ⟨_, hblock, rfl, rfl⟩

/-- **A dispatcher that is called with a frame** has the duty for the outer future of the frame. -/
theorem at_start_custody {x y : Value} {f : Nat} (hx : x.Ordinary s.promises.size)
    (hy : y.Ordinary s.promises.size) (hf : s.outer? f = some o) (depth : Nat) :
    p.custody.At p.dispatcher s used o (.start p.dispatcher [x, y, .frame f] depth) := by
  refine ⟨rfl, .inr ⟨⟨Function.update p.marks p.slots.outer .plain, []⟩, _, _,
    p.ahead_start _ _, tends_head ?_ ?_, fun l => ?_, fun v hv => by cases hv⟩⟩
  · rw [Function.update_of_ne (by rw [slots_frame, slots_outer]; omega)]
    exact marks_frame
  · rw [Function.update_idem, ← marks_outer, Function.update_eq_self]
  · rw [locals_start]
    simp only [Locals.get_set]
    by_cases h₂ : l = 2
    · subst h₂
      rw [Function.update_of_ne (by rw [slots_outer]; omega)]
      exact ⟨f, rfl, hf⟩
    · have hplain : ∀ {v : Value}, v.Ordinary s.promises.size →
          (Function.update p.marks p.slots.outer .plain l).Holds s used o v := by
        intro v hv
        by_cases houter : l = p.slots.outer
        · rw [houter, Function.update_self]
          exact hv
        · rw [Function.update_of_ne houter, marks, slots_frame, if_neg h₂, if_neg houter]
          split
          · trivial
          · exact hv
      rw [if_neg h₂]
      split
      · exact hplain hy
      · split
        · exact hplain hx
        · exact hplain Value.ordinary_null

/-- A dispatcher that is called without a frame fails at once. -/
theorem execute_astray {args : List Value} (hargs : ∀ v ∈ args, v.Ordinary s.promises.size)
    (depth : Nat) (prog : Program) (ts : List Task) :
    ∃ f, Machine.execute prog s (.start p.dispatcher args depth) ts =
      ⟨s, .unwind (.fault f), ts⟩ := by
  have hframe := forall_ofArgs (P := fun v => v.Ordinary s.promises.size) Value.ordinary_null
    p.dispatcher.params hargs p.slots.frame
  have hexecute := Option.some.inj ((p.ahead_start args depth).step_instr prog s ts)
  rw [hexecute]
  simp only [Activation.exec, Activation.withFrame]
  split
  · rename_i f hf
    have hf : (Locals.ofArgs p.dispatcher.params args).get p.slots.frame = .frame f := hf
    rw [hf] at hframe
    exact absurd hframe Value.not_ordinary_frame
  · exact ⟨_, rfl⟩

end Plan

/-! ### The custody of an entry -/

/-- An entry hands the duty over to its dispatcher. -/
def EntryHands (d : String) (σ : Marks) (i : Instr) (is : List Instr) (t : Terminator) : Prop :=
  i = .invoke (callee d) ∧ is = [] ∧ t = .ret ∧
    ∃ k ks, σ.stack = k :: .plain :: .plain :: ks ∧ k.isFrame = true

/-- **The custody of an entry** with the given dispatcher. -/
def entryCustody (d : String) : Custody where
  base _ := .plain
  inner _ := False
  free := False
  hands := EntryHands d

theorem checks_entryCustody (m : Method) (d : String) : (entryCustody d).Checks (entry m d) where
  steady _ := by simp [entryCustody]
  tends _ _ hinner := hinner.elim
  successors b block hblock target htarget := by
    obtain ⟨hlt, rfl⟩ := List.getElem?_eq_some_iff.1 hblock
    have hb : b = 0 := by simpa [entry] using hlt
    subst hb
    cases htarget
  handlers _ h := by cases h

/-- The code of an entry, after it has made the outer future. -/
theorem tends_entryCode (m : Method) (d : String) :
    (entryCustody d).Tends .ret ⟨fun _ => .plain, [.own]⟩
      (entryCode m d m.params.length).tail := by
  have hnew : (Instr.frameNew m.params.length).marks? ⟨fun _ => .plain, [.own]⟩ =
      some ⟨fun _ => .plain, [.fresh]⟩ := rfl
  have hstore : (Instr.store m.params.length).marks? ⟨fun _ => .plain, [.fresh]⟩ =
      some ⟨Function.update (fun _ => .plain) m.params.length .fresh, []⟩ := rfl
  rw [entryCode, append_assoc]
  refine .inr ⟨fun h => (by cases h), _, hnew, .inr ⟨fun h => (by cases h), _, hstore, ?_⟩⟩
  refine tends_copies m.params.length ?_ (fun c hc => ?_) ?_
  · show Mark.isFrame (Function.update (fun _ => Mark.plain) m.params.length .fresh
      m.params.length) = true
    rw [Function.update_self]
    rfl
  · obtain ⟨k, hk, rfl⟩ := mem_mapIdx.1 hc
    refine ⟨k, k, rfl, ?_⟩
    show Function.update (fun _ => Mark.plain) m.params.length .fresh k = .plain
    rw [Function.update_of_ne (Nat.ne_of_lt hk)]
  · have hload : (Instr.load m.params.length).marks?
        ⟨Function.update (fun _ => .plain) m.params.length .fresh, [.plain, .plain]⟩ =
        some ⟨Function.update (fun _ => .plain) m.params.length .fresh,
          [.fresh, .plain, .plain]⟩ := by
      simp [Instr.marks?, Marks.push]
    exact .inr ⟨fun h => (by cases h), _, rfl, .inr ⟨fun h => (by cases h), _, rfl,
      .inr ⟨fun h => (by cases h), _, hload, .inl ⟨rfl, rfl, rfl, _, _, rfl, rfl⟩⟩⟩⟩

theorem ahead_start_entry (m : Method) (d : String) (args : List Value) (depth : Nat) :
    (Activation.start (entry m d) args depth).Ahead (entryCode m d m.params.length) .ret :=
  ⟨_, rfl, rfl, rfl⟩

/-- **An entry starts by making the outer future**, and has the duty for it. -/
theorem execute_entry (m : Method) (d : String) {s : Store} {args : List Value}
    (hargs : ∀ v ∈ args, v.Ordinary s.promises.size) (used : Nat → Prop) (depth : Nat)
    (prog : Program) (ts : List Task) :
    ∃ b, Machine.execute prog s (.start (entry m d) args depth) ts =
        ⟨s.newPromise.1, .exec b, ts⟩ ∧
      (entryCustody d).At (entry m d) s.newPromise.1 used s.promises.size b := by
  have hahead := ahead_start_entry m d args depth
  have hexecute := Option.some.inj (hahead.step_instr prog s ts)
  refine ⟨_, hexecute, rfl, .inr ⟨⟨fun _ => .plain, [.own]⟩, _, _,
    hahead.moves ⟨rfl, rfl, rfl, rfl⟩, tends_entryCode m d, fun l => ?_, rfl,
    fun v hv => by cases hv⟩⟩
  have hlocal := forall_ofArgs (P := fun v => v.Ordinary s.promises.size) Value.ordinary_null
    (entry m d).params hargs l
  refine hlocal.mono ?_
  simp [Store.newPromise, Store.addPromise]

end Resumable.Dispatcher

namespace Resumable

open Dispatcher

/-! ### After the duty -/

/-- An activation that has no duty any more and is about to return the future. -/
inductive Activation.Returning (o : Nat) : Activation → Prop where
  | loads {a : Activation} {l : Nat} (hahead : a.Ahead [.load l] .ret)
      (hl : a.locals.get l = .future o) (hret : a.method.ret.isVoid = false) : Returning o a
  | returns {a : Activation} {vs : List Value} (hahead : a.Ahead [] .ret)
      (hstack : a.stack = .future o :: vs) (hret : a.method.ret.isVoid = false) : Returning o a

variable {o : Nat} {a : Activation}

theorem Activation.Returning.execute (h : a.Returning o) (p : Program) (s : Store)
    (ts : List Task) :
    (∃ b, b.Returning o ∧ Machine.execute p s a ts = ⟨s, .exec b, ts⟩) ∨
      Machine.execute p s a ts = ⟨s, .answer (.future o), ts⟩ := by
  cases h with
  | @loads l hahead hl hret =>
    have hexecute := Option.some.inj (hahead.step_instr p s ts)
    exact .inl ⟨a.advance (a.locals.get l :: a.stack),
      .returns (hahead.moves ⟨rfl, rfl, rfl, rfl⟩) (congrArg (· :: a.stack) hl) hret, hexecute⟩
  | returns hahead hstack hret =>
    have hexecute := Option.some.inj (hahead.step_leave p s ts)
    have hleave : a.leave .ret = .ret (.future o) := by
      simp only [Activation.leave, hret, hstack]
      rfl
    rw [hleave] at hexecute
    exact .inr hexecute

/-- **What a dispatcher does when it hands over the duty for `o`**: it settles `o`, or it parks
with a frame of `o` that was not parked before. -/
inductive Dispatcher.Gives (d : String) (s : Store) (used : Nat → Prop) (o : Nat) :
    Store × Action → Prop where
  | fails (f : Fault) : Gives d s used o (s, .fault f)
  | fulfills {b : Activation} {v : Value} (hv : v.Ordinary s.promises.size)
      (hb : (b.advance b.stack).Returning o) : Gives d s used o (s, .fulfill b o v)
  | rejects {b : Activation} {e : Value} (he : e.Ordinary s.promises.size)
      (hb : (b.advance b.stack).Returning o) : Gives d s used o (s, .reject b o e)
  | parks {b : Activation} {q k f : Nat} (hq : q < s.promises.size) (hf : s.outer? f = some o)
      (hused : ¬ used f) (hb : (b.advance b.stack).Returning o) :
      Gives d s used o (s, .subscribe b q (.resume d k f s.ambient))

theorem Dispatcher.Plan.Hands.gives {p : Plan} {σ : Marks} {i : Instr} {is : List Instr}
    {t : Terminator} (h : p.Hands σ i is t) {s : Store} {used : Nat → Prop}
    (hm : a.method = p.dispatcher) (hahead : a.Ahead (i :: is) t) (hσ : σ.Holds s used o a) :
    (∃ f, s.outer? f = some o) ∧ Gives p.name s used o (a.exec s i) := by
  -- The dispatcher goes on to return the outer future.
  have hreturning : σ.locals p.slots.outer = .own → is = [.load p.slots.outer] → t = .ret →
      ∀ vs, (({ a with stack := vs } : Activation).advance vs).Returning o := by
    rintro houter rfl rfl vs
    have hl := hσ.locals p.slots.outer
    rw [houter] at hl
    exact .loads (hahead.moves ⟨rfl, rfl, rfl, rfl⟩) hl (congrArg (·.ret.isVoid) hm)
  cases h with
  | settles hi hstack hframe houter =>
    obtain ⟨f, -, hf⟩ := hσ.frame hframe
    refine ⟨⟨f, hf⟩, ?_⟩
    have hvalues := hσ.stack
    rw [hstack] at hvalues
    match hvs : a.stack with
    | [] =>
      rcases hi with rfl | rfl <;>
        simp only [Activation.exec, hvs] <;> exact .fails _
    | [v] =>
      rcases hi with rfl | rfl <;>
        simp only [Activation.exec, Activation.withFuture, hvs] <;> exact .fails _
    | v :: w :: rest =>
      rw [hvs] at hvalues
      obtain ⟨hv, rfl, -⟩ := hvalues
      rcases hi with rfl | rfl
      · simp only [Activation.exec, Activation.withFuture, hvs]
        exact .fulfills hv (hreturning houter rfl rfl rest)
      · simp only [Activation.exec, Activation.withFuture, hvs]
        exact .rejects hv (hreturning houter rfl rfl rest)
  | parks htop hnext houter =>
    have hlocal := hσ.locals p.slots.next
    rw [hnext] at hlocal
    obtain ⟨f, hf, hfouter, hfresh⟩ := hlocal
    refine ⟨⟨f, hfouter⟩, ?_⟩
    simp only [Activation.exec, Activation.withFuture, Activation.withFrame, hf]
    split
    · rename_i q rest hvs
      have hvalues := hσ.stack
      rw [hvs, Marks.ofStack_cons] at hvalues
      have hq : Mark.plain.Holds s used o (.future q) := htop ▸ hvalues.1
      exact .parks (Value.ordinary_future.1 hq) hfouter hfresh (hreturning houter rfl rfl rest)
    · exact .fails _
    · exact .fails _

/-- **What an entry does when it hands over the duty for `o`**: it calls the dispatcher with a
frame of `o`. -/
theorem Dispatcher.EntryHands.exec {d : String} {σ : Marks} {i : Instr} {is : List Instr}
    {t : Terminator} (h : EntryHands d σ i is t) {s : Store} {used : Nat → Prop} {m : Method}
    (hm : a.method = entry m d) (hahead : a.Ahead (i :: is) t) (hσ : σ.Holds s used o a) :
    (∃ f, a.exec s i = (s, .fault f)) ∨
      ∃ b x y f, a.exec s i = (s, .call b d [x, y, .frame f] true) ∧
        x.Ordinary s.promises.size ∧ y.Ordinary s.promises.size ∧ s.outer? f = some o ∧
        b.method = entry m d ∧ ∀ vs, (b.advance (.future o :: vs)).Returning o := by
  obtain ⟨rfl, rfl, rfl, k, ks, hstack, hk⟩ := h
  have hvalues := hσ.stack
  rw [hstack] at hvalues
  match hvs : a.stack with
  | [] | [_] | [_, _] =>
    refine .inl ⟨a.underflow, ?_⟩
    simp [Activation.exec, Activation.take?, hvs, callee]
  | z :: y :: x :: rest =>
    rw [hvs] at hvalues
    obtain ⟨hz, hy, hx, -⟩ := hvalues
    have hframe : ∃ f, z = .frame f ∧ s.outer? f = some o := by
      cases k with
      | frame => exact hz
      | fresh =>
        obtain ⟨f, hf, houter, -⟩ := hz
        exact ⟨f, hf, houter⟩
      | plain | own | hidden => cases hk
    obtain ⟨f, rfl, houter⟩ := hframe
    refine .inr ⟨{ a with stack := rest }, x, y, f, ?_, hx, hy, houter, hm, fun vs => ?_⟩
    · simp [Activation.exec, Activation.take?, hvs, callee, Ty.isVoid, Ty.slots]
    · exact .returns (hahead.moves ⟨rfl, rfl, rfl, rfl⟩) rfl (congrArg (·.ret.isVoid) hm)

end Resumable
