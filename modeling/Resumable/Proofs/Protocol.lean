/-
**Generated code keeps to its protocol.**

The dispatcher of a converted method has a typing: the head reads a frame that is there and switches
over a state that exists, a resumption restores as many locals as its frame has slots, the code of a
node finds the operands that the check of stack depths has counted, and a future is joined only
after it was seen to have settled.  So has the entry.  The frames that a parked dispatcher hands to
its continuation have the slots that the resumption reads.  Hence no activation that the generated
code itself starts breaks the protocol, whatever the rest of the program does.

Main results:

* `Plan.checks_typing`, `Dispatcher.checks_entryTyping` — the typings are right;
* `Conversion.not_breaks_of_convert` — **generated code never breaks its own protocol**.
-/

import Resumable.Proofs.ExceptionTables
import Resumable.Proofs.Resumption
import Resumable.Proofs.Shapes

set_option autoImplicit false

namespace Resumable

open Dispatcher List

/-! ### Levels and shapes -/

/-- The shape agrees with the level. -/
def Shape.Has (σ : Shape) (l : Level) : Prop := σ.stack.length = l.stack ∧ σ.monitors = l.monitors

variable {i : Instr}

theorem Instr.level_mapLocals {l l' : Level} (h : i.level l = .ok l') (f : Nat → Nat) :
    (i.mapLocals f).level l = .ok l' := by
  have hpops : (i.mapLocals f).pops = i.pops := by cases i <;> rfl
  unfold level at h ⊢
  rw [hpops]
  split at h
  · cases h
  · rename_i hle
    rw [if_neg hle, ← h]
    cases i <;> rfl

/-- **An instruction of the method takes shapes along with levels**, and changes at most the local
that it stores. -/
theorem Instr.exists_shape (hplain : i.isProtocol = false) {σ : Shape} {l l' : Level} (hσ : σ.Has l)
    (h : i.level l = .ok l') :
    ∃ τ, i.shape? σ = some τ ∧ τ.Has l' ∧ ∀ k, i.defines? ≠ some k → τ.locals k = σ.locals k := by
  obtain ⟨hstack, hmonitors⟩ := hσ
  unfold level at h
  split at h
  · cases h
  · rename_i hle
    have hle := Nat.le_of_not_lt hle
    rw [← hstack] at hle
    -- What takes operands and leaves values of which nothing is known.
    have happly : ∀ n ks, n ≤ σ.stack.length → σ.apply n ks =
        some { σ with stack := ks ++ σ.stack.drop n } := fun n ks hn => if_pos hn
    cases i with
    | push c | load j =>
      cases h
      exact ⟨_, rfl, ⟨congrArg (· + 1) hstack, hmonitors⟩, fun _ _ => rfl⟩
    | store j =>
      cases h
      match hks : σ.stack with
      | [] =>
        rw [hks] at hle
        cases hle
      | k :: ks =>
        have hlen : ks.length = l.stack - 1 + 0 := by
          rw [← hstack, hks]
          rfl
        refine ⟨{ σ with stack := ks, locals := Function.update σ.locals j k.alone },
          by rw [shape?, hks], ⟨hlen, hmonitors⟩, fun i hi => ?_⟩
        exact Function.update_of_ne (fun heq => hi (congrArg some heq.symm)) _ _
    | dup =>
      cases h
      match hks : σ.stack with
      | [] =>
        rw [hks] at hle
        cases hle
      | k :: ks =>
        have hlen : (Kind.copy :: k :: ks).length = l.stack - 1 + 2 := by
          rw [← hstack, hks]
          rfl
        exact ⟨{ σ with stack := .copy :: k :: ks }, by rw [shape?, hks], ⟨hlen, hmonitors⟩,
          fun _ _ => rfl⟩
    | monitorEnter =>
      cases h
      have hshape : monitorEnter.shape? σ =
          some ⟨σ.stack.drop 1, σ.monitors + 1, σ.locals⟩ := by
        rw [shape?, happly 1 [] hle]
        rfl
      refine ⟨_, hshape, ⟨?_, congrArg (· + 1) hmonitors⟩, fun _ _ => rfl⟩
      simp [← hstack, pops, pushes]
    | monitorExit =>
      simp only at h
      split at h
      · cases h
      · rename_i hpos
        cases h
        rw [← hmonitors] at hpos
        have hshape : monitorExit.shape? σ =
            some ⟨σ.stack.drop 1, σ.monitors - 1, σ.locals⟩ := by
          rw [shape?, if_neg hpos, happly 1 [] hle]
          rfl
        refine ⟨_, hshape, ⟨?_, congrArg (· - 1) hmonitors⟩, fun _ _ => rfl⟩
        simp [← hstack, pops, pushes]
    | pop | swap | binary op | unary op | invoke c | construct cls argc | closure name captures
    | callClosure argc ret =>
      cases h
      refine ⟨_, happly _ _ hle, ⟨?_, hmonitors⟩, fun _ _ => rfl⟩
      simp only [length_append, length_replicate, length_drop, hstack]
      omega
    | futureNew | futureIsDone | futureJoin | futureFulfill | futureReject | frameNew n
    | frameLoad f n | frameStore f n | frameOuter f | outcomeUnwrap | resume d k f => cases hplain

theorem Instr.mayThrow_of_raises (h : i.raises = true) : i.mayThrow = true := by
  cases i <;> first | rfl | cases h

theorem Instr.isProtocol_mapLocals (i : Instr) (f : Nat → Nat) :
    (i.mapLocals f).isProtocol = i.isProtocol := by
  cases i <;> rfl

theorem Instr.raises_mapLocals (i : Instr) (f : Nat → Nat) : (i.mapLocals f).raises = i.raises := by
  cases i <;> rfl

namespace Typing

variable {T : Typing} {prog : Program} {m : Method} {b : Nat} {t : Terminator} {σ : Shape}

/-- Something is said of instructions only that throw, or register a continuation. -/
def Quiet (T : Typing) : Prop :=
  ∀ (σ : Shape) (i : Instr), i.raises = false → (∀ d k l, i ≠ .resume d k l) → T.issues σ i

variable {is : List Instr}

theorem Quiet.cons (hT : T.Quiet) {i : Instr} {τ : Shape} (hi : ∀ d k l, i ≠ .resume d k l)
    (hraises : i.raises = false) (hτ : i.shape? σ = some τ) (h : T.Passes prog m b t τ is) :
    T.Passes prog m b t σ (i :: is) :=
  ⟨hT σ i hraises hi, fun hr => absurd (hraises.symm.trans hr) Bool.false_ne_true, τ, hτ, h⟩

/-- Copying locals to the slots of a frame, from slot `k` on. -/
theorem Quiet.saveFrom (hT : T.Quiet) {α : Type} (source : Nat → α → Nat) (xs : List α)
    {frame n : Nat} (hframe : σ.locals frame = .frame n) (k : Nat) (hk : k + xs.length ≤ n)
    (his : T.Passes prog m b t σ is) :
    T.Passes prog m b t σ ((xs.mapIdx fun i x =>
      [Instr.load (source i x), .frameStore frame (k + i)]).flatten ++ is) := by
  induction xs generalizing k source with
  | nil => exact his
  | cons x xs ih =>
    rw [mapIdx_cons, flatten_cons, append_assoc]
    rw [length_cons] at hk
    have hstore : (Instr.frameStore frame (k + 0)).shape?
        (σ.push (σ.locals (source 0 x))) = some σ := by
      simp only [Instr.shape?, Shape.push, hframe]
      rw [if_pos (by omega)]
      exact if_pos (by simp)
    refine hT.cons (by simp) rfl rfl (hT.cons (by simp) rfl hstore ?_)
    have hrest := ih (fun i => source (i + 1)) (k + 1) (by omega)
    simp only [Nat.add_assoc, Nat.add_comm 1] at hrest
    exact hrest

/-- **Copying locals to the slots of a frame.** -/
theorem Quiet.save (hT : T.Quiet) {α : Type} (source : Nat → α → Nat) (xs : List α) {frame n : Nat}
    (hframe : σ.locals frame = .frame n) (hlen : xs.length ≤ n) (his : T.Passes prog m b t σ is) :
    T.Passes prog m b t σ ((xs.mapIdx fun i x =>
      [Instr.load (source i x), .frameStore frame i]).flatten ++ is) := by
  have h := hT.saveFrom source xs hframe 0 (by omega) his
  simp only [Nat.zero_add] at h
  exact h

/-- **A jump can be made** if what it leaves on the stack is right for all its successors. -/
theorem leaves_mapTargets {f : Nat → Nat} {ret : Ty}
    (hne : t.successors ≠ []) (hb : b ≠ m.entry) (hpops : t.pops ret ≤ σ.stack.length)
    (h : ∀ k ∈ t.successors, ∀ ks : List Kind, ks.length + t.pops ret = σ.stack.length →
      T.entered (f k) { σ with stack := ks }) : T.Leaves prog m b σ (t.mapTargets f) := by
  cases t with
  | goto target => exact h target mem_cons_self σ.stack rfl
  | branch ifTrue ifFalse =>
    obtain ⟨k, ks, hks⟩ := exists_cons_of_length_pos hpops
    rw [hks] at h
    have htrue := h ifTrue mem_cons_self
    have hfalse := h ifFalse (mem_cons_of_mem _ mem_cons_self)
    simp only [Terminator.mapTargets, Leaves, hks]
    split
    · rename_i heq
      cases heq
      exact ⟨htrue _ rfl, hfalse _ rfl⟩
    · rename_i heq
      cases heq
      exact ⟨htrue _ rfl, hfalse _ rfl⟩
    · rename_i heq
      cases heq
  | switch cases default =>
    obtain ⟨k, ks, hks⟩ := exists_cons_of_length_pos hpops
    have hall : ∀ n, T.entered (((cases.map fun c => (c.1, f c.2)).lookup n).getD (f default))
        { σ with stack := ks } := by
      intro n
      rw [Activation.lookup_map_snd, Option.getD_map]
      exact h _ (Activation.getD_lookup_mem cases default n) ks (by rw [hks]; rfl)
    simp only [Terminator.mapTargets, Leaves, hks]
    split
    · rename_i heq
      cases heq
      exact hall _
    · rename_i heq
      cases heq
      exact ⟨hb, hall⟩
    · rename_i heq
      cases heq
  | ret | raise | endCleanup | unreachable => exact absurd rfl hne

end Typing

namespace Dispatcher.Plan

/-! ### The typing of a dispatcher -/

/-- The state in which a dispatcher is called at the start, or at a point. -/
def stateOf : Option Suspension → Int64
  | none => 0
  | some q => Int64.ofNat q.index

/-- The number of slots of the frame that a dispatcher is called with. -/
def slotsOf (p : Plan) : Option Suspension → Nat
  | none => p.method.params.length
  | some q => q.live.length

/-- What is known of the parameters of a dispatcher. -/
structure Given (p : Plan) (c : Option Suspension) (ls : Nat → Kind) : Prop where
  state : ls p.slots.state = .int (stateOf c)
  resume : ls p.slots.resume = .result
  frame : ls p.slots.frame = .frame (p.slotsOf c)

/-- What is known of the locals of a dispatcher after its head. -/
structure Underway (p : Plan) (c : Option Suspension) (ls : Nat → Kind) : Prop
    extends p.Given c ls where
  outer : ls p.slots.outer = .future

/-- The shapes that the block of a role is entered with, where `levels` are those of the nodes. -/
def Enters (p : Plan) (levels : List (Option Level)) (c : Option Suspension) :
    Role → Shape → Prop
  | .head, σ => σ.stack = [] ∧ σ.monitors = 0 ∧ p.Given c σ.locals
  | .start, σ => c = none ∧ σ.Has ⟨0, 0⟩ ∧ p.Underway c σ.locals
  | .resume k, σ => (∃ q ∈ p.points, q.index = k ∧ c = some q) ∧ σ.Has ⟨0, 0⟩ ∧
      p.Underway c σ.locals
  | .node n, σ => ∃ l, levels[n]? = some (some l) ∧ σ.Has l ∧ p.Underway c σ.locals
  | .fast k, σ => (∃ q ∈ p.points, q.index = k) ∧ σ.stack = [.settled] ∧ σ.monitors = 0 ∧
      p.Underway c σ.locals
  | .park k, σ => (∃ q ∈ p.points, q.index = k) ∧ σ.stack ≠ [] ∧ p.Underway c σ.locals
  | .fail, σ => σ.stack = [.any] ∧ p.Underway c σ.locals
  | .rethrow, σ | .reject, σ => p.Underway c σ.locals
  | .badState, _ => False

/-- The block of the dispatcher for the end of a block of the method that ends with
`unreachable`. -/
def Dead (p : Plan) (b : Nat) : Prop :=
  ∃ k n block, .node k ∈ p.roles ∧ b = p.nodeBlock k ∧ p.graph.node? k = some n ∧
    p.method.block? n.origin = some block ∧ block.terminator = .unreachable ∧
    n.exit = .leave .unreachable

/-- A continuation names the dispatcher and a point, and its frame has the slots of the point. -/
def Issues (p : Plan) (σ : Shape) (i : Instr) : Prop :=
  ∀ d k l, i = .resume d k l → d = p.name ∧
    ∃ q ∈ p.points, k = q.index ∧ σ.locals l = .frame q.live.length

/-- **The typing of a dispatcher** that is called at the start, or at a point. -/
def typing (p : Plan) (levels : List (Option Level)) (c : Option Suspension) : Typing where
  entered b σ := ∃ ρ ∈ p.roles, b = p.block ρ ∧ p.Enters levels c ρ σ
  dead := p.Dead
  issues := p.Issues

/-- The levels are those of a graph in balance. -/
structure Levelled (p : Plan) (r : IdSet) (levels : List (Option Level)) : Prop where
  reached : r = Graph.reached levels
  length : levels.length = p.graph.size
  entry : levels[p.graph.entry]? = some (some ⟨0, 0⟩)
  steady : ∀ (n : Nat) (l : Level), levels[n]? = some (some l) →
    p.graph.Steady p.method.ret levels n l

variable {p : Plan} {isMarker : String → Bool} {r : IdSet} {levels : List (Option Level)}
  {c : Option Suspension} {prog : Program} {b : Nat} {t : Terminator} {σ : Shape} {ls : Nat → Kind}
  {l : Nat} {i : Instr} {is : List Instr}

theorem Given.update (h : p.Given c ls) (hl : 3 ≤ l) (k : Kind) :
    p.Given c (Function.update ls l k) := by
  have hne : ∀ j < 3, j ≠ l := fun j hj => by omega
  exact ⟨(Function.update_of_ne (hne 0 (by omega)) ..).trans h.state,
    (Function.update_of_ne (hne 1 (by omega)) ..).trans h.resume,
    (Function.update_of_ne (hne 2 (by omega)) ..).trans h.frame⟩

theorem Underway.update (h : p.Underway c ls) (hl : 3 ≤ l) (houter : l ≠ p.slots.outer) (k : Kind) :
    p.Underway c (Function.update ls l k) :=
  ⟨h.toGiven.update hl k, (Function.update_of_ne houter.symm ..).trans h.outer⟩

theorem local_ne_outer (hl : l ∈ p.method.localIds) :
    3 ≤ p.slots.local l ∧ p.slots.local l ≠ p.slots.outer := by
  have hbounds := Slots.local_bounds hl
  exact ⟨hbounds.1, Nat.ne_of_lt hbounds.2⟩

theorem Underway.store (h : p.Underway c ls) (hl : l ∈ p.method.localIds) (k : Kind) :
    p.Underway c (Function.update ls (p.slots.local l) k) :=
  h.update (local_ne_outer hl).1 (local_ne_outer hl).2 k

/-- Own locals of the dispatcher other than the parameters and the outer future. -/
theorem own_ne_outer :
    (3 ≤ p.slots.pending ∧ p.slots.pending ≠ p.slots.outer) ∧
    (3 ≤ p.slots.next ∧ p.slots.next ≠ p.slots.outer) ∧
    (3 ≤ p.slots.exc ∧ p.slots.exc ≠ p.slots.outer) ∧
    ∀ k, p.slots.ret = some k → 3 ≤ k ∧ k ≠ p.slots.outer := by
  simp only [slots, Slots.ofMethod]
  refine ⟨by omega, by omega, ?_, fun k hk => ?_⟩
  · split <;> omega
  · split at hk
    · cases hk
      omega
    · cases hk

theorem entered_block {ρ : Role} (hρ : ρ ∈ p.roles) (h : p.Enters levels c ρ σ) :
    (p.typing levels c).entered (p.block ρ) σ :=
  ⟨ρ, hρ, rfl, h⟩

theorem issues_of_ne (h : ∀ d k l, i ≠ .resume d k l) : p.Issues σ i :=
  fun d k l heq => absurd heq (h d k l)

theorem quiet_typing (p : Plan) (levels : List (Option Level)) (c : Option Suspension) :
    (p.typing levels c).Quiet := fun _ _ _ h => issues_of_ne h

theorem passes_cons {τ : Shape} (hi : ∀ d k l, i ≠ .resume d k l) (hraises : i.raises = false)
    (hτ : i.shape? σ = some τ) (h : (p.typing levels c).Passes prog p.dispatcher b t τ is) :
    (p.typing levels c).Passes prog p.dispatcher b t σ (i :: is) :=
  (quiet_typing p levels c).cons hi hraises hτ h

/-- Copying frame slots, from slot `k` on, to locals. -/
theorem passes_restoreFrom {ls : List Nat} (k : Nat) (hls : ∀ l ∈ ls, l ∈ p.method.localIds)
    (hk : k + ls.length ≤ p.slotsOf c) (hσ : p.Underway c σ.locals)
    (his : ∀ locals, p.Underway c locals →
      (p.typing levels c).Passes prog p.dispatcher b t { σ with locals := locals } is) :
    (p.typing levels c).Passes prog p.dispatcher b t σ ((ls.mapIdx fun i l =>
      [Instr.frameLoad p.slots.frame (k + i), .store (p.slots.local l)]).flatten ++ is) := by
  induction ls generalizing k σ with
  | nil => exact his σ.locals hσ
  | cons l ls ih =>
    rw [mapIdx_cons, flatten_cons, append_assoc]
    rw [length_cons] at hk
    have hload : (Instr.frameLoad p.slots.frame (k + 0)).shape? σ = some (σ.push .any) := by
      simp only [Instr.shape?, hσ.frame]
      exact if_pos (by omega)
    refine passes_cons (by simp) rfl hload (passes_cons (by simp) rfl rfl ?_)
    have hrest := ih (k + 1) (fun l' hl' => hls l' (mem_cons_of_mem l hl')) (by omega)
      (σ := { σ with locals := Function.update σ.locals (p.slots.local l) .any })
      (hσ.store (hls l mem_cons_self) .any) his
    simp only [Nat.add_assoc, Nat.add_comm 1] at hrest
    exact hrest

/-- **Copying frame slots to locals.** -/
theorem passes_restore {ls : List Nat} (hls : ∀ l ∈ ls, l ∈ p.method.localIds)
    (hlen : ls.length ≤ p.slotsOf c) (hσ : p.Underway c σ.locals)
    (his : ∀ locals, p.Underway c locals →
      (p.typing levels c).Passes prog p.dispatcher b t { σ with locals := locals } is) :
    (p.typing levels c).Passes prog p.dispatcher b t σ (p.restore ls ++ is) := by
  have h := passes_restoreFrom 0 hls (by omega) hσ his
  simp only [Nat.zero_add] at h
  exact h

/-- **The instructions of a node** pass, if its handlers can be entered, and what follows them
passes. -/
theorem passes_body {hs : List Nat} {tail : List Instr} {origin offset : Nat} {l last : Level}
    {es : List Edge} (hthrough : throughInstrs hs origin offset l is = .ok (es, last))
    (hes : ∀ e ∈ es, levels[e.target]? = some (some e.level))
    (hplain : ∀ i ∈ is, i.isProtocol = false)
    (hdeclared : ∀ i ∈ is, ∀ k, i.defines? = some k → k ∈ p.method.localIds)
    (hcatches : ∀ i ∈ is, i.mayThrow = true → ∀ (τ : Shape) (j : Level), τ.Has j →
      p.Underway c τ.locals → (∀ k ∈ hs, levels[k]? = some (some j.caught)) →
      (p.typing levels c).Catches prog p.dispatcher b τ)
    (hσ : σ.Has l) (hway : p.Underway c σ.locals)
    (htail : ∀ τ : Shape, τ.Has last → p.Underway c τ.locals →
      (p.typing levels c).Passes prog p.dispatcher b t τ tail) :
    (p.typing levels c).Passes prog p.dispatcher b t σ
      (is.map (·.mapLocals p.slots.local) ++ tail) := by
  induction is generalizing offset l σ es with
  | nil =>
    cases hthrough
    exact htail σ hσ hway
  | cons i is ih =>
    unfold throughInstrs at hthrough
    split at hthrough
    · cases hthrough
    · rename_i after hafter
      split at hthrough
      · cases hthrough
      · rename_i fs last' hrest
        cases hthrough
        have hplain' : (i.mapLocals p.slots.local).isProtocol = false :=
          (i.isProtocol_mapLocals _).trans (hplain i mem_cons_self)
        obtain ⟨τ, hτ, hhas, hlocals⟩ :=
          Instr.exists_shape hplain' hσ (Instr.level_mapLocals hafter _)
        -- The instruction stores a local of the method at most.
        have hkept : ∀ k, (k < 3 ∨ k = p.slots.outer) → τ.locals k = σ.locals k := by
          intro k hk
          refine hlocals k fun hdef => ?_
          rw [Instr.defines?_mapLocals] at hdef
          obtain ⟨j, hj, rfl⟩ := Option.map_eq_some_iff.1 hdef
          have hbounds := local_ne_outer (hdeclared i mem_cons_self j hj)
          omega
        have hway' : p.Underway c τ.locals := by
          refine ⟨⟨?_, ?_, ?_⟩, ?_⟩
          · exact (hkept 0 (.inl (by omega))).trans hway.state
          · exact (hkept 1 (.inl (by omega))).trans hway.resume
          · exact (hkept 2 (.inl (by omega))).trans hway.frame
          · exact (hkept _ (.inr rfl)).trans hway.outer
        refine ⟨issues_of_ne fun d k l heq => ?_, fun hraises => ?_, τ, hτ, ?_⟩
        · have heq : i.mapLocals p.slots.local = .resume d k l := heq
          rw [heq] at hplain'
          cases hplain'
        · rw [Instr.raises_mapLocals] at hraises
          have hthrow := Instr.mayThrow_of_raises hraises
          refine hcatches i mem_cons_self hthrow σ l hσ hway fun k hk => ?_
          have hedge : (⟨k, l.caught, ⟨origin, offset⟩⟩ : Edge) ∈
              (if i.mayThrow then caughtEdges hs l ⟨origin, offset⟩ else []) := by
            rw [if_pos hthrow]
            exact mem_map.2 ⟨k, hk, rfl⟩
          exact hes _ (mem_append_left _ hedge)
        · exact ih hrest (fun e he => hes e (mem_append_right _ he))
            (fun i hi => hplain i (mem_cons_of_mem _ hi))
            (fun i hi => hdeclared i (mem_cons_of_mem _ hi))
            (fun i hi => hcatches i (mem_cons_of_mem _ hi)) hhas hway'

/-! ### The blocks of a dispatcher -/

/-- The handlers of a block that is covered like a block of the method, and `fail`, can be
entered. -/
theorem catches_of_handler {origin : Nat} {hs : List Nat}
    (hhandler : ∀ e, prog.handler? p.dispatcher b e =
      some (((prog.handler? p.method origin e).map p.nodeBlock).getD (p.block .fail)))
    (hhs : ∀ e k, prog.handler? p.method origin e = some k → k ∈ hs)
    (hroles : ∀ k ∈ hs, .node k ∈ p.roles)
    (hlevels : ∀ k ∈ hs, levels[k]? = some (some ⟨1, σ.monitors⟩))
    (hway : p.Underway c σ.locals) : (p.typing levels c).Catches prog p.dispatcher b σ := by
  intro e target htarget
  rw [hhandler e] at htarget
  cases hk : prog.handler? p.method origin e with
  | none =>
    rw [hk] at htarget
    cases htarget
    exact entered_block (mem_roles_fixed (by simp)) ⟨rfl, hway⟩
  | some k =>
    rw [hk] at htarget
    cases htarget
    have hmem := hhs e k hk
    exact entered_block (hroles k hmem) ⟨_, hlevels k hmem, ⟨rfl, rfl⟩, hway⟩

/-- No exception is caught in the blocks that are not guarded. -/
theorem catches_unguarded {ρ : Role} (hρ : ρ ∈ [Role.head, .fail, .rethrow, .reject]) :
    (p.typing levels c).Catches prog p.dispatcher (p.block ρ) σ := by
  intro e target htarget
  have hrole : ρ ∈ p.roles := by
    refine mem_roles_fixed ?_
    simp only [mem_cons, not_mem_nil, or_false] at hρ ⊢
    rcases hρ with rfl | rfl | rfl | rfl <;> simp
  have hfree : ∀ R, ∀ s ∈ p.segments, ρ ∉ p.regionRoles R s := by
    refine fun R s _ => not_mem_regionRoles fun k => ?_
    simp only [mem_cons, not_mem_nil, or_false] at hρ
    rcases hρ with rfl | rfl | rfl | rfl <;> simp
  have hguarded : isGuarded ρ = false := by
    simp only [mem_cons, not_mem_nil, or_false] at hρ
    rcases hρ with rfl | rfl | rfl | rfl <;> rfl
  rw [handler?_uncovered hrole hfree, hguarded] at htarget
  cases htarget

theorem passes_yield (hi : i = .futureFulfill ∨ i = .futureReject) {k k' : Kind} {ks : List Kind}
    (hstack : σ.stack = k :: k' :: ks) :
    (p.typing levels c).Passes prog p.dispatcher b .ret σ [i, .load p.slots.outer] := by
  have hshape : i.shape? σ = some { σ with stack := ks } := by
    rcases hi with rfl | rfl <;>
      simp [Instr.shape?, Shape.apply, hstack, Instr.pops, Instr.pushes]
  refine passes_cons ?_ ?_ hshape (passes_cons (by simp) rfl rfl fun _ => by simp [Shape.push])
  · rcases hi with rfl | rfl <;> simp
  · rcases hi with rfl | rfl <;> rfl

theorem passes_fulfill (hstack : p.method.ret.slots ≤ σ.stack.length) :
    (p.typing levels c).Passes prog p.dispatcher b .ret σ p.fulfill := by
  unfold fulfill
  cases hret : p.slots.ret with
  | some k =>
    have hvoid : p.method.ret.slots = 1 := by
      simp only [slots, Slots.ofMethod] at hret
      split at hret
      · rename_i h
        cases hty : p.method.ret <;> simp_all [Ty.slots, Ty.isVoid]
      · cases hret
    rw [hvoid] at hstack
    obtain ⟨k₀, ks, hks⟩ := exists_cons_of_length_pos hstack
    have hstore : (Instr.store k).shape? σ =
        some ⟨ks, σ.monitors, Function.update σ.locals k k₀.alone⟩ := by
      rw [Instr.shape?, hks]
    refine passes_cons (by simp) rfl hstore ?_
    refine passes_cons (by simp) rfl rfl (passes_cons (by simp) rfl rfl ?_)
    exact passes_yield (.inl rfl) rfl
  | none =>
    refine passes_cons (by simp) rfl rfl (passes_cons (by simp) rfl rfl ?_)
    exact passes_yield (.inl rfl) rfl

theorem passes_dropVoid {ty : Ty} {target : Nat} {k : Kind} (hstack : σ.stack = [k])
    (hentered : ∀ τ : Shape, τ.Has ⟨ty.slots, σ.monitors⟩ → τ.locals = σ.locals →
      (p.typing levels c).entered target τ) :
    (p.typing levels c).Passes prog p.dispatcher b (.goto target) σ (dropVoid ty) := by
  unfold dropVoid
  split
  · rename_i hvoid
    have hslots : ty.slots = 0 := by cases ty <;> first | rfl | cases hvoid
    have hpop : Instr.pop.shape? σ = some { σ with stack := [] } := by
      simp [Instr.shape?, Shape.apply, hstack, Instr.pops, Instr.pushes]
    exact passes_cons (by simp) rfl hpop (hentered _ ⟨hslots.symm, rfl⟩ rfl)
  · rename_i hvoid
    have hslots : ty.slots = 1 := by cases ty <;> first | rfl | exact absurd rfl hvoid
    exact hentered σ ⟨by rw [hstack, hslots]; rfl, rfl⟩ rfl

section Blocks

variable (h : p.Made isMarker r) (hlevelled : p.Levelled r levels)
include h hlevelled

variable {l : Level} {q : Suspension}

theorem node_of_level {n : Nat} (hn : levels[n]? = some (some l)) :
    n ∈ r ∧ ∃ node, p.graph.node? n = some node ∧
      ∃ es, node.edges p.method.ret (p.graph.handlers n) l = .ok es ∧
        ∀ e ∈ es, levels[e.target]? = some (some e.level) := by
  have hmem : n ∈ r := hlevelled.reached ▸ Graph.mem_reached.2 ⟨l, hn⟩
  have hlt : n < p.graph.nodes.length :=
    Nat.lt_of_lt_of_eq (List.getElem?_eq_some_iff.1 hn).1 hlevelled.length
  obtain ⟨es, hes, hagree⟩ := hlevelled.steady n l hn
  have hnode : p.graph.node? n = some p.graph.nodes[n] := List.getElem?_eq_getElem hlt
  refine ⟨hmem, _, hnode, es, ?_, fun e he => hagree e he ?_⟩
  · simpa only [Graph.edgesOf, hnode] using hes
  · have hnext := (Graph.goes_target hes he).mem_next
    rw [hlevelled.length, h.graph]
    rw [h.graph] at hnext
    exact Graph.lt_size_of_mem_next h.sound hnext

theorem node_mem_roles {k : Nat} (hk : levels[k]? = some (some l)) : .node k ∈ p.roles :=
  h.mem_roles_node (hlevelled.reached ▸ Graph.mem_reached.2 ⟨l, hk⟩)

/-- At a marker the stack holds the future only and no monitor is held; the handlers are entered
like that, and the resumption with the awaited value. -/
theorem levels_of_point (hq : q ∈ p.points) :
    ∃ n, p.graph.node? q.node = some n ∧
      (∀ k ∈ p.graph.handlers q.node, levels[k]? = some (some ⟨1, 0⟩)) ∧
      levels[q.resume]? = some (some ⟨q.ty.slots, 0⟩) := by
  obtain ⟨n, marker, hn, hexit, -, hty⟩ := (h.isAt hq).node
  obtain ⟨l, hl⟩ := Graph.mem_reached.1 (hlevelled.reached ▸ (h.isAt hq).reached)
  obtain ⟨-, n', hn', es, hes, hagree⟩ := node_of_level h hlevelled hl
  rw [hn] at hn'
  cases hn'
  obtain ⟨before, last, after, -, hafter, rfl⟩ := Node.edges_eq_ok_levels hes
  simp only [hexit] at hafter
  obtain ⟨rfl, rfl⟩ := suspendEdges_eq_ok hafter
  refine ⟨n, hn, fun k hk => ?_, ?_⟩
  · exact hagree ⟨k, ⟨1, 0⟩, n.exitLocation⟩
      (mem_append_right _ (mem_append_left _ (mem_map.2 ⟨k, hk, rfl⟩)))
  · rw [hty]
    exact hagree ⟨q.resume, ⟨marker.ret.slots, 0⟩, n.exitLocation⟩
      (mem_append_right _ (mem_append_right _ mem_cons_self))

/-- **The code of a node** passes. -/
theorem passes_node (hplain : ∀ b ∈ p.method.blocks, ∀ i ∈ b.instrs, i.isProtocol = false) {n : Nat}
    (hn : levels[n]? = some (some l)) (hσ : σ.Has l) (hway : p.Underway c σ.locals) :
    (p.typing levels c).Passes prog p.dispatcher (p.nodeBlock n) (p.code (.node n)).2 σ
      (p.code (.node n)).1 := by
  obtain ⟨hmem, node, hnode, es, hes, hagree⟩ := node_of_level h hlevelled hn
  obtain ⟨before, last, after, hthrough, hafter, rfl⟩ := Node.edges_eq_ok_levels hes
  obtain ⟨hnmem, hid⟩ := h.mem_nodes hnode
  have hnmem' := hnmem
  rw [h.graph] at hnmem'
  obtain ⟨block, hblock, hpiece⟩ := Graph.pieceOf h.sound hnmem'
  have hinstr : ∀ i ∈ node.instrs, i ∈ block.instrs := by
    intro i hi
    obtain ⟨j, hj⟩ := mem_iff_getElem?.1 hi
    exact mem_of_getElem? (hpiece.getElem? hj)
  have hblock' : block ∈ p.method.blocks := mem_of_getElem? hblock
  -- Exceptions of the node go to its handlers.
  have hcatches : node.canThrow = true → ∀ (τ : Shape) (j : Level), τ.Has j →
      p.Underway c τ.locals → (∀ k ∈ p.graph.handlers n, levels[k]? = some (some j.caught)) →
      (p.typing levels c).Catches prog p.dispatcher (p.nodeBlock n) τ := by
    intro hthrow τ j hτ hway' hlevels
    refine catches_of_handler (h.handler?_node hmem hnode hthrow prog)
      (fun e k => h.mem_handlers hnode) (fun k hk => node_mem_roles h hlevelled (hlevels k hk))
      (fun k hk => ?_) hway'
    rw [hτ.2]
    exact hlevels k hk
  have hbody : ∀ {t : Terminator} {tail : List Instr}, (∀ τ : Shape, τ.Has last →
      p.Underway c τ.locals →
        (p.typing levels c).Passes prog p.dispatcher (p.nodeBlock n) t τ tail) →
      (p.typing levels c).Passes prog p.dispatcher (p.nodeBlock n) t σ
        (node.instrs.map (·.mapLocals p.slots.local) ++ tail) := by
    intro t tail htail
    refine passes_body hthrough (fun e he => hagree e (mem_append_left _ he))
      (fun i hi => hplain block hblock' i (hinstr i hi))
      (fun i hi k hk => (h.sound.blocks block hblock').declared i (hinstr i hi) k (.inr hk))
      (fun i hi hthrow => hcatches ?_) hσ hway htail
    rw [Node.canThrow, Bool.or_assoc, Bool.or_eq_true]
    exact .inl (any_eq_true.2 ⟨i, hi, hthrow⟩)
  have hnodes : ∀ {k : Nat} {τ : Shape} {j : Level}, levels[k]? = some (some j) → τ.Has j →
      p.Underway c τ.locals → (p.typing levels c).entered (p.nodeBlock k) τ :=
    fun hk hτ hway' => entered_block (node_mem_roles h hlevelled hk) ⟨_, hk, hτ, hway'⟩
  have hhead : p.nodeBlock n ≠ p.dispatcher.entry := by
    intro heq
    cases block_inj (h.mem_roles_node hmem) (mem_roles_fixed (by simp)) (heq.trans block_head.symm)
  simp only [code, hnode, nodeCode]
  cases hexit : node.exit with
  | suspend marker resume =>
    simp only [hexit] at hafter
    obtain ⟨rfl, -⟩ := suspendEdges_eq_ok hafter
    obtain ⟨q, hq, rfl⟩ := h.exists_point hmem hnode (by simp [Node.isSuspend, hexit])
    simp only [hid, h.pointAt?_node hq]
    refine hbody fun τ hτ hway' => ?_
    obtain ⟨k, hk⟩ := length_eq_one_iff.1 hτ.1
    have hdup : Instr.dup.shape? τ = some { τ with stack := [.copy, k] } := by
      rw [Instr.shape?, hk]
    refine passes_cons (by simp) rfl hdup (passes_cons (by simp) rfl rfl ⟨?_, ?_⟩)
    · exact entered_block (h.mem_roles_fast hq) ⟨⟨q, hq, rfl⟩, rfl, hτ.2, hway'⟩
    · exact entered_block (h.mem_roles_park hq) ⟨⟨q, hq, rfl⟩, by simp, hway'⟩
  | leave t =>
    simp only [hexit] at hafter
    obtain ⟨hpops, -, hcleanup, rfl⟩ := Terminator.edges_eq_ok hafter
    have hend : ∀ {t : Terminator}, (∀ τ : Shape, τ.Has last → p.Underway c τ.locals →
          (p.typing levels c).Leaves prog p.dispatcher (p.nodeBlock n) τ t) →
        (p.typing levels c).Passes prog p.dispatcher (p.nodeBlock n) t σ
          (node.instrs.map (·.mapLocals p.slots.local)) := by
      intro t hleaves
      rw [← append_nil (node.instrs.map _)]
      exact hbody hleaves
    -- The successors are entered with what the terminator leaves on the stack.
    have hjump : t.successors ≠ [] →
        (p.typing levels c).Passes prog p.dispatcher (p.nodeBlock n) (t.mapTargets p.nodeBlock) σ
          (node.instrs.map (·.mapLocals p.slots.local)) := by
      intro hne
      refine hend fun τ hτ hway' => Typing.leaves_mapTargets hne hhead (hτ.1.symm ▸ hpops) ?_
      intro k hk ks hks
      refine hnodes (hagree _ (mem_append_right _ (mem_append_right _ (mem_map_of_mem hk))))
        ⟨?_, hτ.2⟩ hway'
      rw [hτ.1] at hks
      exact Nat.eq_sub_of_add_eq hks
    cases t with
    | ret =>
      refine hbody fun τ hτ _ => passes_fulfill ?_
      rw [hτ.1]
      exact hpops
    | goto _ | branch _ _ | switch _ _ => exact hjump (by simp [Terminator.successors])
    | raise =>
      refine hend fun τ hτ hway' => ⟨?_, ?_⟩
      · intro hnil
        rw [← hτ.1, hnil] at hpops
        cases hpops
      · refine hcatches (by simp [Node.canThrow, hexit]) τ last hτ hway' fun k hk => ?_
        exact hagree ⟨k, last.caught, node.exitLocation⟩
          (mem_append_right _ (mem_append_left _ (mem_map.2 ⟨k, hk, rfl⟩)))
    | endCleanup => exact absurd rfl hcleanup
    | unreachable =>
      refine hend fun τ hτ hway' => ?_
      exact ⟨n, node, block, h.mem_roles_node hmem, rfl, hnode, hblock,
        (hpiece.of_leave hexit).1, hexit⟩

omit hlevelled in
/-- **The head** reads the outer future and switches to the block of the state. -/
theorem passes_head (hstates : p.points.length < 2 ^ 64) (hc : ∀ q, c = some q → q ∈ p.points)
    (hσ : p.Enters levels c .head σ) :
    (p.typing levels c).Passes prog p.dispatcher b (p.code .head).2 σ (p.code .head).1 := by
  obtain ⟨hstack, hmonitors, hgiven⟩ := hσ
  have houter : (Instr.frameOuter p.slots.frame).shape? σ = some (σ.push .future) := by
    simp only [Instr.shape?, hgiven.frame]
  have hne : (3 : Nat) ≤ p.slots.outer := Nat.le_add_right 3 _
  have hway : p.Underway c (Function.update σ.locals p.slots.outer .future) :=
    ⟨hgiven.update hne _, Function.update_self ..⟩
  refine passes_cons (by simp) rfl houter (passes_cons (by simp) rfl rfl
    (passes_cons (by simp) rfl rfl ?_))
  -- The value that the head switches over is known.
  show Typing.Leaves _ _ _ _ _ (.switch p.cases (p.block .badState))
  have hstate : Function.update σ.locals p.slots.outer .future p.slots.state =
      .int (stateOf c) := hway.state
  simp only [Typing.Leaves, Shape.push, Kind.alone, hstate, hstack]
  cases c with
  | none =>
    have hlookup : p.cases.lookup (stateOf none) = some (p.block .start) := rfl
    rw [hlookup]
    exact entered_block (mem_roles_fixed (by simp)) ⟨rfl, ⟨rfl, hmonitors⟩, hway⟩
  | some q =>
    have hq := hc q rfl
    have hlookup : p.cases.lookup (stateOf (some q)) = some (p.block (.resume q.index)) :=
      h.lookup_cases hstates hq
    rw [hlookup]
    exact entered_block (h.mem_roles_resume hq) ⟨⟨q, hq, rfl, rfl⟩, ⟨rfl, hmonitors⟩, hway⟩

/-- **A resumption** restores the locals of its point and takes the outcome. -/
theorem passes_resume (hq : q ∈ p.points) (hc : c = some q) (hσ : σ.Has ⟨0, 0⟩)
    (hway : p.Underway c σ.locals) :
    (p.typing levels c).Passes prog p.dispatcher (p.block (.resume q.index))
      (p.code (.resume q.index)).2 σ (p.code (.resume q.index)).1 := by
  obtain ⟨n, hn, hhandlers, hresume⟩ := levels_of_point h hlevelled hq
  simp only [code, h.point?_index hq, append_assoc]
  have hslots : p.slotsOf c = q.live.length := by rw [hc]; rfl
  refine passes_restore (fun l hl => (mem_live h hq hn hl).1)
    (by simp [hslots]) hway fun locals hlocals => ?_
  have hstack := length_eq_zero_iff.1 hσ.1
  have hload : (Instr.load p.slots.resume).shape? { σ with locals := locals } =
      some ⟨[.result], 0, locals⟩ := by
    simp only [Instr.shape?, Shape.push, hlocals.resume, hstack, hσ.2]
  refine passes_cons (by simp) rfl hload ⟨issues_of_ne (by simp), fun _ => ?_, _, rfl, ?_⟩
  · refine catches_of_handler (h.handler?_resume hq hn prog) (fun e k => h.mem_handlers hn)
      (fun k hk => node_mem_roles h hlevelled (hhandlers k hk)) hhandlers hlocals
  · refine passes_dropVoid rfl fun τ hτ hτlocals => ?_
    exact entered_block (node_mem_roles h hlevelled hresume) ⟨_, hresume, hτ, hτlocals ▸ hlocals⟩

/-- **A settled future** is joined, and the method goes on. -/
theorem passes_fast (hq : q ∈ p.points) (hstack : σ.stack = [.settled]) (hmonitors : σ.monitors = 0)
    (hway : p.Underway c σ.locals) :
    (p.typing levels c).Passes prog p.dispatcher (p.block (.fast q.index))
      (p.code (.fast q.index)).2 σ (p.code (.fast q.index)).1 := by
  obtain ⟨n, hn, hhandlers, hresume⟩ := levels_of_point h hlevelled hq
  simp only [code, h.point?_index hq]
  have hjoin : Instr.futureJoin.shape? σ = some { σ with stack := [.any] } := by
    rw [Instr.shape?, hstack]
  refine ⟨issues_of_ne (by simp), fun _ => ?_, _, hjoin, ?_⟩
  · refine catches_of_handler (h.handler?_fast hq hn prog) (fun e k => h.mem_handlers hn)
      (fun k hk => node_mem_roles h hlevelled (hhandlers k hk)) (fun k hk => ?_) hway
    rw [hmonitors]
    exact hhandlers k hk
  · refine passes_dropVoid rfl fun τ hτ hlocals => ?_
    refine entered_block (node_mem_roles h hlevelled hresume) ⟨_, hresume, ?_, hlocals ▸ hway⟩
    rw [← hmonitors]
    exact hτ

omit hlevelled in
/-- **A pending future**: the locals are saved in a frame with as many slots, and the continuation
names the point. -/
theorem passes_park (hq : q ∈ p.points) (hne : σ.stack ≠ []) :
    (p.typing levels c).Passes prog p.dispatcher b (p.code (.park q.index)).2 σ
      (p.code (.park q.index)).1 := by
  simp only [code, h.point?_index hq, parkCode, append_assoc]
  obtain ⟨k, ks, hks⟩ := exists_cons_of_ne_nil hne
  have hpending : (Instr.store p.slots.pending).shape? σ =
      some ⟨ks, σ.monitors, Function.update σ.locals p.slots.pending k.alone⟩ := by
    rw [Instr.shape?, hks]
  refine passes_cons (by simp) rfl hpending (passes_cons (by simp) rfl rfl ?_)
  have hframe : ∀ τ : Shape, ∀ k', (Instr.frameNew q.live.length).shape? (τ.push k') =
      some (τ.push (.frame q.live.length)) := fun τ k' => by
        simp [Instr.shape?, Shape.apply, Shape.push]
  refine passes_cons (by simp) rfl (hframe _ _) (passes_cons (by simp) rfl rfl ?_)
  -- From here on the next frame is known.
  show Typing.Passes _ _ _ _ _ _ (p.save (q.live.map (·.1)) ++ _)
  rw [save]
  refine (quiet_typing p levels c).save (n := q.live.length) (fun _ l => p.slots.local l)
    (q.live.map (·.1)) ?_ (by simp) ?_
  · exact Function.update_self ..
  refine passes_cons (by simp) rfl rfl ⟨?_, fun h => (by cases h), ?_⟩
  · intro d k' l heq
    cases heq
    exact ⟨rfl, q, hq, rfl, Function.update_self ..⟩
  · have hresume : (Instr.resume p.name q.index p.slots.next).shape?
        (Shape.push ⟨ks, σ.monitors, Function.update
          (Function.update σ.locals p.slots.pending k.alone) p.slots.next (.frame q.live.length)⟩
          (Function.update (Function.update σ.locals p.slots.pending k.alone) p.slots.next
            (.frame q.live.length) p.slots.pending)) =
        some ⟨ks, σ.monitors, Function.update
          (Function.update σ.locals p.slots.pending k.alone) p.slots.next
          (.frame q.live.length)⟩ := by
      simp only [Instr.shape?, Shape.push, Function.update_self]
      exact if_pos (by simp)
    exact ⟨_, hresume, passes_cons (by simp) rfl rfl fun _ => by simp [Shape.push]⟩

/-- **The typing of a dispatcher is right.** -/
theorem checks_typing (hplain : ∀ b ∈ p.method.blocks, ∀ i ∈ b.instrs, i.isProtocol = false)
    (hparams : p.method.DeclaresParams) (hstates : p.points.length < 2 ^ 64)
    (hc : ∀ q, c = some q → q ∈ p.points) (prog : Program) :
    (p.typing levels c).Checks prog p.dispatcher := by
  rintro b σ ⟨ρ, hρ, rfl, henters⟩
  refine ⟨_, block?_dispatcher hρ, ?_⟩
  cases ρ with
  | head => exact passes_head h hstates hc henters
  | start =>
    obtain ⟨rfl, hσ, hway⟩ := henters
    show Typing.Passes _ _ _ _ _ σ (p.restore (p.method.params.map (·.id)))
    rw [← append_nil (p.restore _)]
    refine passes_restore (fun _ => hparams.mem_localIds)
      (by simp [slotsOf]) hway fun locals hlocals => ?_
    exact entered_block (node_mem_roles h hlevelled hlevelled.entry)
      ⟨_, hlevelled.entry, hσ, hlocals⟩
  | resume k =>
    obtain ⟨⟨q, hq, rfl, hc'⟩, hσ, hway⟩ := henters
    exact passes_resume h hlevelled hq hc' hσ hway
  | node n =>
    obtain ⟨l, hl, hσ, hway⟩ := henters
    exact passes_node h hlevelled hplain hl hσ hway
  | fast k =>
    obtain ⟨⟨q, hq, rfl⟩, hstack, hmonitors, hway⟩ := henters
    exact passes_fast h hlevelled hq hstack hmonitors hway
  | park k =>
    obtain ⟨⟨q, hq, rfl⟩, hne, hway⟩ := henters
    exact passes_park h hq hne
  | fail =>
    obtain ⟨hstack, hway⟩ := henters
    have hstore : (Instr.store p.slots.exc).shape? σ =
        some ⟨[], σ.monitors, Function.update σ.locals p.slots.exc .any⟩ := by
      rw [Instr.shape?, hstack]
      rfl
    have hway' := hway.update own_ne_outer.2.2.1.1 own_ne_outer.2.2.1.2 .any
    refine passes_cons (by simp) rfl hstore (passes_cons (by simp) rfl rfl
      (passes_cons (by simp) rfl rfl ⟨issues_of_ne (by simp), fun _ => ?_, _, rfl, ?_⟩))
    · exact catches_unguarded (by simp)
    · exact ⟨entered_block (mem_roles_fixed (by simp)) hway',
        entered_block (mem_roles_fixed (by simp)) hway'⟩
  | rethrow =>
    refine passes_cons (by simp) rfl rfl ⟨by simp [Shape.push], catches_unguarded (by simp)⟩
  | reject =>
    refine passes_cons (by simp) rfl rfl (passes_cons (by simp) rfl rfl ?_)
    exact passes_yield (.inr rfl) rfl
  | badState => exact henters.elim

end Blocks

/-- What a dispatcher is called with at the start, or at a point. -/
def Proper (p : Plan) (c : Option Suspension) (s : Store) (args : List Value) : Prop :=
  ∃ x y z, args = [x, y, z] ∧ (Kind.int (stateOf c)).Holds s none x ∧
    Kind.result.Holds s none y ∧ (Kind.frame (p.slotsOf c)).Holds s none z

theorem Proper.mono {s u : Store} {args : List Value} (h : p.Proper c s args) (hu : s.Extends u) :
    p.Proper c u args := by
  obtain ⟨x, y, z, rfl, hx, hy, hz⟩ := h
  exact ⟨x, y, z, rfl, hx.mono hu, hy.mono hu, hz.mono hu⟩

/-- A dispatcher that is properly called starts as its typing says. -/
theorem at_start (hchecks : (p.typing levels c).Checks prog p.dispatcher) {s : Store}
    {args : List Value} (hargs : p.Proper c s args) (depth : Nat) :
    (p.typing levels c).At prog p.dispatcher s (.start p.dispatcher args depth) := by
  obtain ⟨x, y, z, rfl, hx, hy, hz⟩ := hargs
  have hentered : (p.typing levels c).entered (p.block .head) ⟨[], 0, fun l =>
      if l = 0 then .int (stateOf c) else if l = 1 then .result
      else if l = 2 then .frame (p.slotsOf c) else .any⟩ :=
    entered_block (mem_roles_fixed (by simp)) ⟨rfl, rfl, rfl, rfl, rfl⟩
  refine Typing.at_of_entered hchecks hentered rfl ?_ rfl ⟨⟨rfl, fun l => ?_⟩, trivial⟩
  · exact block_head.symm
  · rw [locals_start]
    simp only [Locals.get_set]
    by_cases h₀ : l = 0
    · subst h₀
      exact hx
    · by_cases h₁ : l = 1
      · subst h₁
        exact hy
      · by_cases h₂ : l = 2
        · subst h₂
          exact hz
        · simp only [h₀, h₁, h₂, if_false]
          trivial

end Dispatcher.Plan

/-! ### The typing of an entry -/

namespace Dispatcher

/-- **The typing of an entry** with the given number of parameters: it calls the dispatcher only, in
state 0 and with a frame for the arguments. -/
def entryTyping (n : Nat) (d : String) : Typing where
  entered b σ := b = 0 ∧ σ.stack = []
  dead _ := False
  issues σ i := (∀ k, i = .invoke k → k = callee d ∧ σ.stack = [.frame n, .result, .int 0]) ∧
    ∀ argc ret, i ≠ .callClosure argc ret

theorem quiet_entryTyping (n : Nat) (d : String) : (entryTyping n d).Quiet := by
  intro σ i hraises _
  refine ⟨?_, ?_⟩
  · rintro k rfl
    cases hraises
  · rintro argc ret rfl
    cases hraises

/-- **The typing of an entry is right.** -/
theorem checks_entryTyping (m : Method) (d : String) (prog : Program) :
    (entryTyping m.params.length d).Checks prog (entry m d) := by
  rintro b σ ⟨rfl, hstack⟩
  refine ⟨_, rfl, ?_⟩
  have hquiet := quiet_entryTyping m.params.length d
  show Typing.Passes _ _ _ _ .ret σ (entryCode m d m.params.length)
  rw [entryCode, append_assoc]
  have hframe : (Instr.frameNew m.params.length).shape? (σ.push .future) =
      some (σ.push (.frame m.params.length)) := by
    simp [Instr.shape?, Shape.apply, Shape.push]
  refine hquiet.cons (by simp) rfl rfl (hquiet.cons (by simp) rfl hframe
    (hquiet.cons (by simp) rfl rfl ?_))
  simp only [Shape.push, hstack, Kind.alone]
  refine hquiet.save (fun i _ => i) m.params (by exact Function.update_self ..)
    (Nat.le_refl _) ?_
  refine hquiet.cons (by simp) rfl rfl (hquiet.cons (by simp) rfl rfl
    (hquiet.cons (by simp) rfl rfl ⟨⟨?_, by simp⟩, fun _ e h hh => ?_, ?_⟩))
  · intro k hk
    cases hk
    exact ⟨rfl, by simp [Shape.push, Kind.ofConst]⟩
  · cases hh
  · exact ⟨_, rfl, fun _ => cons_ne_nil _ _⟩

theorem at_start_entry (m : Method) (d : String) (prog : Program) (s : Store) (args : List Value)
    (depth : Nat) :
    (entryTyping m.params.length d).At prog (entry m d) s (.start (entry m d) args depth) :=
  Typing.at_of_entered (checks_entryTyping m d prog) (σ := ⟨[], 0, fun _ => .any⟩)
    ⟨rfl, rfl⟩ rfl rfl
    rfl ⟨⟨rfl, fun _ => trivial⟩, trivial⟩

/-- **What the entry calls the dispatcher with** is proper. -/
theorem proper_of_call {p : Plan} {m : Method} (hparams : p.method.params.length = m.params.length)
    {prog : Program} {s t : Store} {a b : Activation} {name : String} {xs : List Value}
    {keep : Bool} (hat : (entryTyping m.params.length p.name).At prog (entry m p.name) s a)
    (hcall : a.Does s (t, .call b name xs keep)) : p.Proper none t xs := by
  obtain ⟨σ, i, hfits, ⟨hinvoke, hclosure⟩, hexec⟩ := hat.exists_issues hcall
  cases i with
  | invoke k =>
    obtain ⟨rfl, hstack⟩ := hinvoke k rfl
    have hvalues := hfits.stack
    rw [hstack] at hvalues
    obtain ⟨z, rest, hz, hframe, hrest⟩ := hvalues.exists_cons
    obtain ⟨y, rest, rfl, hresult, hrest⟩ := hrest.exists_cons
    obtain ⟨x, rest, rfl, hint, -⟩ := hrest.exists_cons
    have htake : a.take? (callee p.name).argc = some ([x, y, z], rest) := by
      rw [Activation.take?, hz]
      exact if_pos (by simp [callee])
    rw [Activation.exec, htake] at hexec
    cases hexec
    exact ⟨x, y, z, rfl, hint, hresult, by rw [Plan.slotsOf, hparams]; exact hframe⟩
  | callClosure argc ret => exact absurd rfl (hclosure argc ret)
  | _ =>
    simp only [Activation.exec, Activation.computed, Activation.unwrapped, Activation.withFuture,
      Activation.withFrame] at hexec
    repeat' split at hexec
    all_goals cases hexec

/-- **What a continuation calls the dispatcher with** is proper. -/
theorem proper_of_subscribe {p : Plan} {levels : List (Option Level)} {c : Option Suspension}
    {prog : Program} {s t : Store} {a b : Activation} {q state f : Nat} {d : String}
    {ambient : Ambient} (hat : (p.typing levels c).At prog p.dispatcher s a)
    (hregister : a.Does s (t, .subscribe b q (.resume d state f ambient))) (o : Outcome Value) :
    ∃ point ∈ p.points,
      p.Proper (some point) t [.int (Int64.ofNat state), .outcome o, .frame f] := by
  obtain ⟨σ, i, hfits, hissues, hexec⟩ := hat.exists_issues hregister
  cases i with
  | resume d' state' l =>
    obtain ⟨-, point, hpoint, rfl, hl⟩ := hissues d' state' l rfl
    have hlocal := hfits.locals l
    rw [hl] at hlocal
    obtain ⟨f', frame, hf, hframe, hslots⟩ := hlocal
    simp only [Activation.exec, Activation.withFuture, Activation.withFrame, hf] at hexec
    split at hexec
    · cases hexec
      exact ⟨point, hpoint, _, _, _, rfl, rfl, .inr ⟨o, rfl⟩, f, frame, rfl, hframe, hslots⟩
    · cases hexec
    · cases hexec
  | _ =>
    simp only [Activation.exec, Activation.computed, Activation.unwrapped, Activation.withFuture,
      Activation.withFrame] at hexec
    repeat' split at hexec
    all_goals cases hexec

end Dispatcher

/-! ### Calls that the generated code makes -/

/-- **An activation breaks the protocol**: it is the one that the machine runs, with nothing
beneath, and its next instruction or its terminator raises an excluded fault.  What is beneath does
not matter for what an activation does. -/
def Machine.Breaks (prog : Program) (m : Method) (dead : Nat → Prop) (k : Machine) : Prop :=
  ∃ a t f, k.control = .exec a ∧ k.tasks = [] ∧ k.Step prog ⟨t, .unwind (.fault f), []⟩ ∧
    f.Breaks m dead

/-- **The calls of the dispatcher that the generated code makes**: by an activation of the entry,
and by a continuation that an activation of the dispatcher registered which was itself called so.
The continuation runs in any later store. -/
inductive Conversion.Pair.Calls (pair : Conversion.Pair) (prog : Program) :
    Store → List Value → Prop where
  | entry {name : String} {s t : Store} {args xs : List Value} {depth : Nat} {k : Machine}
      {a b : Activation} {keep : Bool} (hname : prog.Resolves name pair.entry)
      (hk : Machine.Steps prog ⟨s, .enter name args depth, []⟩ k) (htasks : k.tasks = [])
      (hcontrol : k.control = .exec a)
      (hcall : a.Does k.store (t, .call b pair.dispatcher.name xs keep)) : Calls pair prog t xs
  | continuation {s t u : Store} {args : List Value} {depth : Nat} {k : Machine} {a b : Activation}
      {q state f : Nat} {ambient : Ambient} (hcalls : Calls pair prog s args)
      (hk : Machine.Steps prog ⟨s, .enter pair.dispatcher.name args depth, []⟩ k)
      (htasks : k.tasks = []) (hcontrol : k.control = .exec a)
      (hregister : a.Does k.store
        (t, .subscribe b q (.resume pair.dispatcher.name state f ambient)))
      (hlater : t.Extends u) (o : Outcome Value) :
      Calls pair prog u [.int (Int64.ofNat state), .outcome o, .frame f]

/-- A call leads to an activation that is alive, or fails before it starts. -/
theorem Typing.alive_of_enter {T : Typing} {prog : Program} {m : Method} (hT : T.Checks prog m)
    {name : String} (hname : prog.Resolves name m) {s : Store} {args : List Value}
    (hstart : ∀ depth, T.At prog m s (.start m args depth)) {depth : Nat} {k : Machine}
    (hk : Machine.Steps prog ⟨s, .enter name args depth, []⟩ k) (hcode : ∃ a, k.control = .exec a) :
    T.Alive prog m k := by
  rcases Relation.ReflTransGen.cases_head hk with rfl | ⟨j, hj, hjk⟩
  · obtain ⟨a, ha⟩ := hcode
    cases ha
  · have hstep := hname.step s args depth []
    rw [Machine.Step] at hstep hj
    rw [hstep] at hj
    cases hj
    refine Alive.steps hT ?_ hjk
    unfold Program.enterMethod
    split
    · exact .unwound s _
    · split
      · exact .unwound s _
      · exact .runs (hstart _)

theorem Method.exists_levelled {m n : Method} {o : Options} {a : Analysis}
    (h : m.analyze o = .ok a) (hn : m.withoutCleanup = .ok n) (name : String) :
    ∃ levels, (a.plan name).Levelled a.reached levels := by
  obtain ⟨-, hgrows, -, -⟩ := made_of_analyze h hn name
  obtain ⟨-, n', levels, hn', hlevels, -, rfl⟩ := analyze_eq_ok h
  cases hn.symm.trans hn'
  have hentry := Nat.lt_of_lt_of_le hgrows.sound.entry
    (Graph.length_blocks_le_size n o.isMarker)
  obtain ⟨hlen, hfirst, hsteady, -⟩ := Graph.steady_of_balance hlevels hentry
  exact ⟨levels, rfl, hlen, hfirst, hsteady⟩

/-- **Generated code never breaks its own protocol.**  In any program in which the name of the
dispatcher stands for it, no activation of the entry, and none of the dispatcher that was called by
the entry or by a registered continuation, raises a fault that the protocol excludes; and
`unreachable` is reached only where the method without cleanup regions ends a block with it. -/
theorem Conversion.not_breaks_of_convert {m : Method} {cls : String} {o : Options}
    {pair : Conversion.Pair} (hconvert : m.convert cls o = .ok (.converted pair))
    (hplain : m.Plain) (hparams : m.DeclaresParams)
    (hstates : pair.points.length < 2 ^ 64) {prog : Program}
    (hdispatcher : prog.Resolves pair.dispatcher.name pair.dispatcher) :
    ∃ a, m.analyze o = .ok a ∧ m.withoutCleanup = .ok a.method ∧ pair = m.pair o a ∧
      (∀ name s args depth k, prog.Resolves name pair.entry →
        Machine.Steps prog ⟨s, .enter name args depth, []⟩ k →
        ¬ k.Breaks prog pair.entry fun _ => False) ∧
      ∀ s args depth k, pair.Calls prog s args →
        Machine.Steps prog ⟨s, .enter pair.dispatcher.name args depth, []⟩ k →
        ¬ k.Breaks prog pair.dispatcher (a.plan (o.dispatcherName m.name)).Dead := by
  obtain ⟨a, n, ha, rfl, hn⟩ := m.exists_analysis hconvert
  obtain ⟨-, hgrows, hmethod, hmade⟩ := Method.made_of_analyze ha hn (o.dispatcherName m.name)
  obtain ⟨levels, hlevelled⟩ := Method.exists_levelled ha hn (o.dispatcherName m.name)
  generalize hp : a.plan (o.dispatcherName m.name) = p at hmade hlevelled
  have hpmethod : p.method = n := by rw [← hp, ← hmethod]; rfl
  have hpair : (m.pair o a).entry = entry m p.name ∧ (m.pair o a).dispatcher = p.dispatcher ∧
      (m.pair o a).points = p.points := by
    rw [← hp]
    exact ⟨rfl, rfl, rfl⟩
  obtain ⟨hentry, hdispatch, hpoints⟩ := hpair
  rw [hpoints] at hstates
  have hparams' : p.method.DeclaresParams := hpmethod ▸ hparams.of_grows hgrows
  have hplain' : ∀ b ∈ p.method.blocks, ∀ i ∈ b.instrs, i.isProtocol = false := by
    rw [hpmethod]
    exact hgrows.forall_instrs hplain fun i hi => by cases i <;> first | rfl | cases hi
  have hchecks : ∀ c : Option Suspension, (∀ q, c = some q → q ∈ p.points) →
      (p.typing levels c).Checks prog p.dispatcher :=
    fun c hc => Plan.checks_typing hmade hlevelled hplain' hparams' hstates hc prog
  have hentryChecks := checks_entryTyping m p.name prog
  -- Whatever the generated code calls the dispatcher with is proper.
  have hproper : ∀ s args, (m.pair o a).Calls prog s args →
      ∃ c, (∀ q, c = some q → q ∈ p.points) ∧ p.Proper c s args := by
    intro s args hcalls
    induction hcalls with
    | @entry name s t args xs depth k a b keep hname hk htasks hcontrol hcall =>
      rw [hentry] at hname
      have halive := Typing.alive_of_enter hentryChecks hname
        (fun depth => at_start_entry m p.name prog s args depth) hk ⟨a, hcontrol⟩
      refine ⟨none, fun q hq => (by cases hq), ?_⟩
      refine proper_of_call ?_ (halive.at_of_exec htasks hcontrol) hcall
      rw [hpmethod, hgrows.params]
    | @continuation s t u args depth k a b q state f ambient _ hk htasks hcontrol hregister hlater o
        ih =>
        obtain ⟨c, hc, hargs⟩ := ih
        rw [hdispatch] at hdispatcher hk
        have halive := Typing.alive_of_enter (hchecks c hc) hdispatcher
          (fun depth => Plan.at_start (hchecks c hc) hargs depth) hk ⟨a, hcontrol⟩
        obtain ⟨point, hpoint, hproper⟩ :=
          proper_of_subscribe (halive.at_of_exec htasks hcontrol) hregister o
        refine ⟨some point, fun q hq => ?_, hproper.mono hlater⟩
        cases hq
        exact hpoint
  refine ⟨a, ha, hmethod ▸ hn, rfl, ?_, ?_⟩
  · rintro name s args depth k hname hk ⟨b, t, f, hcontrol, htasks, hstep, hbreaks⟩
    rw [hentry] at hname hbreaks
    have halive := Typing.alive_of_enter hentryChecks hname
      (fun depth => at_start_entry m p.name prog s args depth) hk ⟨b, hcontrol⟩
    exact halive.not_breaks hentryChecks hstep htasks hbreaks
  · rintro s args depth k hcalls hk ⟨b, t, f, hcontrol, htasks, hstep, hbreaks⟩
    obtain ⟨c, hc, hargs⟩ := hproper s args hcalls
    rw [hdispatch] at hdispatcher hk hbreaks
    have halive := Typing.alive_of_enter (hchecks c hc) hdispatcher
      (fun depth => Plan.at_start (hchecks c hc) hargs depth) hk ⟨b, hcontrol⟩
    exact halive.not_breaks (hchecks c hc) hstep htasks (hp ▸ hbreaks)

/-! ### A method that waits and then adds -/

/-- The machine after some steps, or where it has finished before. -/
def Machine.after (prog : Program) : Nat → Machine → Machine
  | 0, k => k
  | steps + 1, k =>
    match k.step? prog with
    | some k' => k'.after prog steps
    | none => k

theorem Machine.steps_after (prog : Program) (steps : Nat) (k : Machine) :
    k.Steps prog (k.after prog steps) := by
  induction steps generalizing k with
  | zero => exact .refl prog k
  | succ steps ih =>
    unfold after
    split
    · rename_i k' hk
      exact (Machine.Step.steps hk).trans (ih k')
    · exact .refl prog k

/-- Whether the machine runs an activation, with nothing beneath, that calls something.  The store,
the name and the arguments are as given. -/
def Machine.callsNext (f : Store → String → List Value → Bool) (k : Machine) : Bool :=
  match k with
  | ⟨s, .exec a, []⟩ =>
    match (a.method.block? a.block).bind fun block => block.instrs[a.offset]? with
    | some i =>
      match a.exec s i with
      | (t, .call _ name xs _) => f t name xs
      | _ => false
    | none => false
  | _ => false

theorem Machine.exists_call_of_callsNext {f : Store → String → List Value → Bool} {k : Machine}
    (h : k.callsNext f = true) :
    ∃ a t b d xs keep, k.tasks = [] ∧ k.control = .exec a ∧
      a.Does k.store (t, .call b d xs keep) ∧ f t d xs = true := by
  unfold callsNext at h
  split at h
  · rename_i s a
    split at h
    · rename_i i hi
      split at h
      · rename_i t b name xs keep hexec
        obtain ⟨block, hblock, hi⟩ := Option.bind_eq_some_iff.1 hi
        obtain ⟨hlt, hget⟩ := List.getElem?_eq_some_iff.1 hi
        refine ⟨a, t, b, name, xs, keep, rfl, rfl, ⟨i, block.instrs.drop (a.offset + 1),
          block.terminator, ⟨block, hblock, ?_, rfl⟩, hexec⟩, h⟩
        rw [drop_eq_getElem_cons hlt, hget]
      · cases h
    · cases h
  · cases h

open awaitAndAdd in
/-- The dispatcher of the method is called by its entry, and breaks nothing. -/
theorem not_breaks_awaitAndAdd :
    (∃ s args, pair.Calls target s args) ∧
      ∃ a, awaitAndAdd.analyze {} = .ok a ∧ awaitAndAdd.withoutCleanup = .ok a.method ∧
        pair = Method.pair awaitAndAdd {} a ∧
        (∀ name s args depth k, target.Resolves name pair.entry →
          Machine.Steps target ⟨s, .enter name args depth, []⟩ k →
          ¬ k.Breaks target pair.entry fun _ => False) ∧
        ∀ s args depth k, pair.Calls target s args →
          Machine.Steps target ⟨s, .enter pair.dispatcher.name args depth, []⟩ k →
          ¬ k.Breaks target pair.dispatcher (a.plan "m$dispatch").Dead := by
  refine ⟨?_, Conversion.not_breaks_of_convert convert_eq (by decide) (by decide)
    (by decide +kernel) replaces.dispatcher⟩
  have hentry : target.Resolves "m" pair.entry := by constructor <;> decide +kernel
  have hnext : (Machine.after target 11 ⟨store, .enter "m" [.future 0, .int 7] 0, []⟩).callsNext
      (fun _ d _ => d == pair.dispatcher.name) = true := by
    decide +kernel
  obtain ⟨a, t, b, d, xs, keep, htasks, hcontrol, hcall, hd⟩ :=
    Machine.exists_call_of_callsNext hnext
  rw [eq_of_beq hd] at hcall
  exact ⟨t, xs, .entry hentry (Machine.steps_after target 11 _) htasks hcontrol hcall⟩

/-- Its arguments are stored over the state, the result and the frame. -/
def overFrame : Method := undeclared [0, 1, 2, 3] [.push (.int 7)] .ret

/-- Whether the machine runs an activation, with nothing beneath, that comes to the fault. -/
def Machine.failsNext (prog : Program) (f : Fault) (k : Machine) : Bool :=
  match k with
  | ⟨_, .exec _, []⟩ =>
    match k.step? prog with
    | some ⟨_, .unwind (.fault f'), []⟩ => f' == f
    | _ => false
  | _ => false

theorem Machine.breaks_of_failsNext {prog : Program} {f : Fault} {k : Machine}
    (h : k.failsNext prog f = true) {m : Method} {dead : Nat → Prop} (hf : f.Breaks m dead) :
    k.Breaks prog m dead := by
  unfold failsNext at h
  split at h
  · rename_i s a
    split at h
    · rename_i t f' hstep
      rw [eq_of_beq h] at hstep
      exact ⟨a, t, f, rfl, rfl, hstep, hf⟩
    · cases h
  · cases h

/-- **Undeclared parameters.**  The dispatcher, called by its entry, takes an argument for its
frame: "expected frame, found int". -/
theorem breaks_overFrame :
    overFrame.convert "C" {} = .ok (.converted overFrame.generated) ∧ overFrame.Plain ∧
      overFrame.generated.points.length = 1 ∧
      overFrame.generated.program.Resolves "m$dispatch" overFrame.generated.dispatcher ∧
      ∃ s args k, overFrame.generated.Calls overFrame.generated.program s args ∧
        Machine.Steps overFrame.generated.program
          ⟨s, .enter overFrame.generated.dispatcher.name args 0, []⟩ k ∧
        ∀ dead, k.Breaks overFrame.generated.program overFrame.generated.dispatcher dead := by
  have hentry : overFrame.generated.program.Resolves "m" overFrame.generated.entry := by
    constructor <;> decide +kernel
  have hnext : (Machine.after overFrame.generated.program 15
      ⟨{}, .enter "m" [.int 5, .int 6, .int 8, .int 9] 0, []⟩).callsNext (fun t d xs =>
        d == overFrame.generated.dispatcher.name &&
          (Machine.after overFrame.generated.program 11 ⟨t, .enter d xs 0, []⟩).failsNext
            overFrame.generated.program (.mismatch "m$dispatch" ⟨1, 6⟩ (.expectedFrame "int"))) =
      true := by
    decide +kernel
  obtain ⟨a, t, b, d, xs, keep, htasks, hcontrol, hcall, hcheck⟩ :=
    Machine.exists_call_of_callsNext hnext
  obtain ⟨hd, hfails⟩ := Bool.and_eq_true_iff.1 hcheck
  rw [eq_of_beq hd] at hcall hfails
  refine ⟨by decide +kernel, by decide, by decide +kernel, by constructor <;> decide +kernel,
    t, xs, _, .entry hentry (Machine.steps_after _ 15 _) htasks hcontrol hcall,
    Machine.steps_after _ 11 _, fun dead => Machine.breaks_of_failsNext hfails trivial⟩

end Resumable
