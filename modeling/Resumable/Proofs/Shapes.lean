/-
**Shapes of activations.**

A *shape* says what is known of the operand stack, the monitors and the locals of an activation:
that a value is a future, that a frame has a number of slots, that a future has settled.  Every
instruction takes shapes to shapes.  A *typing* of a method gives each block the shapes that it can
be entered with, such that its code leads from these to shapes with which the next blocks and the
handlers can be entered.

What other code does while an activation waits only extends the store, and that spoils no shape.  So
an activation that starts in a typed block has the shape of its position at each of its own
instructions, and never raises one of the faults that the shapes exclude.

Main results:

* `Shape.Fits.exec` — **one instruction keeps to the shapes**;
* `Typing.Alive.step`, `Typing.Alive.steps` — an activation keeps to its typing;
* `Typing.Alive.not_breaks` — **a typed activation raises no excluded fault**.
-/

import Mathlib.Logic.Function.Basic
import Resumable.Proofs.GeneratedCode
import Resumable.Proofs.Discipline

set_option autoImplicit false

namespace Resumable

open List

/-! ### Kinds -/

/-- What is known of a value. -/
inductive Kind where
  | any
  | int (n : Int64)
  | future
  /-- A future that has settled. -/
  | settled
  /-- A frame with the given number of slots. -/
  | frame (slots : Nat)
  /-- What a dispatcher is resumed with: an outcome, or null. -/
  | result
  /-- The same value as the one beneath. -/
  | copy
  /-- Whether the future beneath has settled. -/
  | test

namespace Kind

/-- The knowledge is right for a value, where `below` is the value beneath. -/
def Holds (s : Store) (below : Option Value) : Kind → Value → Prop
  | .any, _ => True
  | .int n, v => v = .int n
  | .future, v => ∃ q, v = .future q
  | .settled, v => ∃ q, v = .future q ∧ s.isSettled q = true
  | .frame n, v => ∃ f frame, v = .frame f ∧ s.frames[f]? = some frame ∧ frame.slots.length = n
  | .result, v => v = .null ∨ ∃ o, v = .outcome o
  | .copy, v => below = some v
  | .test, v => ∃ b q, v = .bool b ∧ below = some (.future q) ∧ (b = true → s.isSettled q = true)

/-- What is left of the knowledge without the value beneath. -/
def alone : Kind → Kind
  | .copy | .test => .any
  | k => k

/-- What is known of a constant. -/
def ofConst : Const → Kind
  | .null => .result
  | .int n => .int n
  | _ => .any

variable {s t : Store} {k : Kind} {v : Value} {below : Option Value}

/-- What is known of a value stays true while the store is extended. -/
theorem Holds.mono (h : k.Holds s below v) (hst : s.Extends t) : k.Holds t below v := by
  have hsettled : ∀ q, s.isSettled q = true → t.isSettled q = true := by
    intro q hq
    obtain ⟨o, ho⟩ := Option.isSome_iff_exists.1 hq
    exact Option.isSome_iff_exists.2 ⟨o, hst.outcomes q o ho⟩
  cases k with
  | settled =>
    obtain ⟨q, rfl, hq⟩ := h
    exact ⟨q, rfl, hsettled q hq⟩
  | frame n =>
    obtain ⟨f, frame, rfl, hf, rfl⟩ := h
    obtain ⟨slots, ht, hlen⟩ := hst.frames f frame hf
    exact ⟨f, _, rfl, ht, hlen⟩
  | test =>
    obtain ⟨b, q, rfl, hbelow, hq⟩ := h
    exact ⟨b, q, rfl, hbelow, fun hb => hsettled q (hq hb)⟩
  | any | int n | future | result | copy => exact h

/-- What is left without the value beneath holds wherever the value goes. -/
theorem Holds.alone (h : k.Holds s below v) (below' : Option Value) :
    k.alone.Holds s below' v := by
  cases k with
  | copy | test => trivial
  | any | int n | future | settled | frame n | result => exact h

/-- What is known of a value on its own holds on top of any other. -/
theorem Holds.anywhere (h : k.Holds s none v) (below : Option Value) : k.Holds s below v := by
  cases k with
  | copy => cases h
  | test =>
    obtain ⟨_, _, _, hbelow, _⟩ := h
    cases hbelow
  | any | int n | future | settled | frame n | result => exact h

theorem holds_ofConst (s : Store) (below : Option Value) (c : Const) :
    (ofConst c).Holds s below (Value.ofConst c) := by
  cases c with
  | null => exact .inl rfl
  | int n => rfl
  | bool b | float x | str x => trivial

end Kind

/-! ### Shapes -/

/-- What is known of an activation. -/
structure Shape where
  /-- The operand stack, the top first. -/
  stack : List Kind
  monitors : Nat
  locals : Nat → Kind

namespace Shape

/-- The knowledge of a stack is right. -/
def Stacked (s : Store) : List Kind → List Value → Prop
  | [], [] => True
  | k :: ks, v :: vs => k.Holds s vs.head? v ∧ Stacked s ks vs
  | _, _ => False

/-- The shape with one more value on the stack. -/
def push (σ : Shape) (k : Kind) : Shape := { σ with stack := k :: σ.stack }

/-- The shape with values taken from the stack and others put on it, if there are enough. -/
def apply (σ : Shape) (pops : Nat) (ks : List Kind) : Option Shape :=
  if pops ≤ σ.stack.length then some { σ with stack := ks ++ σ.stack.drop pops } else none

/-- The shape in a handler. -/
def caught (σ : Shape) : Shape := { σ with stack := [.any] }

/-- The monitors and the locals of an activation are as the shape says. -/
structure Holds (σ : Shape) (s : Store) (a : Activation) : Prop where
  monitors : a.monitors = σ.monitors
  locals : ∀ l, (σ.locals l).Holds s none (a.locals.get l)

/-- **The activation has the shape.** -/
structure Fits (σ : Shape) (s : Store) (a : Activation) : Prop extends σ.Holds s a where
  stack : Stacked s σ.stack a.stack

variable {σ τ : Shape} {s t : Store} {a b : Activation} {ks : List Kind} {vs : List Value}

/-- There is one kind for each value on the stack. -/
theorem Stacked.length_eq (h : Stacked s ks vs) : ks.length = vs.length := by
  fun_induction Stacked s ks vs with
  | case1 => rfl
  | case2 k ks v vs ih => simp only [length_cons, ih h.2]
  | case3 => exact h.elim

theorem Stacked.drop (h : Stacked s ks vs) (n : Nat) : Stacked s (ks.drop n) (vs.drop n) := by
  fun_induction Stacked s ks vs generalizing n with
  | case1 => simp [Stacked]
  | case2 k ks v vs ih =>
    cases n with
    | zero => exact h
    | succ n => exact ih h.2 n
  | case3 => exact h.elim

theorem Stacked.mono (h : Stacked s ks vs) (hst : s.Extends t) : Stacked t ks vs := by
  fun_induction Stacked s ks vs with
  | case1 => trivial
  | case2 k ks v vs ih => exact ⟨h.1.mono hst, ih h.2⟩
  | case3 => exact h.elim

theorem Holds.mono (h : σ.Holds s a) (hst : s.Extends t) : σ.Holds t a :=
  ⟨h.monitors, fun l => (h.locals l).mono hst⟩

/-- An activation keeps its shape while the store is extended. -/
theorem Fits.mono (h : σ.Fits s a) (hst : s.Extends t) : σ.Fits t a :=
  ⟨h.toHolds.mono hst, h.stack.mono hst⟩

theorem Holds.of_eq (h : σ.Holds s a) (hmonitors : b.monitors = a.monitors)
    (hlocals : b.locals = a.locals) : σ.Holds s b :=
  ⟨hmonitors.trans h.monitors, fun l => hlocals ▸ h.locals l⟩

/-- A jump changes the stack and keeps what is known of the rest. -/
theorem Fits.jump (h : σ.Holds s a) (target : Nat) (hvs : Stacked s ks vs) :
    { σ with stack := ks }.Fits s (a.jump target vs) :=
  ⟨⟨h.monitors, h.locals⟩, hvs⟩

theorem Fits.advance (h : σ.Holds s a) (hvs : Stacked s ks vs) :
    { σ with stack := ks }.Fits s (a.advance vs) :=
  ⟨⟨h.monitors, h.locals⟩, hvs⟩

theorem apply_eq_some {n : Nat} (h : σ.apply n ks = some τ) :
    n ≤ σ.stack.length ∧ τ = { σ with stack := ks ++ σ.stack.drop n } := by
  unfold apply at h
  split at h
  · rename_i hle
    cases h
    exact ⟨hle, rfl⟩
  · cases h

/-- The operands that the shape has can be taken. -/
theorem Fits.take? (h : σ.Fits s a) {n : Nat} (hn : n ≤ σ.stack.length) :
    a.take? n = some ((a.stack.take n).reverse, a.stack.drop n) := by
  rw [h.stack.length_eq] at hn
  exact if_pos hn

theorem Fits.push (h : σ.Fits s a) {k : Kind} {v : Value} (hk : k.Holds s a.stack.head? v) :
    (σ.push k).Fits s (a.advance (v :: a.stack)) :=
  .advance h.toHolds ⟨hk, h.stack⟩

/-- What is stored in a local is known of the local. -/
theorem Fits.locals_set (h : σ.Holds s a) {k : Kind} {v : Value} (hk : k.Holds s none v) (l : Nat) :
    { σ with locals := Function.update σ.locals l k }.Holds s
      { a with locals := a.locals.set l v } where
  monitors := h.monitors
  locals j := by
    rw [Locals.get_set]
    by_cases hj : j = l
    · subst hj
      simpa using hk
    · simpa [Function.update_of_ne hj, hj] using h.locals j

end Shape

/-! ### Instructions -/

/-- **What an instruction makes of a shape**; `none` if the shape does not exclude the faults that
it should. -/
def Instr.shape? (i : Instr) (σ : Shape) : Option Shape :=
  match i with
  | .push c => some (σ.push (.ofConst c))
  | .load l => some (σ.push (σ.locals l))
  | .store l =>
    match σ.stack with
    | k :: ks => some { σ with stack := ks, locals := Function.update σ.locals l k.alone }
    | [] => none
  | .dup =>
    match σ.stack with
    | k :: ks => some { σ with stack := .copy :: k :: ks }
    | [] => none
  | .monitorEnter => (σ.apply 1 []).map fun τ => { τ with monitors := τ.monitors + 1 }
  | .monitorExit =>
    if σ.monitors = 0 then none
    else (σ.apply 1 []).map fun τ => { τ with monitors := τ.monitors - 1 }
  | .futureNew => some (σ.push .future)
  | .futureIsDone =>
    match σ.stack with
    | .copy :: ks => some { σ with stack := .test :: ks }
    | _ => none
  | .futureJoin =>
    match σ.stack with
    | .settled :: ks => some { σ with stack := .any :: ks }
    | _ => none
  | .outcomeUnwrap =>
    match σ.stack with
    | .result :: ks => some { σ with stack := .any :: ks }
    | _ => none
  | .frameNew n => σ.apply 1 [.frame n]
  | .frameLoad f i =>
    match σ.locals f with
    | .frame n => if i < n then some (σ.push .any) else none
    | _ => none
  | .frameStore f i =>
    match σ.locals f with
    | .frame n => if i < n then σ.apply 1 [] else none
    | _ => none
  | .frameOuter f =>
    match σ.locals f with
    | .frame _ => some (σ.push .future)
    | _ => none
  | .resume _ _ f =>
    match σ.locals f with
    | .frame _ => σ.apply 1 []
    | _ => none
  | i => σ.apply i.pops (replicate i.pushes .any)

/-- Whether the instruction throws, or calls a function that may throw. -/
def Instr.raises : Instr → Bool
  | .binary _ | .unary _ | .invoke _ | .callClosure _ _ | .futureJoin | .outcomeUnwrap => true
  | _ => false

/-- **The faults that shapes exclude**, in an activation of a method of which the blocks in `dead`
may end with `unreachable`.  A switch is to be excluded from faults only in the first block. -/
def Fault.Breaks (m : Method) (dead : Nat → Prop) : Fault → Prop
  | .stackUnderflow _ _ | .monitorUnderflow _ _ | .unknownBlock _ _ | .rawCleanup _ => True
  | .wouldBlock marker => marker = "future_join"
  | .mismatch _ _ (.slotOutOfRange _) | .mismatch _ _ (.expectedFrame _)
  | .mismatch _ _ (.unwrapOf _) => True
  | .mismatch _ location (.switchOn _) => location.block = m.entry
  | .unreachable _ location => ¬ dead location.block
  | _ => False

/-- What the instruction `i` of the activation `a` led to: the next state has the shape `τ`, or it
will have it when the activation goes on. -/
def Shape.Follows (τ : Shape) (i : Instr) (a : Activation) : Store × Action → Prop
  | (s, .next b) => τ.Fits s b
  | (_, .throw _) => i.raises = true
  | (_, .fault f) => ∀ m dead, ¬ f.Breaks m dead
  | (s, .call b _ _ keep) => i.raises = true ∧ b = { a with stack := b.stack } ∧
      ∀ v, τ.Fits s (b.advance (if keep then v :: b.stack else b.stack))
  | (s, .fulfill b _ _) | (s, .reject b _ _) | (s, .subscribe b _ _) =>
    b = { a with stack := b.stack } ∧ τ.Fits s (b.advance b.stack)

/-- Where an operator does not apply to its operand, that is no fault that shapes exclude. -/
theorem UnaryOp.not_breaks {op : UnaryOp} {v : Value} {mm : Mismatch}
    (h : op.apply v = .mismatch mm) (name : String) (location : Location) (m : Method)
    (dead : Nat → Prop) : ¬ (Fault.mismatch name location mm).Breaks m dead := by
  unfold apply at h
  split at h <;> cases h
  exact not_false

theorem BinaryOp.not_breaks {op : BinaryOp} {v w : Value} {mm : Mismatch}
    (h : op.apply v w = .mismatch mm) (name : String) (location : Location) (m : Method)
    (dead : Nat → Prop) : ¬ (Fault.mismatch name location mm).Breaks m dead := by
  have hints : ∀ x y, op.onInts x y = .mismatch mm → mm = .numericOn op "int" := by
    intro x y hxy
    unfold onInts at hxy
    repeat' split at hxy
    all_goals cases hxy <;> rfl
  have hfloats : ∀ x y, op.onFloats x y = .mismatch mm → mm = .numericOn op "float" := by
    intro x y hxy
    unfold onFloats at hxy
    repeat' split at hxy
    all_goals cases hxy <;> rfl
  have hvalues : op.onValues v w = .mismatch mm →
      mm = .numericOn op "int" ∨ mm = .numericOn op "float" ∨ ∃ x y, mm = .binaryOn op x y := by
    intro hvw
    unfold onValues at hvw
    split at hvw
    · exact .inl (hints _ _ hvw)
    · exact .inr (.inl (hfloats _ _ hvw))
    · exact .inr (.inl (hfloats _ _ hvw))
    · exact .inr (.inl (hfloats _ _ hvw))
    · cases hvw
      exact .inr (.inr ⟨_, _, rfl⟩)
  unfold apply at h
  split at h
  case h_6 => obtain rfl | rfl | ⟨x, y, rfl⟩ := hvalues h <;> exact not_false
  all_goals cases h

namespace Shape

variable {σ τ : Shape} {s t : Store} {a b : Activation} {i : Instr} {ks : List Kind}
  {rest : List Value}

/-- The result of an operator goes on the stack; a division by zero is raised. -/
theorem Follows.computed (hraises : i.raises = true) (h : σ.Holds s a) (hrest : Stacked s ks rest)
    {c : Computed} (hc : ∀ mm, c = .mismatch mm → ∀ m dead, ¬ (a.mismatch mm).Breaks m dead) :
    Follows { σ with stack := .any :: ks } i a (a.computed s rest c) := by
  cases c with
  | value v => exact Fits.advance h ⟨trivial, hrest⟩
  | mismatch m => exact hc m rfl
  | divisionByZero => exact hraises

theorem Follows.unwrapped (hraises : i.raises = true) (h : σ.Holds s a) (hrest : Stacked s ks rest)
    (o : Outcome Value) : Follows { σ with stack := .any :: ks } i a (a.unwrapped s rest o) := by
  cases o with
  | fulfilled v => exact Fits.advance h ⟨trivial, hrest⟩
  | rejected e => exact hraises

/-- A call leaves as many values as its type has, and waits for them. -/
theorem Follows.call (hraises : i.raises = true) (h : σ.Holds s a) (hrest : Stacked s ks rest)
    (name : String) (args : List Value) (ret : Ty) :
    Follows { σ with stack := replicate ret.slots .any ++ ks } i a
      (s, .call { a with stack := rest } name args (!ret.isVoid)) := by
  refine ⟨hraises, rfl, fun v => ?_⟩
  have hholds : σ.Holds s { a with stack := rest } := h.of_eq rfl rfl
  cases hvoid : ret.isVoid with
  | true =>
    have hslots : ret.slots = 0 := by cases ret <;> first | rfl | cases hvoid
    rw [hslots]
    exact Fits.advance hholds hrest
  | false =>
    have hslots : ret.slots = 1 := by cases ret <;> first | rfl | cases hvoid
    rw [hslots]
    exact Fits.advance hholds ⟨trivial, hrest⟩

/-- An instruction on a future may find another value on the stack: shapes do not exclude that. -/
theorem Follows.withFuture (h : σ.Fits s a) (hne : σ.stack ≠ [])
    {k : Nat → List Value → Store × Action}
    (hk : ∀ q rest, a.stack = .future q :: rest → Follows τ i a (k q rest)) :
    Follows τ i a (a.withFuture s k) := by
  unfold Activation.withFuture
  split
  · rename_i q rest hstack
    exact hk q rest hstack
  · exact fun _ _ => not_false
  · rename_i hstack
    have := h.stack.length_eq
    rw [hstack] at this
    exact absurd (length_eq_zero_iff.1 this) hne

/-- A local that is known to be a frame is one, with that number of slots. -/
theorem Follows.withFrame (h : σ.Holds s a) {l n : Nat} (hl : σ.locals l = .frame n)
    {k : Nat → Store × Action}
    (hk : ∀ f frame, s.frames[f]? = some frame → frame.slots.length = n → Follows τ i a (k f)) :
    Follows τ i a (a.withFrame s l k) := by
  have hlocal := h.locals l
  rw [hl] at hlocal
  obtain ⟨f, frame, hv, hf, hn⟩ := hlocal
  rw [Activation.withFrame, hv]
  exact hk f frame hf hn

theorem Stacked.exists_cons {k : Kind} {vs : List Value} (h : Stacked s (k :: ks) vs) :
    ∃ v rest, vs = v :: rest ∧ k.Holds s rest.head? v ∧ Stacked s ks rest := by
  cases vs with
  | nil => cases h
  | cons v rest => exact ⟨v, rest, rfl, h.1, h.2⟩

theorem Fits.exists_one (h : σ.Fits s a) (hτ : σ.apply 1 ks = some τ) :
    ∃ v rest js, a.stack = v :: rest ∧ Stacked s js rest ∧ τ = { σ with stack := ks ++ js } := by
  obtain ⟨hle, rfl⟩ := apply_eq_some hτ
  rw [h.stack.length_eq] at hle
  obtain ⟨v, rest, hvs⟩ := exists_cons_of_length_pos hle
  have hrest := h.stack.drop 1
  rw [hvs] at hrest
  exact ⟨v, rest, _, hvs, hrest, rfl⟩

theorem Fits.exists_two (h : σ.Fits s a) (hτ : σ.apply 2 ks = some τ) :
    ∃ v w rest js, a.stack = v :: w :: rest ∧ Stacked s js rest ∧
      τ = { σ with stack := ks ++ js } := by
  obtain ⟨hle, rfl⟩ := apply_eq_some hτ
  rw [h.stack.length_eq] at hle
  match hvs : a.stack with
  | [] | [_] =>
    rw [hvs] at hle
    simp at hle
  | v :: w :: rest =>
    have hrest := h.stack.drop 2
    rw [hvs] at hrest
    exact ⟨v, w, rest, _, rfl, hrest, rfl⟩

/-- **One instruction keeps to the shapes.** -/
theorem Fits.exec (h : σ.Fits s a) (hi : i.shape? σ = some τ) : τ.Follows i a (a.exec s i) := by
  have hholds := h.toHolds
  cases i with
  | push c =>
    cases hi
    exact h.push (Kind.holds_ofConst s _ c)
  | load l =>
    cases hi
    exact h.push ((h.locals l).anywhere _)
  | store l =>
    simp only [Instr.shape?] at hi
    split at hi
    · rename_i k ks hks
      cases hi
      obtain ⟨v, rest, hvs, hk, hrest⟩ := (hks ▸ h.stack).exists_cons
      rw [Activation.exec, hvs]
      exact Fits.advance (Fits.locals_set hholds (hk.alone none) l) hrest
    · cases hi
  | dup =>
    simp only [Instr.shape?] at hi
    split at hi
    · rename_i k ks hks
      cases hi
      obtain ⟨v, rest, hvs, hk, hrest⟩ := (hks ▸ h.stack).exists_cons
      rw [Activation.exec, hvs]
      exact Fits.advance hholds ⟨rfl, hk, hrest⟩
    · cases hi
  | pop =>
    obtain ⟨v, rest, js, hvs, hrest, rfl⟩ := h.exists_one hi
    rw [Activation.exec, hvs]
    exact Fits.advance hholds hrest
  | swap =>
    obtain ⟨v, w, rest, js, hvs, hrest, rfl⟩ := h.exists_two hi
    rw [Activation.exec, hvs]
    exact Fits.advance hholds ⟨trivial, trivial, hrest⟩
  | binary op =>
    obtain ⟨v, w, rest, js, hvs, hrest, rfl⟩ := h.exists_two hi
    rw [Activation.exec, hvs]
    exact .computed rfl hholds hrest fun _ hmm => BinaryOp.not_breaks hmm _ _
  | unary op =>
    obtain ⟨v, rest, js, hvs, hrest, rfl⟩ := h.exists_one hi
    rw [Activation.exec, hvs]
    exact .computed rfl hholds hrest fun _ hmm => UnaryOp.not_breaks hmm _ _
  | invoke c =>
    obtain ⟨hle, rfl⟩ := apply_eq_some hi
    rw [Activation.exec, h.take? (n := c.argc) hle]
    exact .call rfl hholds (h.stack.drop _) _ _ _
  | construct cls argc =>
    obtain ⟨hle, rfl⟩ := apply_eq_some hi
    rw [Activation.exec, h.take? (n := argc) hle]
    have hs : s.Extends (s.newObject cls (a.stack.take argc).reverse).1 :=
      Store.Evolves.toExtends (C := fun _ => True) (.of_eq rfl rfl)
    exact Fits.advance (hholds.mono hs) ⟨trivial, (h.stack.drop _).mono hs⟩
  | monitorEnter =>
    obtain ⟨τ', hτ', rfl⟩ := Option.map_eq_some_iff.1 hi
    obtain ⟨v, rest, js, hvs, hrest, rfl⟩ := h.exists_one hτ'
    rw [Activation.exec, hvs]
    exact ⟨⟨congrArg (· + 1) hholds.monitors, hholds.locals⟩, hrest⟩
  | monitorExit =>
    simp only [Instr.shape?] at hi
    split at hi
    · cases hi
    · rename_i hpos
      obtain ⟨τ', hτ', rfl⟩ := Option.map_eq_some_iff.1 hi
      obtain ⟨v, rest, js, hvs, hrest, rfl⟩ := h.exists_one hτ'
      simp only [Activation.exec, hvs, hholds.monitors, hpos, if_false]
      exact ⟨⟨rfl, hholds.locals⟩, hrest⟩
  | closure method captures =>
    obtain ⟨hle, rfl⟩ := apply_eq_some hi
    rw [Activation.exec, h.take? (n := captures) hle]
    have hs : s.Extends (s.newClosure method (a.stack.take captures).reverse).1 :=
      Store.Evolves.toExtends (C := fun _ => True) (.of_eq rfl rfl)
    exact Fits.advance (hholds.mono hs) ⟨trivial, (h.stack.drop _).mono hs⟩
  | callClosure argc ret =>
    obtain ⟨hle, rfl⟩ := apply_eq_some hi
    have hle' : argc ≤ σ.stack.length := Nat.le_of_succ_le hle
    rw [Activation.exec, h.take? hle']
    have hrest := h.stack.drop (argc + 1)
    rw [← tail_drop (l := a.stack)] at hrest
    split
    · rename_i args id method captures rest heq
      simp only [Option.some.injEq, Prod.mk.injEq] at heq
      rw [heq.2] at hrest
      exact .call rfl hholds hrest _ _ _
    · exact fun _ _ => not_false
    · rename_i hne hne'
      have hlen : 0 < (a.stack.drop argc).length := by
        rw [length_drop, ← h.stack.length_eq]
        exact Nat.sub_pos_of_lt hle
      obtain ⟨v, rest, hdrop⟩ := exists_cons_of_length_pos hlen
      exact absurd (congrArg (fun r => some ((a.stack.take argc).reverse, r)) hdrop)
        (hne' _ _ _)
  | futureNew =>
    cases hi
    have hs : s.Extends s.newPromise.1 :=
      (Store.evolves_newPromise (C := fun _ => True) s).toExtends
    exact Fits.advance (hholds.mono hs) ⟨⟨_, rfl⟩, h.stack.mono hs⟩
  | futureIsDone =>
    simp only [Instr.shape?] at hi
    split at hi
    · rename_i ks hks
      cases hi
      refine .withFuture h (by simp [hks]) fun q rest hvs => ?_
      obtain ⟨v, rest', hvs', hk, hrest⟩ := (hks ▸ h.stack).exists_cons
      rw [hvs] at hvs'
      cases hvs'
      exact Fits.advance hholds ⟨⟨_, q, rfl, hk, id⟩, hrest⟩
    · cases hi
  | futureJoin =>
    simp only [Instr.shape?] at hi
    split at hi
    · rename_i ks hks
      cases hi
      obtain ⟨v, rest, hvs, ⟨q, rfl, hq⟩, hrest⟩ := (hks ▸ h.stack).exists_cons
      obtain ⟨o, ho⟩ := Option.isSome_iff_exists.1 hq
      simp only [Activation.exec, Activation.withFuture, hvs, ho]
      exact .unwrapped rfl hholds hrest o
    · cases hi
  | futureFulfill | futureReject =>
    obtain ⟨v, w, rest, js, hvs, hrest, rfl⟩ := h.exists_two hi
    simp only [Activation.exec, Activation.withFuture, hvs]
    cases w with
    | future q => exact ⟨rfl, Fits.advance (hholds.of_eq rfl rfl) hrest⟩
    | _ => exact fun _ _ => not_false
  | frameNew n =>
    obtain ⟨v, rest, js, hvs, hrest, rfl⟩ := h.exists_one hi
    simp only [Activation.exec, Activation.withFuture, hvs]
    cases v with
    | future q =>
      have hs : s.Extends (s.newFrame q n).1 :=
        (Store.evolves_newFrame (C := fun _ => True) s q n).toExtends
      refine Fits.advance (hholds.mono hs)
        ⟨⟨s.frames.size, ⟨q, replicate n .null⟩, rfl, ?_, ?_⟩, hrest.mono hs⟩
      · simp [Store.newFrame]
      · simp
    | _ => exact fun _ _ => not_false
  | frameLoad l slot =>
    simp only [Instr.shape?] at hi
    split at hi
    · rename_i n hl
      split at hi
      · rename_i hlt
        cases hi
        refine .withFrame hholds hl fun f frame hf hn => ?_
        have hslot : s.loadSlot? f slot = some frame.slots[slot] := by
          simp [Store.loadSlot?, Store.slots, hf, hn ▸ hlt]
        rw [hslot]
        exact h.push trivial
      · cases hi
    · cases hi
  | frameStore l slot =>
    simp only [Instr.shape?] at hi
    split at hi
    · rename_i n hl
      split at hi
      · rename_i hlt
        obtain ⟨v, rest, js, hvs, hrest, rfl⟩ := h.exists_one hi
        rw [Activation.exec, hvs]
        refine .withFrame hholds hl fun f frame hf hn => ?_
        obtain ⟨t, ht⟩ : ∃ t, s.storeSlot? f slot v = some t := by
          simp only [Store.storeSlot?, hf, hn ▸ hlt, if_true]
          exact ⟨_, rfl⟩
        have hs : s.Extends t := (Store.evolves_storeSlot? (C := fun _ => True) ht).toExtends
        rw [ht]
        exact Fits.advance (hholds.mono hs) (hrest.mono hs)
      · cases hi
    · cases hi
  | frameOuter l =>
    simp only [Instr.shape?] at hi
    split at hi
    · rename_i n hl
      cases hi
      refine .withFrame hholds hl fun f frame hf hn => ?_
      have houter : s.outer? f = some frame.outer := by simp [Store.outer?, hf]
      rw [houter]
      exact h.push ⟨_, rfl⟩
    · cases hi
  | outcomeUnwrap =>
    simp only [Instr.shape?] at hi
    split at hi
    · rename_i ks hks
      cases hi
      obtain ⟨v, rest, hvs, rfl | ⟨o, rfl⟩, hrest⟩ := (hks ▸ h.stack).exists_cons
      · rw [Activation.exec, hvs]
        exact Fits.advance hholds ⟨trivial, hrest⟩
      · rw [Activation.exec, hvs]
        exact .unwrapped rfl hholds hrest o
    · cases hi
  | resume d k l =>
    simp only [Instr.shape?] at hi
    split at hi
    · rename_i n hl
      obtain ⟨v, rest, js, hvs, hrest, rfl⟩ := h.exists_one hi
      have hne : σ.stack ≠ [] := by
        intro hnil
        have := h.stack.length_eq
        rw [hnil, hvs] at this
        cases this
      refine .withFuture h hne fun q rest' hvs' => ?_
      rw [hvs] at hvs'
      cases hvs'
      refine .withFrame hholds hl fun f frame hf hn => ?_
      exact ⟨rfl, Fits.advance (hholds.of_eq rfl rfl) hrest⟩
    · cases hi

end Shape

/-! ### Typings -/

/-- What a typing of a method says. -/
structure Typing where
  /-- The shapes that a block can be entered with. -/
  entered : Nat → Shape → Prop
  /-- The blocks that may end with `unreachable`. -/
  dead : Nat → Prop
  /-- What holds of an instruction and the shape before it. -/
  issues : Shape → Instr → Prop

namespace Typing

section

variable (T : Typing) (p : Program) (m : Method) (b : Nat)

/-- The handlers of a block can be entered when an exception comes at the given shape. -/
def Catches (σ : Shape) : Prop := ∀ e h, p.handler? m b e = some h → T.entered h σ.caught

/-- What a terminator leads to can be entered. -/
def Leaves (σ : Shape) : Terminator → Prop
  | .goto target => T.entered target σ
  | .branch ifTrue ifFalse =>
    match σ.stack with
    | .test :: k :: ks =>
      T.entered ifTrue { σ with stack := .settled :: ks } ∧
        T.entered ifFalse { σ with stack := k :: ks }
    | _ :: ks => T.entered ifTrue { σ with stack := ks } ∧ T.entered ifFalse { σ with stack := ks }
    | [] => False
  | .switch cases default =>
    match σ.stack with
    | .int n :: ks => T.entered ((cases.lookup n).getD default) { σ with stack := ks }
    | _ :: ks => b ≠ m.entry ∧
        ∀ n, T.entered ((cases.lookup n).getD default) { σ with stack := ks }
    | [] => False
  | .ret => m.ret.isVoid = false → σ.stack ≠ []
  | .raise => σ.stack ≠ [] ∧ T.Catches p m b σ
  | .endCleanup => False
  | .unreachable => T.dead b

/-- The rest of a block is right for an activation of the given shape. -/
def Passes (t : Terminator) : Shape → List Instr → Prop
  | σ, [] => T.Leaves p m b σ t
  | σ, i :: is => T.issues σ i ∧ (i.raises = true → T.Catches p m b σ) ∧
      ∃ τ, i.shape? σ = some τ ∧ Passes t τ is

/-- **The typing is right**: whatever a block is entered with, its code passes. -/
def Checks : Prop :=
  ∀ b σ, T.entered b σ → ∃ block, m.block? b = some block ∧
    T.Passes p m b block.terminator σ block.instrs

/-- An activation has the shape of its position. -/
def At (s : Store) (a : Activation) : Prop :=
  a.method = m ∧ ∃ is t σ, a.Ahead is t ∧ T.Passes p m a.block t σ is ∧ σ.Fits s a

/-- An activation that waits will have the shape of the next position, and handlers can be entered
if `catching`. -/
structure Waits (catching : Bool) (s : Store) (a : Activation) (keep : Bool) : Prop where
  next : ∀ v, T.At p m s (a.advance (if keep then v :: a.stack else a.stack))
  method : a.method = m
  handled : catching = true → ∃ σ : Shape, σ.Holds s a ∧ T.Catches p m a.block σ

/-- **The machine of one activation**: it runs, or it waits for a call, or for a settlement, which
never fails, or it has ended. -/
inductive Alive : Machine → Prop where
  | runs {s : Store} {a : Activation} (h : T.At p m s a) : Alive ⟨s, .exec a, []⟩
  | calls {k : Machine} {a : Activation} {keep : Bool} (h : T.Waits p m true k.store a keep) :
      Alive (k.atop [.caller a keep])
  | settles {k : Machine} {a : Activation} (hk : k.Shielded)
      (h : T.Waits p m false k.store a false) :
      Alive (k.atop [.caller a false])
  | answered (s : Store) (v : Value) : Alive ⟨s, .answer v, []⟩
  | unwound (s : Store) (u : Unwind) : Alive ⟨s, .unwind u, []⟩

/-- What the end of a block leads to. -/
def Departs (s : Store) (a : Activation) : Departure → Prop
  | .jump target vs => T.Alive p m ⟨s, .exec (a.jump target vs), []⟩
  | .ret _ => True
  | .throw e => T.Alive p m ⟨s, p.raise a e, []⟩
  | .fault f => ¬ f.Breaks m T.dead

end

variable {T : Typing} {p : Program} {m : Method} {s t : Store} {a b : Activation}

/-- The shape of a position is kept while the store is extended. -/
theorem At.mono (h : T.At p m s a) (hst : s.Extends t) : T.At p m t a := by
  obtain ⟨hm, is, t, σ, hahead, hpasses, hfits⟩ := h
  exact ⟨hm, is, t, σ, hahead, hpasses, hfits.mono hst⟩

theorem Waits.mono {catching keep : Bool} (h : T.Waits p m catching s a keep) (hst : s.Extends t) :
    T.Waits p m catching t a keep where
  next v := (h.next v).mono hst
  method := h.method
  handled hc := by
    obtain ⟨σ, hholds, hcatches⟩ := h.handled hc
    exact ⟨σ, hholds.mono hst, hcatches⟩

section

variable (hT : T.Checks p m)
include hT

variable {σ : Shape} {k : Machine}

/-- An activation at the start of a block that may be entered with its shape is at a position of the
typing. -/
theorem at_of_entered {target : Nat} (hentered : T.entered target σ) (hm : a.method = m)
    (hblock : a.block = target) (hoffset : a.offset = 0) (hfits : σ.Fits s a) : T.At p m s a := by
  obtain ⟨block, hb, hpasses⟩ := hT target σ hentered
  subst hblock
  refine ⟨hm, block.instrs, block.terminator, σ, ⟨block, ?_, ?_, rfl⟩, hpasses, hfits⟩
  · rw [hm, hb]
  · rw [hoffset]
    rfl

/-- A raised exception gets to a handler that may be entered, or leaves the activation. -/
theorem alive_raise (hm : a.method = m) (hholds : σ.Holds s a) (hcatches : T.Catches p m a.block σ)
    (e : Value) : T.Alive p m ⟨s, p.raise a e, []⟩ := by
  unfold Program.raise
  rw [hm]
  split
  · rename_i h hh
    exact .runs (at_of_entered hT (hcatches e h hh) hm rfl rfl
      (Shape.Fits.jump hholds h ⟨trivial, trivial⟩))
  · exact .unwound s _

theorem alive_jump (hm : a.method = m) (hholds : σ.Holds s a) {target : Nat} {ks : List Kind}
    {vs : List Value} (hentered : T.entered target { σ with stack := ks })
    (hvs : Shape.Stacked s ks vs) : T.Alive p m ⟨s, .exec (a.jump target vs), []⟩ :=
  .runs (at_of_entered hT hentered hm rfl rfl (Shape.Fits.jump hholds target hvs))

/-- **The end of a block** leads to a block that can be entered, or out of the activation. -/
theorem departs_leave {t : Terminator} (hm : a.method = m) (hleaves : T.Leaves p m a.block σ t)
    (hfits : σ.Fits s a) : T.Departs p m s a (a.leave t) := by
  have hholds := hfits.toHolds
  cases t with
  | goto target => exact alive_jump hT hm hholds hleaves hfits.stack
  | branch ifTrue ifFalse =>
    simp only [Leaves] at hleaves
    split at hleaves
    · rename_i k ks hks
      obtain ⟨v, rest, hvs, ⟨b, q, rfl, hbelow, hq⟩, hrest⟩ := (hks ▸ hfits.stack).exists_cons
      obtain ⟨w, rest, rfl, hk, hrest'⟩ := hrest.exists_cons
      cases Option.some.inj hbelow
      simp only [Activation.leave, hvs]
      cases b with
      | true => exact alive_jump hT hm hholds hleaves.1 ⟨⟨q, rfl, hq rfl⟩, hrest'⟩
      | false => exact alive_jump hT hm hholds hleaves.2 hrest
    · rename_i k ks _ hks
      obtain ⟨v, rest, hvs, -, hrest⟩ := (hks ▸ hfits.stack).exists_cons
      simp only [Activation.leave, hvs]
      cases v with
      | bool b =>
        cases b with
        | true => exact alive_jump hT hm hholds hleaves.1 hrest
        | false => exact alive_jump hT hm hholds hleaves.2 hrest
      | _ => exact not_false
    · exact hleaves.elim
  | switch cases default =>
    simp only [Leaves] at hleaves
    split at hleaves
    · rename_i n ks hks
      obtain ⟨v, rest, hvs, rfl, hrest⟩ := (hks ▸ hfits.stack).exists_cons
      simp only [Activation.leave, hvs]
      exact alive_jump hT hm hholds hleaves hrest
    · rename_i k ks _ hks
      obtain ⟨v, rest, hvs, -, hrest⟩ := (hks ▸ hfits.stack).exists_cons
      simp only [Activation.leave, hvs]
      cases v with
      | int n => exact alive_jump hT hm hholds (hleaves.2 n) hrest
      | _ => exact hleaves.1
    · exact hleaves.elim
  | ret =>
    simp only [Activation.leave]
    split
    · trivial
    · rename_i hvoid
      have hne : σ.stack ≠ [] := hleaves (by rw [← hm]; simpa using hvoid)
      obtain ⟨k, ks, hks⟩ := exists_cons_of_ne_nil hne
      obtain ⟨v, rest, hvs, -, -⟩ := (hks ▸ hfits.stack).exists_cons
      rw [hvs]
      trivial
  | raise =>
    obtain ⟨hne, hcatches⟩ := hleaves
    obtain ⟨k, ks, hks⟩ := exists_cons_of_ne_nil hne
    obtain ⟨v, rest, hvs, -, -⟩ := (hks ▸ hfits.stack).exists_cons
    simp only [Activation.leave, hvs]
    exact alive_raise hT hm hholds hcatches v
  | endCleanup => exact hleaves.elim
  | unreachable => exact not_not_intro hleaves

omit hT in
/-- Raising an exception is no fault, whether or not it is caught. -/
theorem raise_ne_fault (p : Program) (a : Activation) (e : Value) (s t : Store) (ts : List Task)
    (f : Fault) : (⟨s, p.raise a e, ts⟩ : Machine) ≠ ⟨t, .unwind (.fault f), ts⟩ := by
  intro h
  have hcontrol : p.raise a e = .unwind (.fault f) := congrArg Machine.control h
  rw [Program.raise] at hcontrol
  split at hcontrol <;> cases hcontrol

/-- **One step of the activation itself**: it stays alive, and it raises no excluded fault. -/
theorem At.step (h : T.At p m s a) (hk : Machine.Step p ⟨s, .exec a, []⟩ k) :
    T.Alive p m k ∧
      ∀ t f, k = ⟨t, .unwind (.fault f), []⟩ → ¬ f.Breaks m T.dead := by
  obtain ⟨hm, is, t, σ, hahead, hpasses, hfits⟩ := h
  cases is with
  | nil =>
    have hstep := hahead.step_leave p s []
    rw [Machine.Step] at hstep hk
    rw [hstep] at hk
    cases hk
    have hdeparts := departs_leave hT hm hpasses hfits
    cases hleave : a.leave t with
    | jump target vs =>
      rw [hleave] at hdeparts
      exact ⟨hdeparts, fun _ _ h => by cases h⟩
    | ret v => exact ⟨.answered s v, fun _ _ h => by cases h⟩
    | throw e =>
      rw [hleave] at hdeparts
      exact ⟨hdeparts, fun t f h => absurd h (raise_ne_fault p a e s t [] f)⟩
    | fault f =>
      rw [hleave] at hdeparts
      refine ⟨.unwound s _, fun t f' h => ?_⟩
      cases h
      exact hdeparts
  | cons i is =>
    obtain ⟨-, hcatches, τ, hτ, hpasses⟩ := hpasses
    have hstep := hahead.step_instr p s []
    have hext : s.Extends (a.exec s i).1 := (a.evolves_exec (fun _ => True) s i).toExtends
    have hfollows := hfits.exec hτ
    rw [Machine.Step] at hstep hk
    rw [hstep] at hk
    cases hk
    -- Where the activation goes on, the rest of the block is ahead.
    have hnext : ∀ {u : Store} {b : Activation}, Activation.Moves 1 a b → τ.Fits u b →
        T.At p m u b := by
      intro u b hmoves hfits'
      refine ⟨hmoves.method.trans hm, is, t, τ, hahead.moves hmoves, ?_, hfits'⟩
      rw [hmoves.block]
      exact hpasses
    have hwaits : ∀ {u : Store} {vs : List Value} {keep : Bool} {catching : Bool}, s.Extends u →
        (∀ v, τ.Fits u (Activation.advance { a with stack := vs } (if keep then v :: vs else vs))) →
        (catching = true → i.raises = true) →
        T.Waits p m catching u { a with stack := vs } keep := by
      intro u vs keep catching hu hfits' hraises
      refine ⟨fun v => hnext ⟨rfl, rfl, rfl, rfl⟩ (hfits' v), hm, fun hc => ?_⟩
      exact ⟨σ, (hfits.toHolds.mono hu).of_eq rfl rfl, hcatches (hraises hc)⟩
    cases hexec : a.exec s i with
    | mk u action =>
    rw [hexec] at hfollows hext
    cases action with
    | next b =>
      exact ⟨.runs (hnext (Activation.moves_of_exec hexec) hfollows), fun _ _ h => by cases h⟩
    | throw e =>
      exact ⟨alive_raise hT hm (hfits.toHolds.mono hext) (hcatches hfollows) e,
        fun t f h => absurd h (raise_ne_fault p a e u t [] f)⟩
    | fault f =>
      refine ⟨.unwound u _, fun t f' h => ?_⟩
      cases h
      exact hfollows m T.dead
    | call b name args keep =>
      obtain ⟨hraises, hb, hfits'⟩ := hfollows
      rw [hb] at hfits' ⊢
      exact ⟨.calls (k := ⟨u, .enter name args a.depth, []⟩) (hwaits hext hfits' fun _ => hraises),
        fun _ _ h => by cases h⟩
    | fulfill b q v =>
      obtain ⟨hb, hfits'⟩ := hfollows
      rw [hb] at hfits' ⊢
      have hu : u.Extends (u.fulfill q v).1 :=
        (u.evolves_fulfill (C := fun _ => True) (fun _ => trivial) q v).1.toExtends
      refine ⟨.settles (Machine.shielded_fulfill u q v) ?_,
        fun _ _ h => by cases congrArg Machine.tasks h⟩
      exact hwaits (hext.trans hu) (fun _ => hfits'.mono hu) fun h => by cases h
    | reject b q e =>
      obtain ⟨hb, hfits'⟩ := hfollows
      rw [hb] at hfits' ⊢
      have hu : u.Extends (u.reject q e).1 :=
        (u.evolves_settle (C := fun _ => True) q (.rejected e)).1.toExtends
      refine ⟨.settles (Machine.shielded_reject u q e) ?_,
        fun _ _ h => by cases congrArg Machine.tasks h⟩
      exact hwaits (hext.trans hu) (fun _ => hfits'.mono hu) fun h => by cases h
    | subscribe b q c =>
      obtain ⟨hb, hfits'⟩ := hfollows
      rw [hb] at hfits' ⊢
      have hu : u.Extends (u.register q c).1 :=
        (u.evolves_register (C := fun _ => True) q fun _ => trivial).1.toExtends
      refine ⟨.settles (Machine.shielded_subscribe u q c) ?_,
        fun _ _ h => by cases congrArg Machine.tasks h⟩
      exact hwaits (hext.trans hu) (fun _ => hfits'.mono hu) fun h => by cases h

/-- **A step keeps the activation alive**: its own steps lead to where it has the shape of its
position, and what other code does only extends the store. -/
theorem Alive.step {k' : Machine} (h : T.Alive p m k) (hk : k.Step p k') : T.Alive p m k' := by
  cases h with
  | runs hat => exact (hat.step hT hk).1
  | answered s v => cases hk
  | unwound s u => cases hk
  | @calls j a keep hwaits =>
    cases hj : j.step? p with
    | some j' =>
      have hatop := Machine.step?_atop [.caller a keep] hj
      rw [Machine.Step, hatop] at hk
      cases hk
      exact .calls (hwaits.mono (Machine.extends_step hj))
    | none =>
      -- The call has ended, and the activation goes on.
      obtain ⟨s, control, ts⟩ := j
      obtain ⟨htasks, hcontrol⟩ := Machine.control_of_finished hj
      simp only at htasks hcontrol
      subst htasks
      obtain ⟨v, rfl⟩ | ⟨u, rfl⟩ := hcontrol
      · cases hk
        exact .runs (hwaits.next v)
      · cases u with
        | throw e =>
          cases hk
          obtain ⟨σ, hholds, hcatches⟩ := hwaits.handled rfl
          exact alive_raise hT hwaits.method hholds hcatches e
        | fault f =>
          cases hk
          exact .unwound s _
  | @settles j a hshielded hwaits =>
    cases hj : j.step? p with
    | some j' =>
      have hatop := Machine.step?_atop [.caller a false] hj
      rw [Machine.Step, hatop] at hk
      cases hk
      exact .settles (hshielded.step hj) (hwaits.mono (Machine.extends_step hj))
    | none =>
      obtain ⟨s, control, ts⟩ := j
      obtain ⟨v, hv⟩ := hshielded.finishes_ok (Machine.finishes_iff.2 ⟨_, .refl p _, hj, rfl, rfl⟩)
      obtain ⟨htasks, hcontrol⟩ := Machine.control_of_finished hj
      simp only at htasks hcontrol
      subst htasks
      obtain ⟨w, rfl⟩ | ⟨u, rfl⟩ := hcontrol
      · cases hk
        exact .runs (hwaits.next w)
      · cases hv

theorem Alive.steps {k' : Machine} (h : T.Alive p m k) (hk : k.Steps p k') : T.Alive p m k' := by
  induction hk with
  | refl => exact h
  | tail _ hstep ih => exact ih.step hT hstep

/-- **A typed activation raises no excluded fault** with an instruction or a terminator of its
own. -/
theorem Alive.not_breaks (h : T.Alive p m k) {f : Fault} (hk : k.Step p ⟨t, .unwind (.fault f), []⟩)
    (htasks : k.tasks = []) : ¬ f.Breaks m T.dead := by
  cases h with
  | runs hat => exact (hat.step hT hk).2 t f rfl
  | calls hwaits | settles _ hwaits => simp [Machine.atop] at htasks
  | answered s v | unwound s u => cases hk

end

theorem At.exists_issues (h : T.At p m s a) {c : Store × Action} (hdoes : a.Does s c) :
    ∃ σ i, σ.Fits s a ∧ T.issues σ i ∧ a.exec s i = c := by
  obtain ⟨-, is, t, σ, ⟨block, hblock, hdrop, -⟩, hpasses, hfits⟩ := h
  obtain ⟨i, is', t', ⟨block', hblock', hdrop', -⟩, hexec⟩ := hdoes
  rw [hblock] at hblock'
  cases hblock'
  rw [hdrop] at hdrop'
  subst hdrop'
  exact ⟨σ, i, hfits, hpasses.1, hexec⟩

/-- An activation that runs with nothing beneath it is at a position of the typing. -/
theorem Alive.at_of_exec {k : Machine} (h : T.Alive p m k) (htasks : k.tasks = [])
    (hcontrol : k.control = .exec a) : T.At p m k.store a := by
  cases h with
  | runs hat =>
    cases hcontrol
    exact hat
  | calls hwaits | settles _ hwaits => simp [Machine.atop] at htasks
  | answered s v | unwound s u => cases hcontrol

end Typing

end Resumable
