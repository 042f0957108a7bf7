/-
**Marks on values.**

Generated code keeps apart the values of the method, which are ordinary, the outer future and its
frames.  A *mark* says which of these a local or a place on the stack holds, and an instruction
leads from marks to marks.  A frame that the code has made itself is *fresh* until it is parked.

Main results:

* `Marks.Holds.exec` — **an instruction keeps to the marks**, and the store stays ordinary.
-/

import Resumable.Proofs.Protocol
import Resumable.Proofs.Events
import Resumable.Proofs.OrdinaryValues

set_option autoImplicit false

namespace Resumable

open List

namespace Store

variable {s t : Store}

theorem Ordinary.newFrame (hs : s.Ordinary) (outer n : Nat) : (s.newFrame outer n).1.Ordinary := by
  refine ⟨hs.outcomes, fun f frame hf v hv => ?_, hs.ambient⟩
  simp only [Store.newFrame, Array.getElem?_push] at hf
  split at hf
  · cases hf
    rw [eq_of_mem_replicate hv]
    exact Value.ordinary_null
  · exact hs.slots f frame hf v hv

/-- An ordinary value is put into a slot. -/
theorem Ordinary.storeSlot? (hs : s.Ordinary) {f slot : Nat} {v : Value}
    (h : s.storeSlot? f slot v = some t) (hv : v.Ordinary s.promises.size) : t.Ordinary := by
  unfold Store.storeSlot? at h
  split at h
  · rename_i frame hframe
    split at h
    · cases h
      refine ⟨hs.outcomes, fun k frame' hk w hw => ?_, hs.ambient⟩
      rw [Array.getElem?_setIfInBounds] at hk
      split at hk
      · split at hk
        · cases hk
          rcases mem_or_eq_of_mem_set hw with hw | rfl
          · exact hs.slots f frame hframe w hw
          · exact hv
        · cases hk
      · exact hs.slots k frame' hk w hw
    · cases h
  · cases h

theorem Extends.outer? (h : s.Extends t) {f q : Nat} (hf : s.outer? f = some q) :
    t.outer? f = some q := by
  obtain ⟨frame, hframe, rfl⟩ := Option.map_eq_some_iff.1 hf
  obtain ⟨slots, ht, -⟩ := h.frames f frame hframe
  rw [Store.outer?, ht]
  rfl

end Store

/-! ### Marks -/

/-- What code that has the duty for a future knows of a value. -/
inductive Mark where
  /-- An ordinary value. -/
  | plain
  /-- The future itself. -/
  | own
  /-- A frame of the future. -/
  | frame
  /-- A frame of the future that has not been parked yet. -/
  | fresh
  /-- Any value; it is not looked at. -/
  | hidden
deriving DecidableEq

/-- Whether the value is a frame of the future. -/
def Mark.isFrame : Mark → Bool
  | .frame | .fresh => true
  | .plain | .own | .hidden => false

/-- A value is as marked, where the code has the duty for `o` and the frames in `used` have been
parked. -/
def Mark.Holds (s : Store) (used : Nat → Prop) (o : Nat) : Mark → Value → Prop
  | .plain, v => v.Ordinary s.promises.size
  | .own, v => v = .future o
  | .frame, v => ∃ f, v = .frame f ∧ s.outer? f = some o
  | .fresh, v => ∃ f, v = .frame f ∧ s.outer? f = some o ∧ ¬ used f
  | .hidden, _ => True

/-- Marks of the locals and of the upper part of the stack; what lies below is ordinary. -/
structure Marks where
  locals : Nat → Mark
  stack : List Mark

namespace Marks

/-- The mark on top of the stack. -/
def top (σ : Marks) : Mark := σ.stack.headD .plain

/-- The marks with one more on the stack. -/
def push (σ : Marks) (k : Mark) : Marks := { σ with stack := k :: σ.stack }

/-- The marks with the top of the stack taken. -/
def pop (σ : Marks) : Marks := { σ with stack := σ.stack.tail }

/-- The values of a stack are as marked. -/
def OfStack (s : Store) (used : Nat → Prop) (o : Nat) : List Mark → List Value → Prop
  | [], vs => ∀ v ∈ vs, v.Ordinary s.promises.size
  | k :: ks, v :: vs => k.Holds s used o v ∧ OfStack s used o ks vs
  | _ :: _, [] => True

/-- The values of an activation are as marked. -/
structure Holds (σ : Marks) (s : Store) (used : Nat → Prop) (o : Nat) (a : Activation) : Prop where
  locals : ∀ l, (σ.locals l).Holds s used o (a.locals.get l)
  stack : OfStack s used o σ.stack a.stack

end Marks

/-- An instruction that works on ordinary values and leaves ordinary values. -/
def Instr.isOrdinary : Instr → Bool
  | .dup | .pop | .swap | .binary _ | .unary _ | .invoke _ | .construct _ _ | .monitorEnter
  | .monitorExit | .closure _ _ | .callClosure _ _ | .futureIsDone | .futureJoin
  | .outcomeUnwrap => true
  | _ => false

/-- The marks after an instruction that leads on to the next, or calls a function; `none` if the
instruction may not stand here. -/
def Instr.marks? (σ : Marks) : Instr → Option Marks
  | .push _ => some (σ.push .plain)
  | .load l => if σ.locals l = .hidden then none else some (σ.push (σ.locals l))
  | .store l => some { σ.pop with locals := Function.update σ.locals l σ.top }
  | .frameNew _ => if σ.top = .own then some (σ.pop.push .fresh) else none
  | .frameLoad l _ => if (σ.locals l).isFrame then some (σ.push .plain) else none
  | .frameStore l _ => if (σ.locals l).isFrame ∧ σ.top = .plain then some σ.pop else none
  | .frameOuter l => if (σ.locals l).isFrame then some (σ.push .own) else none
  | i => if i.isOrdinary ∧ σ.stack.all (· = .plain) then some { σ with stack := [] } else none

theorem Instr.marks?_of_isOrdinary {i : Instr} (hi : i.isOrdinary = true) (σ : Marks) :
    i.marks? σ =
      if σ.stack.all (· = .plain) then some { σ with stack := [] } else none := by
  cases i with
  | push _ | load _ | store _ | frameNew _ | frameLoad _ _ | frameStore _ _ | frameOuter _ =>
    cases hi
  | _ => simp only [marks?, hi, true_and]

/-- What an instruction led to, where `τ` are the marks after it. -/
def Marks.Follows (τ : Marks) (used : Nat → Prop) (o : Nat) (i : Instr) (a : Activation) :
    Store × Action → Prop
  | (t, .next b) => τ.Holds t used o b
  | (t, .throw e) => i.raises = true ∧ e.Ordinary t.promises.size
  | (_, .fault _) => True
  | (t, .call b _ args _) => i.raises = true ∧ (∀ v ∈ args, v.Ordinary t.promises.size) ∧
      b = { a with stack := b.stack } ∧ ∀ v ∈ b.stack, v.Ordinary t.promises.size
  | (_, .fulfill _ _ _) | (_, .reject _ _ _) | (_, .subscribe _ _ _) => False

section

variable {s t : Store} {used used' : Nat → Prop} {o : Nat} {k : Mark} {v : Value} {a b : Activation}
  {σ τ : Marks} {ks : List Mark} {vs : List Value}

theorem Mark.Holds.mono (h : k.Holds s used o v) (hst : s.Extends t)
    (hused : k = .fresh → ∀ f, used' f → used f) : k.Holds t used' o v := by
  cases k with
  | plain => exact Value.Ordinary.mono h hst.promises
  | own => exact h
  | frame =>
    obtain ⟨f, rfl, hf⟩ := h
    exact ⟨f, rfl, hst.outer? hf⟩
  | fresh =>
    obtain ⟨f, rfl, hf, hfresh⟩ := h
    exact ⟨f, rfl, hst.outer? hf, fun hu => hfresh (hused rfl f hu)⟩
  | hidden => trivial

namespace Marks

theorem OfStack.mono (h : OfStack s used o ks vs) (hst : s.Extends t) : OfStack t used o ks vs := by
  induction ks generalizing vs with
  | nil => exact fun v hv => (h v hv).mono hst.promises
  | cons k ks ih =>
    cases vs with
    | nil => trivial
    | cons v vs => exact ⟨h.1.mono hst fun _ _ hu => hu, ih h.2⟩

theorem Holds.mono (h : σ.Holds s used o a) (hst : s.Extends t) : σ.Holds t used o a :=
  ⟨fun l => (h.locals l).mono hst fun _ _ hu => hu, h.stack.mono hst⟩

theorem ofStack_cons : OfStack s used o ks (v :: vs) ↔
    (ks.headD .plain).Holds s used o v ∧ OfStack s used o ks.tail vs := by
  cases ks with
  | nil => exact forall_mem_cons
  | cons k ks => exact Iff.rfl

/-- A stack that is marked as ordinary is ordinary. -/
theorem OfStack.plain (h : OfStack s used o ks vs) (hks : ∀ k ∈ ks, k = .plain) :
    ∀ v ∈ vs, v.Ordinary s.promises.size := by
  induction ks generalizing vs with
  | nil => exact h
  | cons k ks ih =>
    cases vs with
    | nil => exact fun v hv => (by cases hv)
    | cons v vs =>
      obtain rfl := hks k mem_cons_self
      exact forall_mem_cons.2
        ⟨h.1, ih h.2 fun k hk => hks k (mem_cons_of_mem _ hk)⟩

theorem Holds.advance (h : σ.Holds s used o a) (hvs : OfStack s used o ks vs) :
    Holds ⟨σ.locals, ks⟩ s used o (a.advance vs) :=
  ⟨h.locals, hvs⟩

theorem Holds.push (h : σ.Holds s used o a) (hv : k.Holds s used o v) :
    (σ.push k).Holds s used o (a.advance (v :: a.stack)) :=
  ⟨h.locals, hv, h.stack⟩

theorem Holds.set (h : σ.Holds s used o a) (hv : k.Holds s used o v) (l : Nat) :
    Holds ⟨Function.update σ.locals l k, σ.stack⟩ s used o
      { a with locals := a.locals.set l v } := by
  refine ⟨fun j => ?_, h.stack⟩
  simp only [Locals.get_set, Function.update_apply]
  split
  · exact hv
  · exact h.locals j

variable {l : Nat} {i : Instr}

theorem Holds.frame (h : σ.Holds s used o a) (hl : (σ.locals l).isFrame = true) :
    ∃ f, a.locals.get l = .frame f ∧ s.outer? f = some o := by
  have hlocal := h.locals l
  cases hk : σ.locals l with
  | frame => rwa [hk] at hlocal
  | fresh =>
    rw [hk] at hlocal
    obtain ⟨f, hf, houter, -⟩ := hlocal
    exact ⟨f, hf, houter⟩
  | plain | own | hidden =>
    rw [hk] at hl
    cases hl

theorem forall_of_take? {P : Value → Prop} {n : Nat} {args rest : List Value}
    (h : a.take? n = some (args, rest)) (hP : ∀ v ∈ a.stack, P v) :
    (∀ v ∈ args, P v) ∧ ∀ v ∈ rest, P v := by
  unfold Activation.take? at h
  split at h
  · cases h
    exact ⟨fun v hv => hP v (mem_of_mem_take (mem_reverse.1 hv)),
      fun v hv => hP v (mem_of_mem_drop hv)⟩
  · cases h

/-- What an instruction of any other sort leads to: it works on ordinary values. -/
theorem Follows.next (h : σ.Holds s used o a) (hvs : ∀ v ∈ vs, v.Ordinary s.promises.size)
    (i : Instr) : Follows ⟨σ.locals, []⟩ used o i a (s, .next (a.advance vs)) :=
  h.advance hvs

theorem Follows.computed (h : σ.Holds s used o a) (hvs : ∀ v ∈ vs, v.Ordinary s.promises.size)
    (hi : i.raises = true) {c : Computed} (hc : c.Ordinary s.promises.size) :
    Follows ⟨σ.locals, []⟩ used o i a (a.computed s vs c) := by
  cases c with
  | value v => exact h.advance (forall_mem_cons.2 ⟨hc, hvs⟩)
  | mismatch m => trivial
  | divisionByZero => exact ⟨hi, by simp⟩

theorem Follows.unwrapped (h : σ.Holds s used o a) (hvs : ∀ v ∈ vs, v.Ordinary s.promises.size)
    (hi : i.raises = true) {x : Outcome Value} (hx : x.payload.Ordinary s.promises.size) :
    Follows ⟨σ.locals, []⟩ used o i a (a.unwrapped s vs x) := by
  cases x with
  | fulfilled v => exact h.advance (forall_mem_cons.2 ⟨hx, hvs⟩)
  | rejected e => exact ⟨hi, hx⟩

theorem ordinary_computed (hs : s.Ordinary) (vs : List Value) (c : Computed) :
    (a.computed s vs c).1.Ordinary := by
  cases c with
  | value v | mismatch m => exact hs
  | divisionByZero => exact ⟨hs.outcomes, hs.slots, hs.ambient⟩

theorem Holds.exec_ordinary (h : σ.Holds s used o a) (hs : s.Ordinary)
    (hplain : ∀ v ∈ a.stack, v.Ordinary s.promises.size) (hi : i.isOrdinary = true) :
    Follows ⟨σ.locals, []⟩ used o i a (a.exec s i) ∧ (a.exec s i).1.Ordinary := by
  obtain ⟨method, locals, stack, monitors, block, offset, depth⟩ := a
  cases i with
  | dup =>
    cases stack with
    | nil => exact ⟨trivial, hs⟩
    | cons v rest =>
      exact ⟨.next h (forall_mem_cons.2 ⟨hplain v mem_cons_self, hplain⟩) _, hs⟩
  | pop =>
    cases stack with
    | nil => exact ⟨trivial, hs⟩
    | cons v rest => exact ⟨.next h (forall_mem_cons.1 hplain).2 _, hs⟩
  | swap =>
    rcases stack with _ | ⟨v, _ | ⟨w, rest⟩⟩
    · exact ⟨trivial, hs⟩
    · exact ⟨trivial, hs⟩
    · simp only [forall_mem_cons] at hplain
      refine ⟨.next h ?_ _, hs⟩
      simp only [forall_mem_cons]
      exact ⟨hplain.2.1, hplain.1, hplain.2.2⟩
  | binary op =>
    rcases stack with _ | ⟨right, _ | ⟨left, rest⟩⟩
    · exact ⟨trivial, hs⟩
    · exact ⟨trivial, hs⟩
    · simp only [forall_mem_cons] at hplain
      exact ⟨.computed h hplain.2.2 rfl (op.ordinary_apply _ left right),
        ordinary_computed hs _ _⟩
  | unary op =>
    cases stack with
    | nil => exact ⟨trivial, hs⟩
    | cons v rest =>
      exact ⟨.computed h (forall_mem_cons.1 hplain).2 rfl (op.ordinary_apply _ v),
        ordinary_computed hs _ _⟩
  | invoke c =>
    simp only [Activation.exec]
    split
    · rename_i args rest htake
      obtain ⟨hargs, hrest⟩ := forall_of_take? htake hplain
      exact ⟨⟨rfl, hargs, rfl, hrest⟩, hs⟩
    · exact ⟨trivial, hs⟩
  | construct cls argc =>
    simp only [Activation.exec]
    split
    · rename_i fields rest htake
      obtain ⟨hfields, hrest⟩ := forall_of_take? htake hplain
      refine ⟨⟨h.locals, forall_mem_cons.2 ⟨?_, hrest⟩⟩, hs.outcomes, hs.slots, hs.ambient⟩
      exact Value.ordinary_object.2 hfields
    · exact ⟨trivial, hs⟩
  | monitorEnter =>
    cases stack with
    | nil => exact ⟨trivial, hs⟩
    | cons v rest => exact ⟨⟨h.locals, (forall_mem_cons.1 hplain).2⟩, hs⟩
  | monitorExit =>
    cases stack with
    | nil => exact ⟨trivial, hs⟩
    | cons v rest =>
      simp only [Activation.exec]
      split
      · exact ⟨trivial, hs⟩
      · exact ⟨⟨h.locals, (forall_mem_cons.1 hplain).2⟩, hs⟩
  | closure method captures =>
    simp only [Activation.exec]
    split
    · rename_i values rest htake
      obtain ⟨hvalues, hrest⟩ := forall_of_take? htake hplain
      refine ⟨⟨h.locals, forall_mem_cons.2 ⟨?_, hrest⟩⟩, hs.outcomes, hs.slots, hs.ambient⟩
      exact Value.ordinary_closure.2 hvalues
    · exact ⟨trivial, hs⟩
  | callClosure argc ret =>
    simp only [Activation.exec]
    split
    · rename_i args identity method captures rest htake
      obtain ⟨hargs, hrest⟩ := forall_of_take? htake hplain
      obtain ⟨hclosure, hrest⟩ := forall_mem_cons.1 hrest
      refine ⟨⟨rfl, fun v hv => ?_, rfl, hrest⟩, hs⟩
      rcases mem_append.1 hv with hv | hv
      · exact Value.ordinary_closure.1 hclosure v hv
      · exact hargs v hv
    · exact ⟨trivial, hs⟩
    · exact ⟨trivial, hs⟩
  | futureIsDone =>
    simp only [Activation.exec, Activation.withFuture]
    split
    · rename_i q rest
      exact ⟨.next h (forall_mem_cons.2 ⟨Value.ordinary_bool _,
        (forall_mem_cons.1 hplain).2⟩) _, hs⟩
    · exact ⟨trivial, hs⟩
    · exact ⟨trivial, hs⟩
  | futureJoin =>
    simp only [Activation.exec, Activation.withFuture]
    split
    · rename_i q rest
      split
      · rename_i x hx
        have hrest := (forall_mem_cons.1 hplain).2
        refine ⟨.unwrapped h hrest rfl (hs.outcomes q x (Store.outcome?_eq_some.1 hx)), ?_⟩
        cases x <;> exact hs
      · exact ⟨trivial, hs⟩
    · exact ⟨trivial, hs⟩
    · exact ⟨trivial, hs⟩
  | outcomeUnwrap =>
    simp only [Activation.exec]
    split
    · rename_i x rest
      obtain ⟨hx, hrest⟩ := forall_mem_cons.1 hplain
      refine ⟨.unwrapped h hrest rfl (Value.ordinary_outcome.1 hx), ?_⟩
      cases x <;> exact hs
    · exact ⟨.next h hplain _, hs⟩
    · exact ⟨trivial, hs⟩
    · exact ⟨trivial, hs⟩
  | _ => cases hi

theorem Holds.exec_frameNew (h : σ.Holds s used o a) (hs : s.Ordinary)
    (hused : ∀ f, used f → f < s.frames.size) (htop : σ.top = .own) (n : Nat) :
    (σ.pop.push .fresh).Follows used o (.frameNew n) a (a.exec s (.frameNew n)) ∧
      (a.exec s (.frameNew n)).1.Ordinary := by
  simp only [Activation.exec, Activation.withFuture]
  split
  · rename_i q rest hstack
    have hcons := h.stack
    rw [hstack, ofStack_cons] at hcons
    have hq : (Mark.own).Holds s used o (.future q) := htop ▸ hcons.1
    cases hq
    have hext : s.Extends (s.newFrame o n).1 :=
      (Store.evolves_newFrame (C := fun _ => True) s o n).toExtends
    have houter : (s.newFrame o n).1.outer? s.frames.size = some o := by
      simp [Store.outer?, Store.newFrame]
    have hfresh : ¬ used s.frames.size := fun hu => Nat.lt_irrefl _ (hused _ hu)
    exact ⟨(h.mono hext).advance ⟨⟨s.frames.size, rfl, houter, hfresh⟩, hcons.2.mono hext⟩,
      hs.newFrame o n⟩
  · exact ⟨trivial, hs⟩
  · exact ⟨trivial, hs⟩

theorem Holds.exec_frameLoad (h : σ.Holds s used o a) (hs : s.Ordinary)
    (hl : (σ.locals l).isFrame = true) (slot : Nat) :
    (σ.push .plain).Follows used o (.frameLoad l slot) a (a.exec s (.frameLoad l slot)) ∧
      (a.exec s (.frameLoad l slot)).1.Ordinary := by
  obtain ⟨f, hf, -⟩ := h.frame hl
  simp only [Activation.exec, Activation.withFrame, hf]
  split
  · rename_i v hv
    refine ⟨h.push ?_, hs⟩
    simp only [Store.loadSlot?, Store.slots] at hv
    cases hframe : s.frames[f]? with
    | none => simp [hframe] at hv
    | some frame =>
      simp only [hframe, Option.map_some, Option.getD_some] at hv
      exact hs.slots f frame hframe v (mem_of_getElem? hv)
  · exact ⟨trivial, hs⟩

theorem Holds.exec_frameStore (h : σ.Holds s used o a) (hs : s.Ordinary)
    (hl : (σ.locals l).isFrame = true) (htop : σ.top = .plain) (slot : Nat) :
    σ.pop.Follows used o (.frameStore l slot) a (a.exec s (.frameStore l slot)) ∧
      (a.exec s (.frameStore l slot)).1.Ordinary := by
  obtain ⟨f, hf, -⟩ := h.frame hl
  simp only [Activation.exec, Activation.withFrame, hf]
  split
  · rename_i v rest hstack
    have hcons := h.stack
    rw [hstack, ofStack_cons] at hcons
    have hv : Mark.plain.Holds s used o v := htop ▸ hcons.1
    split
    · rename_i t ht
      have hext : s.Extends t := (Store.evolves_storeSlot? (C := fun _ => True) ht).toExtends
      exact ⟨(h.mono hext).advance (hcons.2.mono hext), hs.storeSlot? ht hv⟩
    · exact ⟨trivial, hs⟩
  · exact ⟨trivial, hs⟩

/-- **One instruction keeps to the marks**, and the store stays ordinary. -/
theorem Holds.exec (h : σ.Holds s used o a) (hs : s.Ordinary)
    (hused : ∀ f, used f → f < s.frames.size) (hi : i.marks? σ = some τ) :
    τ.Follows used o i a (a.exec s i) ∧ (a.exec s i).1.Ordinary := by
  cases i with
  | push c =>
    cases hi
    exact ⟨h.push (Value.ordinary_ofConst c), hs⟩
  | load l =>
    simp only [Instr.marks?] at hi
    split at hi
    · cases hi
    · cases hi
      exact ⟨h.push (h.locals l), hs⟩
  | store l =>
    cases hi
    simp only [Activation.exec]
    split
    · rename_i v rest hstack
      have hcons := h.stack
      rw [hstack, ofStack_cons] at hcons
      exact ⟨(h.set hcons.1 l).advance hcons.2, hs⟩
    · exact ⟨trivial, hs⟩
  | frameNew n =>
    simp only [Instr.marks?] at hi
    split at hi
    · rename_i htop
      cases hi
      exact h.exec_frameNew hs hused htop n
    · cases hi
  | frameLoad l slot =>
    simp only [Instr.marks?] at hi
    split at hi
    · rename_i hl
      cases hi
      exact h.exec_frameLoad hs hl slot
    · cases hi
  | frameStore l slot =>
    simp only [Instr.marks?] at hi
    split at hi
    · rename_i hl
      cases hi
      exact h.exec_frameStore hs hl.1 hl.2 slot
    · cases hi
  | frameOuter l =>
    simp only [Instr.marks?] at hi
    split at hi
    · rename_i hl
      cases hi
      obtain ⟨f, hf, houter⟩ := h.frame hl
      simp only [Activation.exec, Activation.withFrame, hf, houter]
      exact ⟨h.push rfl, hs⟩
    · cases hi
  | _ =>
    simp only [Instr.marks?] at hi
    split at hi
    · rename_i hplain
      cases hi
      refine h.exec_ordinary hs (h.stack.plain fun k hk => ?_) hplain.1
      simpa using all_eq_true.1 hplain.2 k hk
    · cases hi

/-- An instruction that can throw works on ordinary values. -/
theorem marks?_of_raises (hi : i.marks? σ = some τ) (hraises : i.raises = true) :
    τ = ⟨σ.locals, []⟩ := by
  cases i with
  | binary _ | unary _ | invoke _ | callClosure _ _ | futureJoin | outcomeUnwrap =>
    simp only [Instr.marks?] at hi
    split at hi
    · cases hi
      rfl
    · cases hi
  | _ => cases hraises

theorem events_of_marks? (hi : i.marks? σ = some τ) : i.events = [] := by
  cases i with
  | futureNew => simp [Instr.marks?, Instr.isOrdinary] at hi
  | _ => rfl

end Marks

end

end Resumable
