/-
**Ordinary values.**

Frames belong to the protocol between entries and dispatchers: code of its own never gets hold of
one.  A value is *ordinary* if it holds no frame, and no promise that does not exist.  Operators
make ordinary values, and so do native functions that only pass on what they were given.

Main results:

* `UnaryOp.ordinary_apply`, `BinaryOp.ordinary_apply` — what operators compute is ordinary;
* `Native.ordinary_builtins` — **the native functions of every program make up no cells**.
-/

import Resumable.Proofs.Renaming
import Resumable.Proofs.Discipline
import Resumable.Proofs.Sequences

set_option autoImplicit false

namespace Resumable

/-! ### Ordinary values -/

namespace Value

/-- A value that names certain cells names only such cells as these imply. -/
theorem Names.imp {P Q F G : Nat → Prop} (hP : ∀ p, P p → Q p) (hF : ∀ f, F f → G f) :
    ∀ {v : Value}, v.Names P F → v.Names Q G
  | .object _ _ fields, h => by
    simp only [Names] at h ⊢
    exact fun v hv => Names.imp hP hF (h v hv)
  | .closure _ _ captures, h => by
    simp only [Names] at h ⊢
    exact fun v hv => Names.imp hP hF (h v hv)
  | .outcome (.fulfilled v), h => by
    simp only [Names] at h ⊢
    exact Names.imp hP hF h
  | .outcome (.rejected e), h => by
    simp only [Names] at h ⊢
    exact Names.imp hP hF h
  | .future p, h => by
    simp only [Names] at h ⊢
    exact hP p h
  | .frame f, h => by
    simp only [Names] at h ⊢
    exact hF f h
  | .null, _ | .bool _, _ | .int _, _ | .float _, _ | .str _, _ => by simp only [Names]

/-- **An ordinary value**: it names none but the first `n` promises, and no frame. -/
def Ordinary (n : Nat) (v : Value) : Prop := v.Names (· < n) fun _ => False

/-- An ordinary value stays ordinary as promises are added. -/
theorem Ordinary.mono {n k : Nat} {v : Value} (h : v.Ordinary n) (hnk : n ≤ k) : v.Ordinary k :=
  Names.imp (fun _ hp => Nat.lt_of_lt_of_le hp hnk) (fun _ hf => hf) h

variable {n : Nat}

@[simp] theorem ordinary_future {q : Nat} : (future q).Ordinary n ↔ q < n := by
  simp only [Ordinary, Names]

/-- Frames are not ordinary values. -/
@[simp] theorem not_ordinary_frame {f : Nat} : ¬ (frame f).Ordinary n := by
  simp [Ordinary, Names]

@[simp] theorem ordinary_outcome {o : Outcome Value} :
    (outcome o).Ordinary n ↔ o.payload.Ordinary n := by
  cases o <;> simp only [Ordinary, Names, Outcome.payload]

@[simp] theorem ordinary_object {i : Nat} {cls : String} {vs : List Value} :
    (object i cls vs).Ordinary n ↔ ∀ v ∈ vs, v.Ordinary n := by
  simp only [Ordinary, Names]

@[simp] theorem ordinary_closure {i : Nat} {method : String} {vs : List Value} :
    (closure i method vs).Ordinary n ↔ ∀ v ∈ vs, v.Ordinary n := by
  simp only [Ordinary, Names]

@[simp] theorem ordinary_null : null.Ordinary n := by simp only [Ordinary, Names]

@[simp] theorem ordinary_bool (b : Bool) : (bool b).Ordinary n := by simp only [Ordinary, Names]

@[simp] theorem ordinary_int (x : Int64) : (int x).Ordinary n := by simp only [Ordinary, Names]

@[simp] theorem ordinary_float (x : Float) : (float x).Ordinary n := by
  simp only [Ordinary, Names]

@[simp] theorem ordinary_str (s : String) : (str s).Ordinary n := by simp only [Ordinary, Names]

/-- Constants are ordinary. -/
theorem ordinary_ofConst (c : Const) : (ofConst c).Ordinary n := by
  cases c <;> simp [ofConst]

end Value

/-! ### Operators -/

/-- The value of an operator, if it has one, is ordinary. -/
def Computed.Ordinary (n : Nat) : Computed → Prop
  | .value v => v.Ordinary n
  | .divisionByZero | .mismatch _ => True

/-- A unary operator makes no cells. -/
theorem UnaryOp.ordinary_apply (n : Nat) (op : UnaryOp) (v : Value) : (op.apply v).Ordinary n := by
  unfold apply
  split <;> simp [Computed.Ordinary]

/-- Nor does a binary operator, whatever its operands are. -/
theorem BinaryOp.ordinary_apply (n : Nat) (op : BinaryOp) (v w : Value) :
    (op.apply v w).Ordinary n := by
  have hints : ∀ x y, (op.onInts x y).Ordinary n := by
    intro x y
    unfold onInts
    repeat' split
    all_goals simp [Computed.Ordinary]
  have hfloats : ∀ x y, (op.onFloats x y).Ordinary n := by
    intro x y
    unfold onFloats
    split <;> simp [Computed.Ordinary]
  unfold apply
  split
  case h_6 =>
    unfold onValues
    split
    · exact hints _ _
    · exact hfloats _ _
    · exact hfloats _ _
    · exact hfloats _ _
    · trivial
  all_goals simp [Computed.Ordinary]

/-! ### Native functions -/

/-- The ambient values are ordinary. -/
def Ambient.Ordinary (n : Nat) (ambient : Ambient) : Prop := ∀ c ∈ ambient, c.2.Ordinary n

/-- A request that hands out ordinary values. -/
def Request.Ordinary (n : Nat) : Request → Prop
  | .answer v | .throw v | .assign _ v => v.Ordinary n
  | .settled o => ∀ v, o.payload = .value v → v.Ordinary n
  | .invoke _ args => ∀ v ∈ args, v.Ordinary n
  | .note _ | .pending _ | .lookup _ => True

/-- **A native function that makes up no cells**: given ordinary values, it hands out ordinary
ones. -/
def Native.Ordinary (f : Native) (n : Nat) (calls : List NativeCall) : Prop :=
  ∀ args : List Value, (∀ v ∈ args, v.Ordinary n) → (f calls args).Ordinary n

/-- An argument is ordinary if all are; one that is missing is null. -/
theorem Native.ordinary_arg {n : Nat} {args : List Value} (h : ∀ v ∈ args, v.Ordinary n) (i : Nat) :
    (arg args i).Ordinary n := by
  unfold arg
  cases hi : args[i]? with
  | none => exact Value.ordinary_null
  | some v => exact h v (List.mem_of_getElem? hi)

/-- **The functions that every program has make up no cells.** -/
theorem Native.ordinary_builtins {name : String} {f : Native} (h : builtins.lookup name = some f)
    (n : Nat) (calls : List NativeCall) : f.Ordinary n calls := by
  intro args hargs
  have hmem := mem_of_lookup_eq_some h
  simp only [builtins, List.mem_cons, Prod.mk.injEq, List.not_mem_nil, or_false] at hmem
  rcases hmem with ⟨-, rfl⟩ | ⟨-, rfl⟩ | ⟨-, rfl⟩ | ⟨-, rfl⟩
  · intro v hv
    cases hv
    exact ordinary_arg hargs 0
  · intro v hv
    cases hv
    exact ordinary_arg hargs 0
  · trivial
  · exact ordinary_arg hargs 1

/-! ### Stores -/

/-- **A store that holds ordinary values only.** -/
structure Store.Ordinary (s : Store) : Prop where
  outcomes : ∀ (q : Nat) (o : Outcome Value), s.promises[q]? = some (.settled o) →
    o.payload.Ordinary s.promises.size
  slots : ∀ (f : Nat) (frame : Frame), s.frames[f]? = some frame →
    ∀ v ∈ frame.slots, v.Ordinary s.promises.size
  ambient : s.ambient.Ordinary s.promises.size

end Resumable
