/-
**Renaming the cells of a store.**

Promises and frames are known by their numbers, and programs cannot tell one numbering from another:
nothing that a program can test changes when the cells are numbered differently.  A renaming says
which number each promise and each frame has in another store.  The other store may have cells of
its own, which no number is renamed to.

Main results:

* `Value.same_rename`, `Value.text_rename`, `BinaryOp.apply_rename` — programs cannot tell;
* `Value.rename_of_within` — a renaming that leaves the cells of a value alone leaves it alone;
* `Store.Renamed.addPromise`, `Store.Renamed.settle?`, … — **the operations of a store keep it
  renamed**.
-/

import Mathlib.Logic.Relation
import Resumable.Machine.Step
import Resumable.Machine.View

set_option autoImplicit false

namespace Resumable

open List

/-! ### Renamings -/

/-- New numbers for promises and frames; different cells keep different numbers. -/
structure Renaming where
  promise : Nat → Nat
  frame : Nat → Nat
  promise_inj : ∀ {a b : Nat}, promise a = promise b → a = b
  frame_inj : ∀ {a b : Nat}, frame a = frame b → a = b

mutual

/-- The value with its cells renamed. -/
def Value.rename (ρ : Renaming) : Value → Value
  | .object identity cls fields => .object identity cls (Value.renameList ρ fields)
  | .future p => .future (ρ.promise p)
  | .frame f => .frame (ρ.frame f)
  | .outcome o => .outcome (Value.renameOutcome ρ o)
  | .closure identity method captures => .closure identity method (Value.renameList ρ captures)
  | .null => .null
  | .bool b => .bool b
  | .int n => .int n
  | .float x => .float x
  | .str s => .str s

/-- The values with their cells renamed. -/
def Value.renameList (ρ : Renaming) : List Value → List Value
  | [] => []
  | v :: vs => v.rename ρ :: Value.renameList ρ vs

/-- The outcome with its cells renamed. -/
def Value.renameOutcome (ρ : Renaming) : Outcome Value → Outcome Value
  | .fulfilled v => .fulfilled (v.rename ρ)
  | .rejected e => .rejected (e.rename ρ)

end

/-- Renaming in a list of values is renaming each of them. -/
@[simp] theorem Value.renameList_eq_map (ρ : Renaming) (vs : List Value) :
    Value.renameList ρ vs = vs.map (Value.rename ρ) := by
  induction vs with
  | nil => rfl
  | cons v vs ih => rw [Value.renameList, ih, map_cons]

@[simp] theorem Value.renameOutcome_eq_map (ρ : Renaming) (o : Outcome Value) :
    Value.renameOutcome ρ o = o.map (Value.rename ρ) := by
  cases o <;> rfl

/-- The renaming that changes nothing. -/
def Renaming.id : Renaming := ⟨fun p => p, fun f => f, fun h => h, fun h => h⟩

theorem Renaming.id_promise (p : Nat) : Renaming.id.promise p = p := rfl

/-- The renaming that leaves one promise and one frame out: the numbers from there on are one
higher. -/
def Renaming.skip (promise frame : Nat) : Renaming where
  promise p := if p < promise then p else p + 1
  frame f := if f < frame then f else f + 1
  promise_inj := by
    intro a b h
    split at h <;> split at h <;> omega
  frame_inj := by
    intro a b h
    split at h <;> split at h <;> omega

/-- Nothing is renamed to the cell that is skipped. -/
theorem Renaming.skip_promise_ne (promise frame : Nat) (p : Nat) :
    (Renaming.skip promise frame).promise p ≠ promise := by
  simp only [skip]
  split <;> omega

/-! ### Values -/

namespace Value

variable (ρ : Renaming)

/-- The type of a value does not depend on the numbers of cells. -/
@[simp] theorem typeName_rename (v : Value) : (v.rename ρ).typeName = v.typeName := by
  cases v <;> rfl

@[simp] theorem className?_rename (v : Value) : (v.rename ρ).className? = v.className? := by
  cases v <;> rfl

@[simp] theorem rename_ofConst (c : Const) : (ofConst c).rename ρ = ofConst c := by
  cases c <;> rfl

/-- Nor does the text of a value. -/
@[simp] theorem text_rename : ∀ v : Value, (v.rename ρ).text = v.text
  | .object identity cls [] => rfl
  | .object identity cls (v :: vs) => by cases v <;> rfl
  | .outcome (.fulfilled v) => by
    simp only [rename, renameOutcome, text, text_rename v]
  | .outcome (.rejected e) => by
    simp only [rename, renameOutcome, text, text_rename e]
  | .null | .bool _ | .int _ | .float _ | .str _ | .future _ | .frame _ | .closure _ _ _ => rfl

/-- Different promises stay different. -/
theorem promise_beq (p q : Nat) : (ρ.promise p == ρ.promise q) = (p == q) := by
  rw [Bool.eq_iff_iff, beq_iff_eq, beq_iff_eq]
  exact ⟨ρ.promise_inj, congrArg ρ.promise⟩

/-- **Values are the same after renaming iff they were before.** -/
@[simp] theorem same_rename (v w : Value) : (v.rename ρ).same (w.rename ρ) = v.same w := by
  cases v with
  | future p =>
    cases w with
    | future q => exact promise_beq ρ p q
    | _ => rfl
  | _ => cases w <;> rfl

/-- Every promise that the value names satisfies `P`, and every frame `F`. -/
def Names (P F : Nat → Prop) : Value → Prop
  | .object _ _ fields => ∀ v ∈ fields, v.Names P F
  | .future p => P p
  | .frame f => F f
  | .outcome (.fulfilled v) => v.Names P F
  | .outcome (.rejected e) => e.Names P F
  | .closure _ _ captures => ∀ v ∈ captures, v.Names P F
  | _ => True

/-- The value names only promises and frames below the given numbers. -/
def Within (promises frames : Nat) (v : Value) : Prop := v.Names (· < promises) (· < frames)

/-- A renaming that leaves the cells of a value alone leaves it alone. -/
theorem rename_of_names {ρ : Renaming} {P F : Nat → Prop} (hP : ∀ p, P p → ρ.promise p = p)
    (hF : ∀ f, F f → ρ.frame f = f) : ∀ v : Value, v.Names P F → v.rename ρ = v
  | .object identity cls fields, h => by
    have hall : ∀ v ∈ fields, v.rename ρ = v := fun v hv =>
      rename_of_names hP hF v (by simp only [Names] at h; exact h v hv)
    rw [rename, renameList_eq_map, map_congr_left hall, List.map_id']
  | .closure identity method captures, h => by
    have hall : ∀ v ∈ captures, v.rename ρ = v := fun v hv =>
      rename_of_names hP hF v (by simp only [Names] at h; exact h v hv)
    rw [rename, renameList_eq_map, map_congr_left hall, List.map_id']
  | .outcome (.fulfilled v), h => by
    rw [rename, renameOutcome, rename_of_names hP hF v (by simpa only [Names] using h)]
  | .outcome (.rejected e), h => by
    rw [rename, renameOutcome, rename_of_names hP hF e (by simpa only [Names] using h)]
  | .future p, h => by rw [rename, hP p (by simpa only [Names] using h)]
  | .frame f, h => by rw [rename, hF f (by simpa only [Names] using h)]
  | .null, _ | .bool _, _ | .int _, _ | .float _, _ | .str _, _ => rfl

theorem names_true : ∀ v : Value, v.Names (fun _ => True) (fun _ => True)
  | .object _ _ fields => by
    simp only [Names]
    intro v hv
    exact names_true v
  | .closure _ _ captures => by
    simp only [Names]
    intro v hv
    exact names_true v
  | .outcome (.fulfilled v) => by
    simp only [Names]
    exact names_true v
  | .outcome (.rejected e) => by
    simp only [Names]
    exact names_true e
  | .future _ | .frame _ | .null | .bool _ | .int _ | .float _ | .str _ => by simp [Names]

/-- Where every cell keeps its number, values stay as they are. -/
@[simp] theorem rename_id (v : Value) : v.rename .id = v :=
  rename_of_names (fun _ _ => rfl) (fun _ _ => rfl) v v.names_true

end Value

/-! ### Operators -/

/-- The result of an operator, renamed. -/
def Computed.rename (ρ : Renaming) : Computed → Computed
  | .value v => .value (v.rename ρ)
  | .divisionByZero => .divisionByZero
  | .mismatch m => .mismatch m

section Operators

variable (ρ : Renaming)

theorem UnaryOp.apply_rename (op : UnaryOp) (v : Value) :
    op.apply (v.rename ρ) = (op.apply v).rename ρ := by
  cases op <;> cases v <;> rfl

theorem BinaryOp.onInts_rename (op : BinaryOp) (x y : Int64) :
    (op.onInts x y).rename ρ = op.onInts x y := by
  cases op with
  | div | rem =>
    simp only [onInts]
    split <;> rfl
  | _ => rfl

theorem BinaryOp.onFloats_rename (op : BinaryOp) (x y : Float) :
    (op.onFloats x y).rename ρ = op.onFloats x y := by
  cases op <;> rfl

/-- A binary operator on renamed values gives the renamed result. -/
theorem BinaryOp.onValues_rename (op : BinaryOp) (v w : Value) :
    op.onValues (v.rename ρ) (w.rename ρ) = (op.onValues v w).rename ρ := by
  cases v with
  | int x =>
    cases w with
    | int y => exact (onInts_rename ρ op x y).symm
    | float y => exact (onFloats_rename ρ op x.toFloat y).symm
    | _ => rfl
  | float x =>
    cases w with
    | int y => exact (onFloats_rename ρ op x y.toFloat).symm
    | float y => exact (onFloats_rename ρ op x y).symm
    | _ => rfl
  | _ => exact congrArg (fun sort => Computed.mismatch (.binaryOn op _ sort)) (w.typeName_rename ρ)

/-- **Operators do not depend on the numbers of cells.** -/
theorem BinaryOp.apply_rename (op : BinaryOp) (v w : Value) :
    op.apply (v.rename ρ) (w.rename ρ) = (op.apply v w).rename ρ := by
  cases op with
  | eq => exact congrArg (fun b => Computed.value (.bool b)) (v.same_rename ρ w)
  | ne => exact congrArg (fun b => Computed.value (.bool !b)) (v.same_rename ρ w)
  | and =>
    cases v with
    | bool x => cases w <;> rfl
    | int x => exact onValues_rename ρ .and (.int x) w
    | float x => exact onValues_rename ρ .and (.float x) w
    | _ => exact congrArg (fun t => Computed.mismatch (.binaryOn .and _ t)) (w.typeName_rename ρ)
  | or =>
    cases v with
    | bool x => cases w <;> rfl
    | int x => exact onValues_rename ρ .or (.int x) w
    | float x => exact onValues_rename ρ .or (.float x) w
    | _ => exact congrArg (fun t => Computed.mismatch (.binaryOn .or _ t)) (w.typeName_rename ρ)
  | add =>
    cases v with
    | str x => exact congrArg (fun t => Computed.value (.str (x ++ t))) (w.text_rename ρ)
    | int x => exact onValues_rename ρ .add (.int x) w
    | float x => exact onValues_rename ρ .add (.float x) w
    | _ => exact congrArg (fun t => Computed.mismatch (.binaryOn .add _ t)) (w.typeName_rename ρ)
  | _ => exact onValues_rename ρ _ v w

end Operators

/-! ### Cells, calls and requests -/

section Companions

variable (ρ : Renaming)

/-- The ambient context with its cells renamed. -/
def Ambient.rename (a : Ambient) : Ambient := a.map fun c => (c.1, c.2.rename ρ)

/-- The callback with its cells renamed. -/
def Callback.rename : Callback → Callback
  | .adopt p => .adopt (ρ.promise p)
  | .resume dispatcher state frame ambient =>
    .resume dispatcher state (ρ.frame frame) (Ambient.rename ρ ambient)
  | .note tag => .note tag

/-- The promise with its cells renamed. -/
def Promise.rename : Promise → Promise
  | .pending waiting => .pending (waiting.map (Callback.rename ρ))
  | .settled o => .settled (o.map (Value.rename ρ))

/-- The frame with its cells renamed. -/
def Frame.rename (f : Frame) : Frame :=
  { outer := ρ.promise f.outer, slots := f.slots.map (Value.rename ρ) }

/-- The call with its cells renamed. -/
def NativeCall.rename (c : NativeCall) : NativeCall := ⟨c.name, c.args.map (Value.rename ρ)⟩

/-- The payload with its cells renamed. -/
def Payload.rename : Payload → Payload
  | .value v => .value (v.rename ρ)
  | .exception cls message => .exception cls message

/-- The request with its cells renamed. -/
def Request.rename : Request → Request
  | .answer v => .answer (v.rename ρ)
  | .throw v => .throw (v.rename ρ)
  | .note line => .note line
  | .pending tag => .pending tag
  | .settled o => .settled (o.map (Payload.rename ρ))
  | .lookup key => .lookup key
  | .assign key v => .assign key (v.rename ρ)
  | .invoke name args => .invoke name (args.map (Value.rename ρ))

/-- The exception or fault with its cells renamed. -/
def Unwind.rename : Unwind → Unwind
  | .throw e => .throw (e.rename ρ)
  | .fault f => .fault f

/-- Every promise that the callback names satisfies `P`, and every frame `F`. -/
def Callback.Names (P F : Nat → Prop) : Callback → Prop
  | .adopt p => P p
  | .resume _ _ f ambient => F f ∧ ∀ c ∈ ambient, c.2.Names P F
  | .note _ => True

/-- Every promise that the promise names satisfies `P`, and every frame `F`. -/
def Promise.Names (P F : Nat → Prop) : Promise → Prop
  | .pending waiting => ∀ c ∈ waiting, c.Names P F
  | .settled (.fulfilled v) => v.Names P F
  | .settled (.rejected e) => e.Names P F

section Fixed

variable {ρ} {P F : Nat → Prop} (hP : ∀ p, P p → ρ.promise p = p) (hF : ∀ f, F f → ρ.frame f = f)
include hP hF

/-- Values whose cells keep their numbers stay as they are. -/
theorem Value.map_rename_of_names {vs : List Value} (h : ∀ v ∈ vs, v.Names P F) :
    vs.map (Value.rename ρ) = vs := by
  rw [map_congr_left fun v hv => Value.rename_of_names hP hF v (h v hv), List.map_id']

theorem Ambient.rename_of_names {a : Ambient} (h : ∀ c ∈ a, c.2.Names P F) :
    Ambient.rename ρ a = a := by
  have hc : ∀ c ∈ a, (c.1, c.2.rename ρ) = c :=
    fun c hc => by rw [Value.rename_of_names hP hF _ (h c hc)]
  rw [Ambient.rename, map_congr_left hc, List.map_id']

theorem Callback.rename_of_names {c : Callback} (h : c.Names P F) : c.rename ρ = c := by
  cases c with
  | adopt p => rw [rename, hP p h]
  | resume d k f a => rw [rename, hF f h.1, Ambient.rename_of_names hP hF h.2]
  | note tag => rfl

/-- So does a promise, with its outcome or its callbacks. -/
theorem Promise.rename_of_names {p : Promise} (h : p.Names P F) : p.rename ρ = p := by
  cases p with
  | pending waiting =>
    rw [rename, map_congr_left fun c hc => Callback.rename_of_names hP hF (h c hc),
      List.map_id']
  | settled o =>
    cases o with
    | fulfilled v => rw [rename, Outcome.map, Value.rename_of_names hP hF v h]
    | rejected e => rw [rename, Outcome.map, Value.rename_of_names hP hF e h]

theorem Frame.rename_of_names {f : Frame} (h : P f.outer) (h' : ∀ v ∈ f.slots, v.Names P F) :
    f.rename ρ = f := by
  rw [rename, hP _ h, Value.map_rename_of_names hP hF h']

theorem NativeCall.rename_of_names {c : NativeCall} (h : ∀ v ∈ c.args, v.Names P F) :
    c.rename ρ = c := by
  rw [rename, Value.map_rename_of_names hP hF h]

end Fixed

@[simp] theorem Value.map_rename_id (vs : List Value) : vs.map (Value.rename .id) = vs :=
  Value.map_rename_of_names (fun _ _ => rfl) (fun _ _ => rfl) fun v _ => v.names_true

@[simp] theorem Ambient.rename_id (a : Ambient) : Ambient.rename .id a = a :=
  Ambient.rename_of_names (fun _ _ => rfl) (fun _ _ => rfl) fun c _ => c.2.names_true

@[simp] theorem Promise.rename_id (p : Promise) : p.rename .id = p := by
  refine Promise.rename_of_names (P := fun _ => True) (F := fun _ => True) (fun _ _ => rfl)
    (fun _ _ => rfl) ?_
  cases p with
  | pending waiting =>
    intro c _
    cases c with
    | resume d k f a => exact ⟨trivial, fun c _ => c.2.names_true⟩
    | _ => trivial
  | settled o => cases o <;> exact Value.names_true _

@[simp] theorem Frame.rename_id (f : Frame) : f.rename .id = f :=
  Frame.rename_of_names (fun _ _ => rfl) (fun _ _ => rfl) trivial fun v _ => v.names_true

@[simp] theorem NativeCall.rename_id (c : NativeCall) : c.rename .id = c :=
  NativeCall.rename_of_names (fun _ _ => rfl) (fun _ _ => rfl) fun v _ => v.names_true

theorem NativeCall.map_rename_id (cs : List NativeCall) : cs.map (NativeCall.rename .id) = cs := by
  rw [map_congr_left fun c _ => c.rename_id, List.map_id']

@[simp] theorem Request.rename_id (r : Request) : r.rename .id = r := by
  cases r with
  | settled o =>
    have hp : ∀ p : Payload, p.rename .id = p := by
      intro p
      cases p with
      | value v => exact congrArg Payload.value v.rename_id
      | exception cls message => rfl
    cases o <;> simp only [rename, Outcome.map, hp]
  | _ => simp [rename]

/-- **A native function that does not look at the numbers of cells**: asked the same with the cells
renamed, it requests the same with the cells renamed. -/
def Native.Uniform (f : Native) : Prop :=
  ∀ (history : List NativeCall) (args : List Value),
    f (history.map (NativeCall.rename ρ)) (args.map (Value.rename ρ)) = (f history args).rename ρ

/-- Without a renaming there is nothing to look at. -/
theorem Native.uniform_id (f : Native) : Native.Uniform .id f := by
  intro history args
  rw [NativeCall.map_rename_id, Value.map_rename_id, Request.rename_id]

theorem Native.firstText_rename (args : List Value) :
    Native.firstText (args.map (Value.rename ρ)) = Native.firstText args := by
  cases args with
  | nil => rfl
  | cons v vs => exact Value.text_rename ρ v

/-- The arguments of a native function are renamed one by one. -/
theorem Native.arg_rename (args : List Value) (i : Nat) :
    Native.arg (args.map (Value.rename ρ)) i = (Native.arg args i).rename ρ := by
  rw [Native.arg, Native.arg, getElem?_map]
  cases args[i]? <;> rfl

/-- The native functions of every program do not look at the numbers. -/
theorem Native.uniform_builtins {name : String} {f : Native}
    (h : (name, f) ∈ Native.builtins) : Native.Uniform ρ f := by
  intro history args
  simp only [Native.builtins, mem_cons, Prod.mk.injEq, not_mem_nil, or_false] at h
  obtain ⟨-, rfl⟩ | ⟨-, rfl⟩ | ⟨-, rfl⟩ | ⟨-, rfl⟩ := h <;>
    simp only [Native.arg_rename, Native.firstText_rename] <;> rfl

/-- An ambient value is found renamed. -/
theorem Ambient.get?_rename (a : Ambient) (key : String) :
    (Ambient.rename ρ a).get? key = (a.get? key).map (Value.rename ρ) := by
  unfold Ambient.get? Ambient.rename
  induction a with
  | nil => rfl
  | cons c a ih =>
    rw [map_cons, lookup_cons, lookup_cons]
    cases key == c.1 with
    | true => rfl
    | false => exact ih

/-- An ambient value is set renamed. -/
theorem Ambient.set_rename (a : Ambient) (key : String) (v : Value) :
    (Ambient.rename ρ a).set key (v.rename ρ) = Ambient.rename ρ (a.set key v) := by
  simp only [Ambient.set, Ambient.rename, map_cons, filter_map, Function.comp_def]

end Companions

/-! ### Stores -/

/-- **The store `t` is the store `s` with its cells renamed.**  Cells to which no cell of `s` is
renamed are as they are in `base`, and cells that are made next get corresponding numbers. -/
structure Store.Renamed (ρ : Renaming) (base s t : Store) : Prop where
  promises : ∀ c : Nat, t.promises[ρ.promise c]? = s.promises[c]?.map (Promise.rename ρ)
  newPromises : ∀ i, ρ.promise (s.promises.size + i) = t.promises.size + i
  ownPromises : ∀ c : Nat, (∀ q, ρ.promise q ≠ c) → t.promises[c]? = base.promises[c]?
  frames : ∀ c : Nat, t.frames[ρ.frame c]? = s.frames[c]?.map (Frame.rename ρ)
  newFrames : ∀ i, ρ.frame (s.frames.size + i) = t.frames.size + i
  ownFrames : ∀ c : Nat, (∀ f, ρ.frame f ≠ c) → t.frames[c]? = base.frames[c]?
  identities : t.identities = s.identities
  ambient : t.ambient = s.ambient.rename ρ
  log : t.log = s.log
  queue : t.queue = s.queue.map fun c => (c.1, ρ.promise c.2)
  calls : t.calls = s.calls.map (NativeCall.rename ρ)

namespace Store.Renamed

variable {ρ : Renaming} {base s t : Store}

/-- A store is itself with nothing renamed. -/
theorem refl (base s : Store) : Renamed .id base s s where
  promises c := by
    show s.promises[c]? = _
    cases s.promises[c]? <;> simp
  newPromises _ := rfl
  ownPromises c h := absurd rfl (h c)
  frames c := by
    show s.frames[c]? = _
    cases s.frames[c]? <;> simp
  newFrames _ := rfl
  ownFrames c h := absurd rfl (h c)
  identities := rfl
  ambient := (Ambient.rename_id _).symm
  log := rfl
  queue := (List.map_id' _).symm
  calls := (NativeCall.map_rename_id _).symm

/-- With nothing renamed, nothing else differs. -/
theorem eq_of_id (h : Renamed .id base s t) : t = s := by
  obtain ⟨promises, -, -, frames, -, -, identities, ambient, log, queue, calls⟩ := h
  have hpromises : t.promises = s.promises :=
    Array.ext_getElem? fun c => (promises c).trans (by cases s.promises[c]? <;> simp)
  have hframes : t.frames = s.frames :=
    Array.ext_getElem? fun c => (frames c).trans (by cases s.frames[c]? <;> simp)
  rw [Ambient.rename_id] at ambient
  rw [NativeCall.map_rename_id] at calls
  have hqueue : t.queue = s.queue := queue.trans (List.map_id' _)
  cases s
  cases t
  simp only at hpromises hframes identities ambient log hqueue calls
  subst hpromises hframes identities ambient log hqueue calls
  rfl

/-- The next promises of both stores correspond. -/
theorem fresh (h : Renamed ρ base s t) : ρ.promise s.promises.size = t.promises.size :=
  h.newPromises 0

theorem freshFrame (h : Renamed ρ base s t) : ρ.frame s.frames.size = t.frames.size :=
  h.newFrames 0

/-! #### Fields -/

/-- New objects have the same identity in both stores. -/
theorem newObject (h : Renamed ρ base s t) (cls : String) (fields : List Value) :
    Renamed ρ base (s.newObject cls fields).1
        (t.newObject cls (fields.map (Value.rename ρ))).1 ∧
      (t.newObject cls (fields.map (Value.rename ρ))).2 = (s.newObject cls fields).2.rename ρ := by
  refine ⟨{ h with identities := congrArg (· + 1) h.identities }, ?_⟩
  simp [Store.newObject, Value.rename, h.identities]

theorem newException (h : Renamed ρ base s t) (cls message : String) :
    Renamed ρ base (s.newException cls message).1 (t.newException cls message).1 ∧
      (t.newException cls message).2 = (s.newException cls message).2.rename ρ :=
  h.newObject cls [.str message]

theorem newClosure (h : Renamed ρ base s t) (method : String) (captures : List Value) :
    Renamed ρ base (s.newClosure method captures).1
        (t.newClosure method (captures.map (Value.rename ρ))).1 ∧
      (t.newClosure method (captures.map (Value.rename ρ))).2 =
        (s.newClosure method captures).2.rename ρ := by
  refine ⟨{ h with identities := congrArg (· + 1) h.identities }, ?_⟩
  simp [Store.newClosure, Value.rename, h.identities]

theorem note (h : Renamed ρ base s t) (line : String) :
    Renamed ρ base (s.note line) (t.note line) :=
  { h with log := congrArg (·.push line) h.log }

theorem setAmbient (h : Renamed ρ base s t) (a : Ambient) :
    Renamed ρ base { s with ambient := a } { t with ambient := a.rename ρ } :=
  { h with ambient := rfl }

theorem addCall (h : Renamed ρ base s t) (c : NativeCall) :
    Renamed ρ base { s with calls := c :: s.calls } { t with calls := c.rename ρ :: t.calls } :=
  { h with calls := by rw [map_cons, h.calls] }

/-! #### Promises -/

/-- Both stores get a new promise. -/
theorem pushPromise (h : Renamed ρ base s t) (p : Promise) :
    Renamed ρ base { s with promises := s.promises.push p }
      { t with promises := t.promises.push (p.rename ρ) } := by
  refine { h with promises := ?_, newPromises := ?_, ownPromises := ?_ }
  · intro c
    simp only [Array.getElem?_push]
    by_cases hc : c = s.promises.size
    · rw [if_pos hc, hc, if_pos h.fresh]
      rfl
    · have hne : ρ.promise c ≠ t.promises.size := fun heq =>
        hc (ρ.promise_inj (heq.trans h.fresh.symm))
      rw [if_neg hc, if_neg hne, h.promises]
  · intro i
    have := h.newPromises (1 + i)
    simp only [Array.size_push]
    rw [Nat.add_assoc, this, Nat.add_assoc]
  · intro c hc
    have hne : c ≠ t.promises.size := fun heq => hc _ (h.fresh.trans heq.symm)
    simp only [Array.getElem?_push, if_neg hne]
    exact h.ownPromises c hc

/-- A promise is replaced in both stores. -/
theorem setPromise (h : Renamed ρ base s t) {p : Nat} {old : Promise}
    (hp : s.promises[p]? = some old) (new : Promise) :
    Renamed ρ base { s with promises := s.promises.setIfInBounds p new }
      { t with promises := t.promises.setIfInBounds (ρ.promise p) (new.rename ρ) } := by
  have hlt : p < s.promises.size := (Array.getElem?_eq_some_iff.1 hp).1
  have hlt' : ρ.promise p < t.promises.size := by
    have := h.promises p
    rw [hp, Option.map_some] at this
    exact (Array.getElem?_eq_some_iff.1 this).1
  refine { h with promises := ?_, newPromises := ?_, ownPromises := ?_ }
  · intro c
    simp only [Array.getElem?_setIfInBounds]
    by_cases hc : p = c
    · rw [if_pos hc, if_pos (congrArg ρ.promise hc), if_pos hlt, if_pos hlt']
      rfl
    · have hne : ρ.promise p ≠ ρ.promise c := fun heq => hc (ρ.promise_inj heq)
      rw [if_neg hc, if_neg hne, h.promises]
  · simpa using h.newPromises
  · intro c hc
    simp only [Array.getElem?_setIfInBounds, if_neg (hc p)]
    exact h.ownPromises c hc

/-- A promise and its image have the same outcome, up to the renaming. -/
theorem outcome? (h : Renamed ρ base s t) (p : Nat) :
    t.outcome? (ρ.promise p) = (s.outcome? p).map (Outcome.map (Value.rename ρ)) := by
  rw [Store.outcome?, Store.outcome?, h.promises]
  cases s.promises[p]? with
  | none => rfl
  | some c => cases c <;> rfl

theorem isSettled (h : Renamed ρ base s t) (p : Nat) :
    t.isSettled (ρ.promise p) = s.isSettled p := by
  rw [Store.isSettled, Store.isSettled, h.outcome?, Option.isSome_map]

theorem newPromise (h : Renamed ρ base s t) :
    Renamed ρ base s.newPromise.1 t.newPromise.1 ∧ t.newPromise.2 = ρ.promise s.newPromise.2 :=
  ⟨h.pushPromise (.pending []), h.fresh.symm⟩

/-- **Settling** keeps the stores renamed and hands over the same callbacks. -/
theorem settle? (h : Renamed ρ base s t) (p : Nat) (o : Outcome Value) :
    (s.settle? p o = none ∧ t.settle? (ρ.promise p) (o.map (Value.rename ρ)) = none) ∨
      ∃ s' t' waiting, s.settle? p o = some (s', waiting) ∧
        t.settle? (ρ.promise p) (o.map (Value.rename ρ)) =
          some (t', waiting.map (Callback.rename ρ)) ∧ Renamed ρ base s' t' := by
  unfold Store.settle?
  rw [h.promises]
  cases hp : s.promises[p]? with
  | none => exact .inl ⟨rfl, rfl⟩
  | some c =>
    cases c with
    | settled o' => exact .inl ⟨rfl, rfl⟩
    | pending waiting =>
      exact .inr ⟨_, _, waiting, rfl, rfl, h.setPromise hp (.settled o)⟩

/-- **Registering a callback** keeps the stores renamed. -/
theorem subscribe (h : Renamed ρ base s t) (p : Nat) (c : Callback) :
    Renamed ρ base (s.subscribe p c).1 (t.subscribe (ρ.promise p) (c.rename ρ)).1 ∧
      (t.subscribe (ρ.promise p) (c.rename ρ)).2 =
        (s.subscribe p c).2.map (Outcome.map (Value.rename ρ)) := by
  unfold Store.subscribe
  rw [h.promises]
  cases hp : s.promises[p]? with
  | none => exact ⟨h, rfl⟩
  | some q =>
    cases q with
    | settled o => exact ⟨h, rfl⟩
    | pending waiting =>
      have hset := h.setPromise hp (.pending (waiting ++ [c]))
      simp only [Promise.rename, map_append, map_cons, map_nil] at hset
      exact ⟨hset, rfl⟩

theorem settledPromise (h : Renamed ρ base s t) (o : Outcome Value) :
    Renamed ρ base (s.settledPromise o).1 (t.settledPromise (o.map (Value.rename ρ))).1 ∧
      (t.settledPromise (o.map (Value.rename ρ))).2 = ρ.promise (s.settledPromise o).2 := by
  -- only a promise fulfilled with a future is special
  have plain : ∀ o : Outcome Value, Renamed ρ base (s.addPromise (.settled o)).1
      (t.addPromise (.settled (o.map (Value.rename ρ)))).1 ∧
      (t.addPromise (.settled (o.map (Value.rename ρ)))).2 =
        ρ.promise (s.addPromise (.settled o)).2 := fun o =>
    ⟨h.pushPromise (.settled o), h.fresh.symm⟩
  cases o with
  | rejected e => exact plain (.rejected e)
  | fulfilled v =>
    cases v with
    | future q =>
      simp only [Store.settledPromise, Outcome.map, Value.rename, h.outcome?]
      cases s.outcome? q with
      | some o => exact plain o
      | none =>
        obtain ⟨hnew, hid⟩ := h.newPromise
        have hsub := hnew.subscribe q (.adopt s.newPromise.2)
        simp only [Callback.rename, ← hid] at hsub
        exact ⟨hsub.1, hid⟩
    | _ => exact plain (.fulfilled _)

/-! #### Frames -/

/-- Both stores get a new frame. -/
theorem pushFrame (h : Renamed ρ base s t) (f : Frame) :
    Renamed ρ base { s with frames := s.frames.push f }
      { t with frames := t.frames.push (f.rename ρ) } := by
  refine { h with frames := ?_, newFrames := ?_, ownFrames := ?_ }
  · intro c
    simp only [Array.getElem?_push]
    by_cases hc : c = s.frames.size
    · rw [if_pos hc, hc, if_pos h.freshFrame]
      rfl
    · have hne : ρ.frame c ≠ t.frames.size := fun heq =>
        hc (ρ.frame_inj (heq.trans h.freshFrame.symm))
      rw [if_neg hc, if_neg hne, h.frames]
  · intro i
    have := h.newFrames (1 + i)
    simp only [Array.size_push]
    rw [Nat.add_assoc, this, Nat.add_assoc]
  · intro c hc
    have hne : c ≠ t.frames.size := fun heq => hc _ (h.freshFrame.trans heq.symm)
    simp only [Array.getElem?_push, if_neg hne]
    exact h.ownFrames c hc

/-- A frame is replaced in both stores. -/
theorem setFrame (h : Renamed ρ base s t) {f : Nat} {old : Frame}
    (hf : s.frames[f]? = some old) (new : Frame) :
    Renamed ρ base { s with frames := s.frames.setIfInBounds f new }
      { t with frames := t.frames.setIfInBounds (ρ.frame f) (new.rename ρ) } := by
  have hlt : f < s.frames.size := (Array.getElem?_eq_some_iff.1 hf).1
  have hlt' : ρ.frame f < t.frames.size := by
    have := h.frames f
    rw [hf, Option.map_some] at this
    exact (Array.getElem?_eq_some_iff.1 this).1
  refine { h with frames := ?_, newFrames := ?_, ownFrames := ?_ }
  · intro c
    simp only [Array.getElem?_setIfInBounds]
    by_cases hc : f = c
    · rw [if_pos hc, if_pos (congrArg ρ.frame hc), if_pos hlt, if_pos hlt']
      rfl
    · have hne : ρ.frame f ≠ ρ.frame c := fun heq => hc (ρ.frame_inj heq)
      rw [if_neg hc, if_neg hne, h.frames]
  · simpa using h.newFrames
  · intro c hc
    simp only [Array.getElem?_setIfInBounds, if_neg (hc f)]
    exact h.ownFrames c hc

theorem newFrame (h : Renamed ρ base s t) (outer slots : Nat) :
    Renamed ρ base (s.newFrame outer slots).1 (t.newFrame (ρ.promise outer) slots).1 ∧
      (t.newFrame (ρ.promise outer) slots).2 = ρ.frame (s.newFrame outer slots).2 := by
  have hpush := h.pushFrame ⟨outer, replicate slots .null⟩
  simp only [Frame.rename, map_replicate, Value.rename] at hpush
  exact ⟨hpush, h.freshFrame.symm⟩

theorem outer? (h : Renamed ρ base s t) (f : Nat) :
    t.outer? (ρ.frame f) = (s.outer? f).map ρ.promise := by
  rw [Store.outer?, Store.outer?, h.frames, Option.map_map, Option.map_map]
  rfl

/-- The slots of a frame and of its image correspond. -/
theorem loadSlot? (h : Renamed ρ base s t) (f slot : Nat) :
    t.loadSlot? (ρ.frame f) slot = (s.loadSlot? f slot).map (Value.rename ρ) := by
  simp only [Store.loadSlot?, Store.slots, h.frames]
  cases s.frames[f]? with
  | none => rfl
  | some frame => simp [Frame.rename]

/-- A slot is there to be stored in both frames or in neither. -/
theorem storeSlot? (h : Renamed ρ base s t) (f slot : Nat) (v : Value) :
    (s.storeSlot? f slot v = none ∧ t.storeSlot? (ρ.frame f) slot (v.rename ρ) = none) ∨
      ∃ s' t', s.storeSlot? f slot v = some s' ∧
        t.storeSlot? (ρ.frame f) slot (v.rename ρ) = some t' ∧ Renamed ρ base s' t' := by
  simp only [Store.storeSlot?, h.frames]
  cases hf : s.frames[f]? with
  | none => exact .inl ⟨rfl, rfl⟩
  | some frame =>
    by_cases hslot : slot < frame.slots.length
    · refine .inr ⟨_, _, if_pos hslot, ?_, h.setFrame hf _⟩
      simp only [Option.map_some, Frame.rename, length_map, if_pos hslot, map_set]
    · refine .inl ⟨if_neg hslot, ?_⟩
      simp only [Option.map_some, Frame.rename, length_map, if_neg hslot]

end Store.Renamed

end Resumable
