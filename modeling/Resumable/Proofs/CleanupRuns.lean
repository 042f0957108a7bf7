/-
**What cleanup regions mean.**

The machine does not run cleanup regions: a method is converted to one without them first.  Here is
the interpreter that does, as the rules of the language have it.  An activation has a stack of
completions that wait for the end of a cleanup body.

* A jump from a block to another that leaves a cleanup region enters the body of the first such
  region of the table, after the instruction that takes the exception; the jump waits.
* A return from a block of a cleanup region enters the body of the first such region; the return
  waits with its value, which is off the stack.
* An exception that a cleanup region takes enters its handler as any other; throwing it again waits.
* The end of a body goes on with the completion that was the last to wait, from the block in which
  the body ended.

All else is as in the machine.  What one method does is told by what it shows to the rest of the
machine: it asks for something that other code has a part in and goes on with the reply, or it ends.
Two interpreters agree if after any replies they show the same.

Main results:

* `Play.Simulates.shows_iff` — **what simulates shows the same**;
* `Machine.act_waits`, `Cleaning.act_waits` — both interpreters wait for an errand alike.
-/

import Resumable.Proofs.ActivationSteps

set_option autoImplicit false

namespace Resumable

/-- The ending, told without the place of a fault. -/
def Unwind.unplaced : Unwind → Unwind
  | throw e => throw e
  | fault f => fault f.unplaced

/-- The same fault at another place of a method of the same name. -/
theorem Fault.AnyPlace.unplaced {k : String → Location → Fault} (hk : Fault.AnyPlace k)
    {name name' : String} (hname : name' = name) (here there : Location) :
    (Unwind.fault (k name' there)).unplaced = (Unwind.fault (k name here)).unplaced := by
  rw [hname, hk name name here there]
  refine congrArg Unwind.fault ((Fault.unplaced_placed _ name there here).trans ?_)
  rw [← hk name name here here]

/-! ### The interpreter with cleanup regions -/

/-- What waits for the end of a cleanup body. -/
inductive Pending where
  | jump (target : Nat)
  | ret (v : Value)
  | rethrow (e : Value)

namespace Method

/-- The first cleanup region that a jump from block `b` to block `t` leaves. -/
def leaving? (m : Method) (b t : Nat) : Option Region :=
  m.regions.find? fun r => r.kind = .cleanup ∧ b ∈ r.blocks ∧ t ∉ r.blocks

/-- The first cleanup region that a return from block `b` leaves. -/
def guarding? (m : Method) (b : Nat) : Option Region :=
  m.regions.find? fun r => r.kind = .cleanup ∧ b ∈ r.blocks

/-- The first region that takes an exception thrown in block `b`. -/
def taking? (m : Method) (p : Program) (b : Nat) (e : Value) : Option Region :=
  (m.covering b).find? fun r => p.takes e r.kind

end Method

/-- The activation in the body of a cleanup region, after the instruction that takes the
exception. -/
def Activation.clean (a : Activation) (r : Region) (stack : List Value) : Activation :=
  { a with stack := stack, block := r.handler, offset := 1 }

/-- A machine that runs one activation, and the completions that wait in it. -/
structure Cleaning where
  machine : Machine
  pending : List Pending

namespace Cleaning

/-- A jump to a block. -/
def go (s : Store) (a : Activation) (t : Nat) (stack : List Value) (ps : List Pending) : Cleaning :=
  match a.method.leaving? a.block t with
  | some r => ⟨⟨s, .exec (a.clean r stack), []⟩, .jump t :: ps⟩
  | none => ⟨⟨s, .exec (a.jump t stack), []⟩, ps⟩

/-- A return; the value is off the stack. -/
def finish (s : Store) (a : Activation) (v : Value) (stack : List Value) (ps : List Pending) :
    Cleaning :=
  match a.method.guarding? a.block with
  | some r => ⟨⟨s, .exec (a.clean r stack), []⟩, .ret v :: ps⟩
  | none => ⟨⟨s, .answer v, []⟩, ps⟩

/-- An exception. -/
def raise (p : Program) (s : Store) (a : Activation) (e : Value) (ps : List Pending) : Cleaning :=
  match a.method.taking? p a.block e with
  | some r =>
    ⟨⟨s, .exec (a.handle r.handler e), []⟩, if r.kind = .cleanup then .rethrow e :: ps else ps⟩
  | none => ⟨⟨s, .unwind (.throw e), []⟩, ps⟩

/-- A fault ends the method. -/
def fail (s : Store) (f : Fault) (ps : List Pending) : Cleaning :=
  ⟨⟨s, .unwind (.fault f), []⟩, ps⟩

/-- The end of a cleanup body. -/
def complete (p : Program) (s : Store) (a : Activation) : List Pending → Cleaning
  | .jump t :: ps => go s a t a.stack ps
  | .ret v :: ps => finish s a v a.stack ps
  | .rethrow e :: ps => raise p s a e ps
  | [] => fail s (.rawCleanup a.method.name) []

/-- What an instruction led to. -/
def act (p : Program) (a : Activation) (ps : List Pending) : Store × Action → Cleaning
  | (s, .throw e) => raise p s a e ps
  | c => ⟨Machine.act p a [] c, ps⟩

/-- The terminator of a block. -/
def depart (p : Program) (s : Store) (a : Activation) (t : Terminator) (ps : List Pending) :
    Cleaning :=
  if t = .endCleanup then complete p s a ps
  else
    match a.leave t with
    | .jump b stack => go s a b stack ps
    | .ret v => finish s a v (if a.method.ret.isVoid then a.stack else a.stack.tail) ps
    | .throw e => raise p s a e ps
    | .fault f => fail s f ps

/-- **Runs the current instruction** of an activation, or the terminator after the last. -/
def execute (p : Program) (s : Store) (a : Activation) (ps : List Pending) : Cleaning :=
  match a.method.block? a.block with
  | none => fail s (.unknownBlock a.method.name a.block) ps
  | some block =>
    match block.instrs[a.offset]? with
    | some i => act p a ps (a.exec s i)
    | none => depart p s a block.terminator ps

end Cleaning

/-! ### Activations that wait -/

section Errands

variable {x : Action} {e : Errand} (h : x.errand? = some e) (p : Program) (s : Store)
  (a : Activation)
include h

theorem Machine.act_waits : Machine.act p a [] (s, x) =
    ⟨(e.work s).store, (e.work s).control, [.caller e.waiting e.keep]⟩ := by
  rw [act_of_errand h, atop, (isErrand_work h s).1, List.nil_append]

theorem Cleaning.act_waits (ps : List Pending) : Cleaning.act p a ps (s, x) =
    ⟨⟨(e.work s).store, (e.work s).control, [.caller e.waiting e.keep]⟩, ps⟩ := by
  rw [← Machine.act_waits h p s a]
  cases x with
  | throw e => cases h
  | _ => rfl

end Errands

/-! ### What a run shows -/

/-- What a method shows to the rest of the machine. -/
inductive Sight where
  /-- It asks for something that other code has a part in, and waits. -/
  | asks (s : Store) (c : Control)
  /-- It ends. -/
  | ends (s : Store) (x : Except Unwind Value)

/-- The reply to what a method asked for, with the store that the other code left. -/
structure Reply where
  store : Store
  result : Except Unwind Value

theorem Reply.forall_of_cases {P : Reply → Prop} (hok : ∀ s v, P ⟨s, .ok v⟩)
    (hthrow : ∀ s e, P ⟨s, .error (.throw e)⟩) (hfault : ∀ s f, P ⟨s, .error (.fault f)⟩) :
    ∀ r, P r
  | ⟨s, .ok v⟩ => hok s v
  | ⟨s, .error (.throw e)⟩ => hthrow s e
  | ⟨s, .error (.fault f)⟩ => hfault s f

/-- An interpreter of one method. -/
structure Play (σ : Type) where
  sight : σ → Option Sight
  step : σ → σ
  reply : σ → Reply → σ

namespace Play

variable {σ τ : Type}

/-- What a run shows after the given replies, if it shows something within the given number of
steps. -/
def shows? (P : Play σ) : Nat → σ → List Reply → Option Sight
  | 0, _, _ => none
  | n + 1, x, rs =>
    match P.sight x with
    | none => P.shows? n (P.step x) rs
    | some o =>
      match o, rs with
      | o, [] => some o
      | .asks _ _, r :: rs => P.shows? n (P.reply x r) rs
      | .ends _ _, _ :: _ => none

/-- **After the given replies the run shows** what is given. -/
def Shows (P : Play σ) (x : σ) (rs : List Reply) (o : Sight) : Prop := ∃ n, P.shows? n x rs = some o

/-- One or more steps in which the run shows nothing. -/
inductive Quietly (P : Play σ) : σ → σ → Prop where
  | one {x : σ} : P.sight x = none → Quietly P x (P.step x)
  | more {x y : σ} : P.sight x = none → Quietly P (P.step x) y → Quietly P x y

/-- **The second interpreter simulates the first**: it takes one step or more for a step, and shows
what the first shows. -/
structure Simulates (P : Play σ) (Q : Play τ) (R : σ → τ → Prop) : Prop where
  quiet : ∀ {x y}, R x y → P.sight x = none → ∃ y', Q.Quietly y y' ∧ R (P.step x) y'
  seen : ∀ {x y o}, R x y → P.sight x = some o → Q.sight y = some o
  reply : ∀ {x y s c}, R x y → P.sight x = some (.asks s c) → ∀ r, R (P.reply x r) (Q.reply y r)

variable {P : Play σ} {x : σ} {rs : List Reply} {o : Sight} {n : Nat}

theorem shows_of_step (hx : P.sight x = none) (h : P.Shows (P.step x) rs o) : P.Shows x rs o := by
  obtain ⟨n, hn⟩ := h
  exact ⟨n + 1, by simp only [shows?, hx, hn]⟩

theorem Quietly.shows {y : σ} (h : P.Quietly x y) (hy : P.Shows y rs o) : P.Shows x rs o := by
  induction h with
  | one hx => exact shows_of_step hx hy
  | more hx _ ih => exact shows_of_step hx (ih hy)

/-- What is shown is shown in fewer steps from later on. -/
theorem Quietly.exists_lt {y : σ} (h : P.Quietly x y) (hn : P.shows? n x rs = some o) :
    ∃ k < n, P.shows? k y rs = some o := by
  induction h generalizing n with
  | one hx =>
    cases n with
    | zero => cases hn
    | succ n =>
      simp only [shows?, hx] at hn
      exact ⟨n, Nat.lt_succ_self n, hn⟩
  | more hx _ ih =>
    cases n with
    | zero => cases hn
    | succ n =>
      simp only [shows?, hx] at hn
      obtain ⟨k, hk, hy⟩ := ih hn
      exact ⟨k, Nat.lt_succ_of_lt hk, hy⟩

theorem shows?_mono {k : Nat} (hle : n ≤ k) (h : P.shows? n x rs = some o) :
    P.shows? k x rs = some o := by
  induction n generalizing x rs k with
  | zero => cases h
  | succ n ih =>
    obtain ⟨k, rfl⟩ := Nat.exists_eq_add_of_le hle
    rw [Nat.succ_add]
    have hle : n ≤ n + k := Nat.le_add_right n k
    cases hx : P.sight x with
    | none =>
      simp only [shows?, hx] at h ⊢
      exact ih hle h
    | some o' =>
      simp only [shows?, hx] at h ⊢
      match o', rs, h with
      | o', [], h => exact h
      | .asks _ _, r :: rs, h => exact ih hle h

theorem Shows.unique {o' : Sight} (h : P.Shows x rs o) (h' : P.Shows x rs o') : o = o' := by
  obtain ⟨n, hn⟩ := h
  obtain ⟨k, hk⟩ := h'
  have hn := shows?_mono (Nat.le_max_left n k) hn
  have hk := shows?_mono (Nat.le_max_right n k) hk
  exact Option.some.inj (hn.symm.trans hk)

variable {P : Play σ} {Q : Play τ} {R : σ → τ → Prop}

/-- It is enough to say for each pair of states whether the runs go on quietly or show something. -/
theorem Simulates.of_cases (h : ∀ {x y}, R x y →
      (P.sight x = none ∧ ∃ y', Q.Quietly y y' ∧ R (P.step x) y') ∨
      ∃ o, P.sight x = some o ∧ Q.sight y = some o ∧
        ∀ s c, o = .asks s c → ∀ r, R (P.reply x r) (Q.reply y r)) : Simulates P Q R where
  quiet hxy hx := by
    obtain ⟨-, hstep⟩ | ⟨o, ho, -⟩ := h hxy
    · exact hstep
    · cases hx.symm.trans ho
  seen hxy hx := by
    obtain ⟨hnone, -⟩ | ⟨o, ho, hy, -⟩ := h hxy
    · cases hnone.symm.trans hx
    · exact hy.trans (ho.symm.trans hx)
  reply hxy hx := by
    obtain ⟨hnone, -⟩ | ⟨o, ho, -, hreply⟩ := h hxy
    · cases hnone.symm.trans hx
    · exact hreply _ _ (Option.some.inj (ho.symm.trans hx))

theorem Simulates.shows (h : Simulates P Q R) {y : τ} (hR : R x y) (hn : P.shows? n x rs = some o) :
    Q.Shows y rs o := by
  induction n generalizing x y rs with
  | zero => cases hn
  | succ n ih =>
    cases hx : P.sight x with
    | none =>
      simp only [shows?, hx] at hn
      obtain ⟨y', hy', hR'⟩ := h.quiet hR hx
      exact hy'.shows (ih hR' hn)
    | some o' =>
      have hy := h.seen hR hx
      simp only [shows?, hx] at hn
      match o', rs, hx, hy, hn with
      | o', [], hx, hy, hn => exact ⟨1, by simp only [shows?, hy, hn]⟩
      | .asks s c, r :: rs, hx, hy, hn =>
        obtain ⟨k, hk⟩ := ih (h.reply hR hx r) hn
        exact ⟨k + 1, by simp only [shows?, hy, hk]⟩

theorem Simulates.shown (h : Simulates P Q R) : ∀ {x : σ} {y : τ}, R x y →
    ∀ {rs : List Reply} {o : Sight}, Q.shows? n y rs = some o → P.Shows x rs o := by
  -- A step of the first takes at least one of the second, so the second has fewer to go.
  induction n using Nat.strongRecOn with
  | ind n ih =>
    intro x y hR rs o hn
    cases hx : P.sight x with
    | none =>
      obtain ⟨y', hy', hR'⟩ := h.quiet hR hx
      obtain ⟨k, hk, hshows⟩ := hy'.exists_lt hn
      exact shows_of_step hx (ih k hk hR' hshows)
    | some o' =>
      have hy := h.seen hR hx
      cases n with
      | zero => cases hn
      | succ n =>
        simp only [shows?, hy] at hn
        match o', rs, hx, hn with
        | o', [], hx, hn => exact ⟨1, by simp only [shows?, hx, hn]⟩
        | .asks s c, r :: rs, hx, hn =>
          obtain ⟨k, hk⟩ := ih n (Nat.lt_succ_self n) (h.reply hR hx r) hn
          exact ⟨k + 1, by simp only [shows?, hx, hk]⟩

/-- **What simulates shows the same.** -/
theorem Simulates.shows_iff (h : Simulates P Q R) {y : τ} (hR : R x y) (rs : List Reply)
    (o : Sight) :
    P.Shows x rs o ↔ Q.Shows y rs o :=
  ⟨fun ⟨_, hn⟩ => h.shows hR hn, fun ⟨_, hn⟩ => h.shown hR hn⟩

end Play

/-! ### The two interpreters -/

/-- What a machine that runs one activation shows. -/
def Machine.sight (m : Machine) : Option Sight :=
  match m.control, m.tasks with
  | c, .caller _ _ :: _ => some (.asks m.store c)
  | .answer v, _ => some (.ends m.store (.ok v))
  | .unwind u, _ => some (.ends m.store (.error u.unplaced))
  | _, _ => none

/-- The machine as the interpreter of one method. -/
def Machine.play (p : Program) : Play Machine where
  sight := Machine.sight
  step m :=
    match m.control with
    | .exec a => Machine.execute p m.store a m.tasks
    | _ => m
  reply m r :=
    match m.tasks, r.result with
    | t :: ts, .ok v => Machine.answered r.store v ts t
    | t :: ts, .error u => Machine.unwound p r.store u ts t
    | [], _ => m

/-- The interpreter with cleanup regions. -/
def Cleaning.play (p : Program) : Play Cleaning where
  sight x := x.machine.sight
  step x :=
    match x.machine.control with
    | .exec a => Cleaning.execute p x.machine.store a x.pending
    | _ => x
  reply x r :=
    match x.machine.tasks, r.result with
    | .caller a _ :: _, .error (.throw e) => Cleaning.raise p r.store a e x.pending
    | t :: ts, .ok v => ⟨Machine.answered r.store v ts t, x.pending⟩
    | t :: ts, .error u => ⟨Machine.unwound p r.store u ts t, x.pending⟩
    | [], _ => x

/-- The machine at the start of a method. -/
def Machine.begin (s : Store) (m : Method) (args : List Value) (depth : Nat) : Machine :=
  ⟨s, .exec (.start m args depth), []⟩

/-- The interpreter with cleanup regions at the start of a method. -/
def Cleaning.begin (s : Store) (m : Method) (args : List Value) (depth : Nat) : Cleaning :=
  ⟨.begin s m args depth, []⟩

end Resumable
