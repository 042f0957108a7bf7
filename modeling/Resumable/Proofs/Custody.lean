/-
**Custody of a future.**

Code that has the duty for a future has to settle it, or to see that somebody else will.  A
*custody* says how code keeps such a duty: which marks its locals have between the blocks, and
which instructions hand the duty over.  A method keeps the duty if each of its blocks does; then an
activation of it has the duty until it hands it over, whatever it calls and whatever it catches.

Methods without protocol instructions have no duty.  Their custody says that all their values are
ordinary.

Main results:

* `Custody.At.execute` — **an activation hands the duty over or keeps it**;
* `Custody.tends_append` — code that leaves the marks as they are;
* `Custody.checks_plain` — methods without protocol instructions.
-/

import Resumable.Proofs.InstructionFacts
import Resumable.Proofs.Marks

set_option autoImplicit false

namespace Resumable

open List

/-! ### Code that keeps a duty -/

/-- An exception is an ordinary value. -/
def Unwind.Ordinary (n : Nat) : Unwind → Prop
  | .throw e => e.Ordinary n
  | .fault _ => True

/-- The promises are as they were, frames keep their outer futures, and all values are ordinary. -/
structure Store.Quiet (s t : Store) : Prop where
  promises : t.promises = s.promises
  grows : s.Extends t
  ordinary : t.Ordinary

theorem Store.Quiet.refl {s : Store} (hs : s.Ordinary) : s.Quiet s := ⟨rfl, .refl s, hs⟩

theorem Agenda.Turns.eq_of_nil {a b : Agenda} {es : List Event} (h : a.Turns es b) (hes : es = []) :
    b = a := by
  cases h with
  | refl => rfl
  | snoc _ _ => simp at hes

theorem Activation.promises_exec {i : Instr} (hi : i.events = []) (a : Activation) (s : Store) :
    (a.exec s i).1.promises = s.promises :=
  congrArg Agenda.promises ((a.turns_exec s i []).eq_of_nil hi)

/-- **How code keeps the duty for a future** until it hands it over. -/
structure Custody where
  /-- The marks of the locals at the start of a block. -/
  base : Nat → Mark
  /-- The blocks that control comes to after the first. -/
  inner : Nat → Prop
  /-- Whether the code may return without handing anything over: it has no duty. -/
  free : Prop
  /-- The instructions that hand the duty over, with the rest of their block. -/
  hands : Marks → Instr → List Instr → Terminator → Prop

namespace Custody

section

variable (C : Custody)

/-- The marks between the blocks: the stack is ordinary. -/
structure Calm (σ : Marks) : Prop where
  locals : σ.locals = C.base
  stack : ∀ k ∈ σ.stack, k = .plain

/-- The rest of a block keeps the duty or hands it over. -/
def Tends (t : Terminator) : Marks → List Instr → Prop
  | σ, [] => C.Calm σ ∧ (t = .ret → C.free)
  | σ, i :: is => C.hands σ i is t ∨
      (i.raises = true → σ.locals = C.base) ∧ ∃ τ, i.marks? σ = some τ ∧ Tends t τ is

/-- **All code of a method keeps the duty.** -/
structure Checks (m : Method) : Prop where
  steady : ∀ l, C.base l ≠ .fresh
  tends : ∀ b block, C.inner b → m.block? b = some block →
    C.Tends block.terminator ⟨C.base, []⟩ block.instrs
  successors : ∀ b block, m.block? b = some block → ∀ target ∈ block.terminator.successors,
    C.inner target
  handlers : ∀ r ∈ m.regions, C.inner r.handler

variable (m : Method) (s : Store) (used : Nat → Prop) (o : Nat)

/-- An activation that has the duty for `o`. -/
def At (a : Activation) : Prop :=
  a.method = m ∧ (m.block? a.block = none ∨
    ∃ σ is t, a.Ahead is t ∧ C.Tends t σ is ∧ σ.Holds s used o a)

/-- An activation that has the duty for `o` and waits for a call. -/
structure Waits (a : Activation) : Prop where
  method : a.method = m
  ahead : ∃ i is t, a.Ahead (i :: is) t ∧ C.Tends t ⟨C.base, []⟩ is
  locals : ∀ l, (C.base l).Holds s (fun _ => True) o (a.locals.get l)
  stack : ∀ v ∈ a.stack, v.Ordinary s.promises.size

/-- **What an activation that has the duty can do**, apart from handing it over. -/
inductive Leads (ts : List Task) : Machine → Prop where
  | runs {t : Store} {b : Activation} (hs : s.Quiet t) (hb : C.At m t used o b) :
      Leads ts ⟨t, .exec b, ts⟩
  | fails {t : Store} {u : Unwind} (hs : s.Quiet t) (hu : u.Ordinary t.promises.size) :
      Leads ts ⟨t, .unwind u, ts⟩
  | calls {t : Store} {b : Activation} {name : String} {args : List Value} {depth : Nat}
      {keep : Bool} (hs : s.Quiet t) (hargs : ∀ v ∈ args, v.Ordinary t.promises.size)
      (hb : C.Waits m t o b) : Leads ts ⟨t, .enter name args depth, .caller b keep :: ts⟩
  | returns {v : Value} (hfree : C.free) (hv : v.Ordinary s.promises.size) :
      Leads ts ⟨s, .answer v, ts⟩

end

variable {C : Custody} {p : Program} {m : Method} {s t : Store} {used : Nat → Prop} {o : Nat}
  {a b : Activation} {ts : List Task}

theorem Waits.mono (h : C.Waits m s o a) (hC : C.Checks m) (hst : s.Extends t) :
    C.Waits m t o a where
  method := h.method
  ahead := h.ahead
  locals l := (h.locals l).mono hst fun hl => absurd hl (hC.steady l)
  stack v hv := (h.stack v hv).mono hst.promises

/-- A block is entered with ordinary values on the stack. -/
theorem At.jump (hC : C.Checks m) (hm : a.method = m)
    (hlocals : ∀ l, (C.base l).Holds s used o (a.locals.get l)) {target : Nat}
    (htarget : C.inner target) {vs : List Value} (hvs : ∀ v ∈ vs, v.Ordinary s.promises.size) :
    C.At m s used o (a.jump target vs) := by
  refine ⟨hm, ?_⟩
  cases hblock : m.block? target with
  | none => exact .inl hblock
  | some block =>
    refine .inr ⟨⟨C.base, []⟩, block.instrs, block.terminator, ⟨block, ?_, rfl, rfl⟩,
      hC.tends target block htarget hblock, hlocals, hvs⟩
    rw [← hblock, ← hm]
    rfl

variable {e : Value} {i : Instr}

/-- An exception goes to a handler, or out of the activation. -/
theorem At.raise (hC : C.Checks m) (hm : a.method = m)
    (hlocals : ∀ l, (C.base l).Holds s used o (a.locals.get l)) (he : e.Ordinary s.promises.size)
    (p : Program) :
    (∃ b, p.raise a e = .exec b ∧ C.At m s used o b) ∨ p.raise a e = .unwind (.throw e) := by
  unfold Program.raise
  split
  · rename_i handler hhandler
    obtain ⟨r, hr, rfl⟩ := Option.map_eq_some_iff.1 hhandler
    have hmem : r ∈ m.regions := by
      rw [← hm]
      exact (mem_filter.1 (mem_of_find?_eq_some hr)).1
    exact .inl ⟨_, rfl, At.jump hC hm hlocals (hC.handlers r hmem) (by simpa using he)⟩
  · exact .inr rfl

theorem Waits.answered (h : C.Waits m s o a) (hC : C.Checks m) {v : Value}
    (hv : v.Ordinary s.promises.size) (keep : Bool) (used : Nat → Prop) :
    C.At m s used o (a.advance (if keep then v :: a.stack else a.stack)) := by
  obtain ⟨i, is, t, hahead, htends⟩ := h.ahead
  refine ⟨h.method, .inr ⟨⟨C.base, []⟩, is, t, hahead.moves ⟨rfl, rfl, rfl, rfl⟩, htends,
    fun l => ?_, ?_⟩⟩
  · exact (h.locals l).mono (.refl s) fun hl => absurd hl (hC.steady l)
  · cases keep with
    | true => exact forall_mem_cons.2 ⟨hv, h.stack⟩
    | false => exact h.stack

theorem Waits.raised (h : C.Waits m s o a) (hC : C.Checks m) (he : e.Ordinary s.promises.size)
    (used : Nat → Prop) (p : Program) :
    (∃ b, p.raise a e = .exec b ∧ C.At m s used o b) ∨ p.raise a e = .unwind (.throw e) :=
  At.raise hC h.method
    (fun l => (h.locals l).mono (.refl s) fun hl => absurd hl (hC.steady l)) he p

theorem Leads.raise (hC : C.Checks m) (hm : a.method = m) (hst : s.Quiet t)
    (hlocals : ∀ l, (C.base l).Holds t used o (a.locals.get l)) (he : e.Ordinary t.promises.size) :
    C.Leads m s used o ts ⟨t, p.raise a e, ts⟩ := by
  rcases At.raise hC hm hlocals he p with ⟨b, hb, hat⟩ | hb
  · rw [hb]
    exact .runs hst hat
  · rw [hb]
    exact .fails hst he

/-- The end of a block goes to one of its successors, with values that were on the stack. -/
theorem of_leave_eq_jump {t : Terminator} {target : Nat} {vs : List Value}
    (h : a.leave t = .jump target vs) : target ∈ t.successors ∧ ∀ v ∈ vs, v ∈ a.stack := by
  obtain ⟨htarget, -, rfl⟩ := (t.accurate a).jump h
  exact ⟨htarget, fun v hv => mem_of_mem_drop hv⟩

theorem of_leave_eq_ret {t : Terminator} {v : Value} (h : a.leave t = .ret v) :
    t = .ret ∧ (v = .null ∨ v ∈ a.stack) := by
  obtain ⟨rfl, hv⟩ := (t.accurate a).ret h
  refine ⟨rfl, ?_⟩
  cases htake : a.stack.take (Terminator.ret.pops a.method.ret) with
  | nil =>
    rw [htake] at hv
    exact .inl hv
  | cons w ws =>
    rw [htake] at hv
    exact .inr (hv ▸ mem_of_mem_take (htake ▸ mem_cons_self))

theorem of_leave_eq_throw {t : Terminator} (h : a.leave t = .throw e) : e ∈ a.stack := by
  obtain ⟨-, he⟩ := (t.accurate a).throw h
  exact mem_of_mem_take (he ▸ mem_cons_self)

/-- The end of a block keeps the duty. -/
theorem Leads.of_leave (hC : C.Checks m) (hs : s.Ordinary) (hm : a.method = m) {t : Terminator}
    (hahead : a.Ahead [] t) {σ : Marks} (htends : C.Tends t σ []) (hσ : σ.Holds s used o a)
    (p : Program) (ts : List Task) : C.Leads m s used o ts (Machine.execute p s a ts) := by
  obtain ⟨hcalm, hfree⟩ := htends
  have hstack := hσ.stack.plain hcalm.stack
  have hlocals := hσ.locals
  rw [hcalm.locals] at hlocals
  have hexecute := Option.some.inj (hahead.step_leave p s ts)
  rw [hexecute]
  split
  · rename_i target vs hleave
    obtain ⟨htarget, hvs⟩ := of_leave_eq_jump hleave
    obtain ⟨block, hblock, -, rfl⟩ := hahead
    rw [hm] at hblock
    exact .runs (.refl hs) (At.jump hC hm hlocals (hC.successors _ _ hblock _ htarget)
      fun v hv => hstack v (hvs v hv))
  · rename_i v hleave
    obtain ⟨rfl, rfl | hv⟩ := of_leave_eq_ret hleave
    · exact .returns (hfree rfl) Value.ordinary_null
    · exact .returns (hfree rfl) (hstack v hv)
  · rename_i e hleave
    exact .raise hC hm (.refl hs) hlocals (hstack e (of_leave_eq_throw hleave))
  · exact .fails (.refl hs) trivial

/-- An instruction that hands nothing over keeps the duty. -/
theorem Leads.of_instr (hC : C.Checks m) (hs : s.Ordinary) (hused : ∀ f, used f → f < s.frames.size)
    (hm : a.method = m) {is : List Instr} {t : Terminator} (hahead : a.Ahead (i :: is) t)
    {σ τ : Marks} (hraises : i.raises = true → σ.locals = C.base) (hτ : i.marks? σ = some τ)
    (htends : C.Tends t τ is) (hσ : σ.Holds s used o a) (p : Program) (ts : List Task) :
    C.Leads m s used o ts (Machine.execute p s a ts) := by
  have hexecute := Option.some.inj (hahead.step_instr p s ts)
  obtain ⟨hfollows, hordinary⟩ := hσ.exec hs hused hτ
  have hext : s.Extends (a.exec s i).1 := (a.evolves_exec (fun _ => True) s i).toExtends
  have hpromises := Activation.promises_exec (Marks.events_of_marks? hτ) a s
  rw [hexecute]
  cases hexec : a.exec s i with
  | mk u action =>
    rw [hexec] at hfollows hordinary hext hpromises
    have hquiet : s.Quiet u := ⟨hpromises, hext, hordinary⟩
    have hlocals : i.raises = true → ∀ l, (C.base l).Holds u used o (a.locals.get l) :=
      fun hi l => hraises hi ▸ (hσ.locals l).mono hext fun _ _ hu => hu
    cases action with
    | next b =>
      refine .runs hquiet ⟨?_, .inr ⟨τ, is, t, ?_, htends, hfollows⟩⟩
      · exact (Activation.moves_of_exec hexec).method.trans hm
      · exact hahead.moves (Activation.moves_of_exec hexec)
    | throw e => exact .raise hC hm hquiet (hlocals hfollows.1) hfollows.2
    | fault f => exact .fails hquiet trivial
    | call b name args keep =>
      obtain ⟨hi, hargs, hb, hstack⟩ := hfollows
      have hτ' := Marks.marks?_of_raises hτ hi
      rw [hτ', hraises hi] at htends
      rw [hb] at hstack ⊢
      refine .calls hquiet hargs ⟨hm, ⟨i, is, t, hahead, htends⟩, fun l => ?_, hstack⟩
      exact (hlocals hi l).mono (.refl u) fun hl => absurd hl (hC.steady l)
    | fulfill b q v | reject b q v | subscribe b q c => exact hfollows.elim

/-- **One step of an activation that has the duty**: it hands the duty over, or keeps it. -/
theorem At.execute (hC : C.Checks m) (hs : s.Ordinary) (hused : ∀ f, used f → f < s.frames.size)
    (h : C.At m s used o a) (p : Program) (ts : List Task) :
    (∃ σ i is t, a.Ahead (i :: is) t ∧ C.hands σ i is t ∧ σ.Holds s used o a) ∨
      C.Leads m s used o ts (Machine.execute p s a ts) := by
  obtain ⟨hm, hnone | ⟨σ, is, t, hahead, htends, hσ⟩⟩ := h
  · right
    rw [Machine.execute, hm, hnone]
    exact .fails (.refl hs) trivial
  cases is with
  | nil => exact .inr (.of_leave hC hs hm hahead htends hσ p ts)
  | cons i is =>
    rcases htends with hhands | ⟨hraises, τ, hτ, htends⟩
    · exact .inl ⟨σ, i, is, t, hahead, hhands, hσ⟩
    · exact .inr (.of_instr hC hs hused hm hahead hraises hτ htends hσ p ts)

/-! ### Ordinary code -/

section

variable (C)

/-- An instruction that may stand wherever the marks are calm, and leaves them so. -/
def Keeps (i : Instr) : Prop := ∀ σ, C.Calm σ → ∃ τ, i.marks? σ = some τ ∧ C.Calm τ

end

variable {σ : Marks} {is tail : List Instr} {t : Terminator} {l : Nat}

theorem tends_cons (hi : C.Keeps i) (hσ : C.Calm σ) (htail : ∀ τ, C.Calm τ → C.Tends t τ tail) :
    C.Tends t σ (i :: tail) := by
  obtain ⟨τ, hτ, hcalm⟩ := hi σ hσ
  exact .inr ⟨fun _ => hσ.locals, τ, hτ, htail τ hcalm⟩

/-- **Code that keeps the marks calm**, and what follows it. -/
theorem tends_append (his : ∀ i ∈ is, C.Keeps i) (hσ : C.Calm σ)
    (htail : ∀ τ, C.Calm τ → C.Tends t τ tail) : C.Tends t σ (is ++ tail) := by
  induction is generalizing σ with
  | nil => exact htail σ hσ
  | cons i is ih =>
    exact tends_cons (his i mem_cons_self) hσ fun τ hτ =>
      ih (fun j hj => his j (mem_cons_of_mem _ hj)) hτ

theorem tends_of_keeps (his : ∀ i ∈ is, C.Keeps i) (hσ : C.Calm σ) (ht : t = .ret → C.free) :
    C.Tends t σ is := by
  rw [← append_nil is]
  exact tends_append his hσ fun τ hτ => ⟨hτ, ht⟩

theorem Calm.push (hσ : C.Calm σ) : C.Calm (σ.push .plain) :=
  ⟨hσ.locals, forall_mem_cons.2 ⟨rfl, hσ.stack⟩⟩

theorem Calm.top (hσ : C.Calm σ) : σ.top = .plain := by
  unfold Marks.top
  cases hks : σ.stack with
  | nil => rfl
  | cons k ks => exact hσ.stack k (hks ▸ mem_cons_self)

theorem Calm.pop (hσ : C.Calm σ) : C.Calm σ.pop :=
  ⟨hσ.locals, fun k hk => hσ.stack k (mem_of_mem_tail hk)⟩

theorem keeps_push (c : Const) : C.Keeps (.push c) := fun _ hσ => ⟨_, rfl, hσ.push⟩

theorem keeps_load (hl : C.base l = .plain) : C.Keeps (.load l) := by
  intro σ hσ
  have hplain : σ.locals l = .plain := by rw [hσ.locals, hl]
  refine ⟨σ.push .plain, ?_, hσ.push⟩
  simp [Instr.marks?, hplain]

theorem keeps_store (hl : C.base l = .plain) : C.Keeps (.store l) := by
  intro σ hσ
  refine ⟨_, rfl, ?_, hσ.pop.stack⟩
  show Function.update σ.locals l σ.top = C.base
  rw [hσ.top, hσ.locals, ← hl, Function.update_eq_self]

theorem keeps_frameLoad (hl : (C.base l).isFrame = true) (slot : Nat) :
    C.Keeps (.frameLoad l slot) := by
  intro σ hσ
  refine ⟨σ.push .plain, ?_, hσ.push⟩
  simp [Instr.marks?, hσ.locals, hl]

theorem keeps_of_isOrdinary (hi : i.isOrdinary = true) : C.Keeps i := by
  intro σ hσ
  have hall : σ.stack.all (· = .plain) = true :=
    all_eq_true.2 fun k hk => by simpa using hσ.stack k hk
  refine ⟨⟨σ.locals, []⟩, ?_, hσ.locals, fun k hk => by cases hk⟩
  rw [Instr.marks?_of_isOrdinary hi, if_pos hall]

/-- **An instruction of a method**, whose locals are ordinary, keeps the marks calm. -/
theorem keeps_mapLocals (hi : i.isProtocol = false) (f : Nat → Nat)
    (hlocals : ∀ l, i.uses? = some l ∨ i.defines? = some l → C.base (f l) = .plain) :
    C.Keeps (i.mapLocals f) := by
  cases i with
  | push c => exact keeps_push c
  | load l => exact keeps_load (hlocals l (.inl rfl))
  | store l => exact keeps_store (hlocals l (.inr rfl))
  | futureNew | futureIsDone | futureJoin | futureFulfill | futureReject | frameNew _
  | frameLoad _ _ | frameStore _ _ | frameOuter _ | outcomeUnwrap | resume _ _ _ => cases hi
  | _ => exact keeps_of_isOrdinary rfl

theorem tends_copies (frame : Nat)
    (hframe : (σ.locals frame).isFrame = true) {cs : List (List Instr)}
    (hcs : ∀ c ∈ cs, ∃ l k, c = [.load l, .frameStore frame k] ∧ σ.locals l = .plain)
    (his : C.Tends t σ is) : C.Tends t σ (cs.flatten ++ is) := by
  induction cs with
  | nil => exact his
  | cons c cs ih =>
    obtain ⟨l, k, rfl, hl⟩ := hcs c mem_cons_self
    have hload : (Instr.load l).marks? σ = some (σ.push .plain) := by
      simp [Instr.marks?, hl]
    have hstore : (Instr.frameStore frame k).marks? (σ.push .plain) = some σ := by
      simp [Instr.marks?, Marks.push, Marks.top, Marks.pop, hframe]
    exact .inr ⟨fun h => (by cases h), _, hload, .inr ⟨fun h => (by cases h), _, hstore,
      ih fun c hc => hcs c (mem_cons_of_mem _ hc)⟩⟩

/-- The custody of code that has no duty and works on ordinary values. -/
def plain : Custody where
  base _ := .plain
  inner _ := True
  free := True
  hands _ _ _ _ := False

/-- **A method without protocol instructions** works on ordinary values. -/
theorem checks_plain (hm : m.Plain) : Custody.plain.Checks m where
  steady _ := by simp [plain]
  tends b block _ hblock := by
    refine tends_of_keeps (fun i hi => ?_) ⟨rfl, fun k hk => by cases hk⟩ fun _ => trivial
    have hplain := hm block (mem_of_getElem? hblock) i hi
    rw [← Instr.mapLocals_id i]
    exact keeps_mapLocals hplain id fun _ _ => rfl
  successors _ _ _ _ _ := trivial
  handlers _ _ := trivial

/-- The locals at the start of a call are null or arguments. -/
theorem forall_ofArgs {P : Value → Prop} (hnull : P .null) (params : List Local) {args : List Value}
    (hargs : ∀ v ∈ args, P v) : ∀ l, P ((Locals.ofArgs params args).get l) := by
  have hfold : ∀ (cs : List (Local × Value)) (ls : Locals), (∀ c ∈ cs, P c.2) →
      (∀ l, P (ls.get l)) → ∀ l, P ((cs.foldl (fun ls c => ls.set c.1.id c.2) ls).get l) := by
    intro cs
    induction cs with
    | nil => exact fun ls _ hls => hls
    | cons c cs ih =>
      intro ls hcs hls
      refine ih _ (fun c' hc' => hcs c' (mem_cons_of_mem _ hc')) fun l => ?_
      rw [Locals.get_set]
      split
      · exact hcs c mem_cons_self
      · exact hls l
  exact hfold _ {} (fun c hc => hargs c.2 (of_mem_zip hc).2) fun _ => hnull

/-- An activation of a method without protocol instructions starts with ordinary arguments. -/
theorem at_start_plain (hm : m.Plain) {args : List Value}
    (hargs : ∀ v ∈ args, v.Ordinary s.promises.size) (depth : Nat) :
    Custody.plain.At m s used o (.start m args depth) :=
  At.jump (a := .start m args depth) (checks_plain hm) rfl
    (forall_ofArgs Value.ordinary_null m.params hargs) trivial fun v hv => by cases hv

end Custody

end Resumable
