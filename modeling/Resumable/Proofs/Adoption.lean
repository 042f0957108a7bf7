/-
**Promises that adopt others.**

A promise that is fulfilled with a future adopts it: a callback on the future settles the promise
with the outcome of the future.  Adoptions can form chains, trees and cycles.

* Adoption *flattens*: unless the host settles a promise directly with a fulfilled future, no
  promise is ever fulfilled with one.  Outcomes start flat, and adoption only passes them on.
* A callback that is invoked for an adoption settles the adopting promise at once, if it is pending.
  So where the adopted promise has settled, the adopting one has too.
* Every settlement goes back, from adoption to adopted promise, to a promise that was settled
  directly: an adoption hands on an outcome that was there before.  So promises that only adopt each
  other stay pending until one of them is settled directly.

Main results:

* `Machine.Agrees.flat_events` — a machine settles promises with flat outcomes;
* `Event.exists_root` — **every settlement goes back to a direct one**;
* `History.prompt` — in every history adoptions settle at once;
* `Flattened.adoption_flattens` — **adoption flattens futures**.
-/

import Resumable.Proofs.Cascades

set_option autoImplicit false

namespace Resumable

open Relation List

/-! ### Flat outcomes -/

/-- The outcome is not that of a promise fulfilled with a future. -/
def Outcome.Flat (o : Outcome Value) : Prop := ∀ q, o ≠ .fulfilled (.future q)

/-- No promise is fulfilled with a future, and no callback is due with such an outcome. -/
structure Agenda.Flat (a : Agenda) : Prop where
  promises : ∀ (q : Nat) (o : Outcome Value), a.promises[q]? = some (.settled o) → o.Flat
  due : ∀ d ∈ a.due, d.1.Flat

namespace Agenda.Flat

variable {a b : Agenda} {es : List Event} {e : Event}

theorem turn (h : a.Flat) (he : e.Turns a b) (hflat : ∀ q o, e = .settled q o → o.Flat) :
    b.Flat := by
  cases he with
  | created => exact ⟨fun q o hq => h.promises q o (Event.settled_push_pending.1 hq), h.due⟩
  | waits hpending =>
    exact ⟨fun q o hq => h.promises q o ((Event.settled_set_pending hpending _).1 hq), h.due⟩
  | late hsettled =>
    refine ⟨h.promises, fun d hd => ?_⟩
    rcases mem_cons.1 hd with rfl | hd
    · exact h.promises _ _ hsettled
    · exact h.due d hd
  | @settles ps due q o waiting hpending =>
    have ho := hflat q o rfl
    constructor
    · intro r o' hr
      rw [Event.getElem?_settle hpending] at hr
      split at hr
      · cases hr
        exact ho
      · exact h.promises r o' hr
    · intro d hd
      rcases mem_append.1 hd with hd | hd
      · obtain ⟨c, -, rfl⟩ := mem_map.1 hd
        exact ho
      · exact h.due d hd
  | invokes => exact ⟨h.promises, fun d hd => h.due d (mem_cons_of_mem _ hd)⟩

theorem turns (h : a.Flat) (hes : a.Turns es b) (hflat : ∀ q o, .settled q o ∈ es → o.Flat) :
    b.Flat := by
  induction hes with
  | refl => exact h
  | @snoc es e b c _ he ih =>
    refine (ih fun q o hmem => hflat q o (mem_append_left _ hmem)).turn he ?_
    rintro q o rfl
    exact hflat q o (mem_append_right _ mem_cons_self)

end Agenda.Flat

namespace Store

variable {s : Store} {q r : Nat} {o o' : Outcome Value}

theorem flat_settleEvents (ho : o.Flat) (h : .settled r o' ∈ s.settleEvents q o) : o'.Flat := by
  unfold settleEvents at h
  split at h
  · cases mem_singleton.1 h
    exact ho
  · cases h

theorem settled_not_mem_registerEvents {c : Callback} : .settled r o' ∉ s.registerEvents q c := by
  unfold registerEvents
  split <;> simp

theorem flat_fulfillEvents {v : Value} (h : .settled r o' ∈ s.fulfillEvents q v) : o'.Flat := by
  cases v with
  | future x =>
    simp only [fulfillEvents] at h
    split at h
    · cases h
    · exact absurd h settled_not_mem_registerEvents
  | _ => exact flat_settleEvents (fun x hx => by cases hx) h

/-- A promise made with the outcome of another one: flat, if that is. -/
theorem flat_settledPromiseEvents
    (hs : ∀ (q : Nat) (o : Outcome Value), s.promises[q]? = some (.settled o) → o.Flat)
    (h : .settled r o' ∈ s.settledPromiseEvents o) : o'.Flat := by
  unfold settledPromiseEvents at h
  split at h
  · split at h
    · rename_i x taken htaken
      have hlast : Event.settled r o' = .settled s.promises.size taken := by simpa using h
      cases hlast
      exact hs _ _ (outcome?_eq_some.1 htaken)
    · rcases mem_cons.1 h with h | h
      · cases h
      · exact absurd h settled_not_mem_registerEvents
  · rename_i hne
    have hlast : Event.settled r o' = .settled s.promises.size o := by simpa using h
    cases hlast
    exact fun x hx => hne x hx

theorem flat_performEvents
    (hs : ∀ (q : Nat) (o : Outcome Value), s.promises[q]? = some (.settled o) → o.Flat)
    {request : Request} (h : .settled r o' ∈ s.performEvents request) : o'.Flat := by
  cases request with
  | settled x =>
    refine flat_settledPromiseEvents (s := (s.realizeOutcome x).1) ?_ h
    have hpromises : (s.realizeOutcome x).1.promises = s.promises := by
      obtain (v | ⟨cls, message⟩) | (v | ⟨cls, message⟩) := x <;> rfl
    rwa [hpromises]
  | pending tag => simp [performEvents] at h
  | answer _ | throw _ | note _ | lookup _ | assign _ _ | invoke _ _ => cases h

end Store

variable {s : Store} {r : Nat} {o : Outcome Value} {es : List Event}

theorem Action.flat_events {action : Action} (h : .settled r o ∈ action.events s) : o.Flat := by
  cases action with
  | fulfill b q v => exact Store.flat_fulfillEvents h
  | reject b q e => exact Store.flat_settleEvents (fun x hx => by cases hx) h
  | subscribe b q c => exact absurd h Store.settled_not_mem_registerEvents
  | next _ | throw _ | fault _ | call _ _ _ _ => cases h

namespace Machine

variable {p : Program} {m m' : Machine} {a : Agenda}

/-- **A machine settles promises with flat outcomes**, if those that it has are flat. -/
theorem Agrees.flat_events (h : m.Agrees a) (hflat : a.Flat) {r : Nat} {o : Outcome Value}
    (hmem : .settled r o ∈ m.events p) : o.Flat := by
  obtain ⟨s, control, ts⟩ := m
  have hs : ∀ (q : Nat) (o : Outcome Value), s.promises[q]? = some (.settled o) → o.Flat :=
    fun q o hq => hflat.promises q o (by rw [h.promises]; exact hq)
  cases control with
  | exec b =>
    simp only [events, Activation.events] at hmem
    split at hmem
    · cases hmem
    · split at hmem
      · rename_i i _
        rcases mem_append.1 hmem with hmem | hmem
        · cases i <;> simp [Instr.events] at hmem
        · exact Action.flat_events hmem
      · cases hmem
  | enter name args depth =>
    simp only [events, Program.enterEvents] at hmem
    split at hmem
    · cases hmem
    · split at hmem
      · exact Store.flat_performEvents (s := { s with calls := ⟨name, args⟩ :: s.calls }) hs hmem
      · cases hmem
  | deliver x cs =>
    cases cs with
    | nil => simp [events] at hmem
    | cons c cs =>
      have hdue : Outcome.Flat x := by
        refine hflat.due (x, c) ?_
        rw [h.due]
        exact mem_append_left _ (mem_map.2 ⟨c, mem_cons_self, rfl⟩)
      rcases mem_cons.1 hmem with hmem | hmem
      · cases hmem
      · cases c with
        | adopt q => exact Store.flat_settleEvents hdue hmem
        | resume _ _ _ _ | note _ => cases hmem
  | answer v => simp [events] at hmem
  | unwind u =>
    cases ts with
    | nil => simp [events] at hmem
    | cons t ts =>
      cases t with
      | resumed outer saved =>
        cases outer with
        | none => simp [events] at hmem
        | some q => exact Store.flat_settleEvents (fun x hx => by cases hx) hmem
      | caller _ _ | deliver _ _ | restore _ => simp [events] at hmem

theorem Agrees.flat_step (h : m.Agrees a) (hflat : a.Flat) (hm : m.Step p m') :
    ∃ b, m'.Agrees b ∧ b.Flat := by
  obtain ⟨b, hturns, hagrees⟩ := h.step hm
  exact ⟨b, hagrees, hflat.turns hturns fun _ _ hmem => h.flat_events hflat hmem⟩

theorem Agrees.flat_steps (h : m.Agrees a) (hflat : a.Flat) (hm : m.Steps p m') :
    ∃ b, m'.Agrees b ∧ b.Flat := by
  induction hm with
  | refl => exact ⟨a, h, hflat⟩
  | tail _ hstep ih =>
    obtain ⟨b, hagrees, hb⟩ := ih
    exact hagrees.flat_step hb hstep

theorem Agrees.flat_trace {steps : Nat} {es : List Event} {s : Store} (h : m.Agrees a)
    (hflat : a.Flat) (hm : m.trace? p steps = some (es, s)) {r : Nat} {o : Outcome Value}
    (hmem : .settled r o ∈ es) : o.Flat := by
  induction steps generalizing m a es with
  | zero => cases hm
  | succ steps ih =>
    rw [trace?] at hm
    split at hm
    · cases hm
      cases hmem
    · rename_i m' hstep
      obtain ⟨⟨es', s'⟩, hes, heq⟩ := Option.map_eq_some_iff.1 hm
      cases heq
      rcases mem_append.1 hmem with hmem | hmem
      · exact h.flat_events hflat hmem
      · obtain ⟨b, hagrees, hb⟩ := h.flat_step hflat hstep
        exact ih hagrees hb hes hmem

end Machine

/-- The operation is not the direct settlement of a promise with a fulfilled future. -/
def Operation.Flattens (op : Operation) : Prop := ∀ q r, op ≠ .settle q (.fulfilled (.future r))

theorem Operation.flat_events {op : Operation} (hop : op.Flattens)
    (hs : ∀ (q : Nat) (o : Outcome Value), s.promises[q]? = some (.settled o) → o.Flat)
    (h : .settled r o ∈ op.events s) : o.Flat := by
  cases op with
  | new => simp [events] at h
  | settled x => exact Store.flat_settledPromiseEvents hs h
  | subscribe q c => exact absurd h Store.settled_not_mem_registerEvents
  | fulfill q v => exact Store.flat_fulfillEvents h
  | reject q e => exact Store.flat_settleEvents (fun x hx => by cases hx) h
  | settle q x => exact Store.flat_settleEvents (fun y hy => hop q y (hy ▸ rfl)) h
  | invoke name args => cases h

/-- **A history without futures as outcomes**: no operation settles a promise directly with a
fulfilled future. -/
inductive Flattened (p : Program) (s : Store) : List Event → Store → Prop where
  | start : Flattened p s [] s
  | between {es : List Event} {t u : Store} : Flattened p s es t → u.promises = t.promises →
      Flattened p s es u
  | operate {es es' : List Event} {t u : Store} {op : Operation} {steps : Nat} :
      Flattened p s es t →
      op.Flattens → op.trace? p steps t = some (es', u) → Flattened p s (es ++ es') u

namespace Flattened

variable {p : Program} {s t : Store} {es : List Event}

theorem history (h : Flattened p s es t) : History p s es t := by
  induction h with
  | start => exact .start
  | between _ hp ih => exact ih.between hp
  | operate _ _ hop ih => exact ih.operate hop

theorem turns (h : Flattened p s es t) (hs : s.promises = #[]) :
    Agenda.Turns ⟨#[], [], false⟩ es ⟨t.promises, [], false⟩ := hs ▸ h.history.turns

/-- **Outcomes stay flat.** -/
theorem flat (h : Flattened p s es t) (hs : s.promises = #[]) :
    (∀ q o, .settled q o ∈ es → o.Flat) ∧ Agenda.Flat ⟨t.promises, [], false⟩ := by
  have hstart : Agenda.Flat ⟨#[], [], false⟩ := ⟨by simp, by simp⟩
  have hflat : ∀ q o, .settled q o ∈ es → o.Flat := by
    induction h with
    | start => intro q o hmem; cases hmem
    | between _ _ ih => exact ih
    | @operate es es' t u op steps hprev hop htrace ih =>
      intro q o hmem
      have ht := hstart.turns (hprev.turns hs) ih
      obtain ⟨⟨es'', u'⟩, hrun, heq⟩ := Option.map_eq_some_iff.1 htrace
      cases heq
      obtain ⟨b, hturns, hagrees⟩ := op.exists_agrees t
      have hevents : ∀ q o, .settled q o ∈ op.events t → o.Flat := fun q o hmem =>
        Operation.flat_events hop ht.promises hmem
      rcases mem_append.1 hmem with hmem | hmem
      · exact ih q o hmem
      · rcases mem_append.1 hmem with hmem | hmem
        · exact hevents q o hmem
        · exact hagrees.flat_trace (ht.turns hturns hevents) hrun hmem
  exact ⟨hflat, hstart.turns (h.turns hs) hflat⟩

end Flattened

/-! ### Adoptions settle at once -/

namespace Event

variable {es es' : List Event} {e : Event} {a b : Agenda}

/-- Whether the event makes a promise. -/
def isCreated : Event → Bool
  | .created => true
  | _ => false

/-- The number of promises that the events make. -/
def made (es : List Event) : Nat := es.countP isCreated

/-- **Adoptions settle at once**: when the callback of an adoption is invoked, the adopting promise
has settled before, or settles next with the outcome. -/
def Prompt (es : List Event) : Prop :=
  ∀ v q o, es[v]? = some (.invoked (.adopt q) o) → q < made (es.take v) →
    ∃ j o', j ≤ v + 1 ∧ es[j]? = some (.settled q o') ∧ (v < j → o' = o)

/-- The adoptions among further events settle at once. -/
def PromptAfter (es es' : List Event) : Prop :=
  ∀ w q o, es'[w]? = some (.invoked (.adopt q) o) → q < made (es ++ es'.take w) →
    ∃ j o', j ≤ es.length + w + 1 ∧ (es ++ es')[j]? = some (.settled q o') ∧
      (es.length + w < j → o' = o)

theorem Prompt.append (h : Prompt es) (h' : PromptAfter es es') : Prompt (es ++ es') := by
  intro v q o hv hq
  rcases Nat.lt_or_ge v es.length with hlt | hge
  · rw [getElem?_append_left hlt] at hv
    rw [take_append_of_le_length (Nat.le_of_lt hlt)] at hq
    obtain ⟨j, o', hj, hsettled, hout⟩ := h v q o hv hq
    have hjlt := (List.getElem?_eq_some_iff.1 hsettled).1
    exact ⟨j, o', hj, (getElem?_append_left hjlt).trans hsettled, hout⟩
  · obtain ⟨w, rfl⟩ := Nat.exists_eq_add_of_le hge
    rw [getElem?_append_right hge, Nat.add_sub_cancel_left] at hv
    rw [take_length_add_append] at hq
    exact h' w q o hv hq

theorem promptAfter_of_not_invoked (h : ∀ c o, .invoked c o ∉ es') : PromptAfter es es' :=
  fun _ _ _ hw _ => absurd (mem_of_getElem? hw) (h _ _)

theorem size_of_turns (h : a.Turns es b) : b.promises.size = a.promises.size + made es := by
  induction h with
  | refl => rfl
  | @snoc es e b c _ he ih =>
    rw [made, countP_append, ← made, ← Nat.add_assoc, ← ih]
    cases he <;> simp [isCreated]

end Event

namespace Store

variable {s : Store} {q : Nat} {c : Callback} {o : Outcome Value} {r : Nat}

theorem invoked_not_mem_settleEvents {x : Outcome Value} : .invoked c o ∉ s.settleEvents r x := by
  unfold settleEvents
  split <;> simp

theorem invoked_not_mem_registerEvents {d : Callback} : .invoked c o ∉ s.registerEvents r d := by
  unfold registerEvents
  split <;> simp

theorem invoked_not_mem_fulfillEvents {v : Value} : .invoked c o ∉ s.fulfillEvents r v := by
  cases v with
  | future x =>
    simp only [fulfillEvents]
    split
    · exact not_mem_nil
    · exact invoked_not_mem_registerEvents
  | _ => exact invoked_not_mem_settleEvents

theorem promptAfter_settledPromise (es : List Event) (s : Store) (x : Outcome Value) :
    Event.PromptAfter es (s.settledPromiseEvents x) := by
  unfold settledPromiseEvents
  split
  · split
    · rename_i r taken _
      intro w q o hw _
      -- the third of the four events, before the settlement
      have hcases : w = 2 ∧ q = s.promises.size ∧ o = taken := by
        match w, hw with
        | 2, hw => simpa [eq_comm] using hw
        | 0, hw | 1, hw | 3, hw => simp at hw
        | w + 4, hw => simp at hw
      obtain ⟨rfl, rfl, rfl⟩ := hcases
      refine ⟨es.length + 3, o, Nat.le_refl _, ?_, fun _ => rfl⟩
      rw [getElem?_append_right (Nat.le_add_right _ _), Nat.add_sub_cancel_left]
      rfl
    · refine Event.promptAfter_of_not_invoked fun c o hmem => ?_
      rcases mem_cons.1 hmem with hmem | hmem
      · cases hmem
      · exact invoked_not_mem_registerEvents hmem
  · exact Event.promptAfter_of_not_invoked (by simp)

/-- The callback of an adoption is invoked. -/
theorem promptAfter_adopt {es : List Event} (hrecorded : Event.Recorded es s.promises)
    (hmade : s.promises.size = Event.made es) (q : Nat) (o : Outcome Value) :
    Event.PromptAfter es (.invoked (.adopt q) o :: s.settleEvents q o) := by
  intro w r o' hw hr
  cases w with
  | succ w =>
    rw [getElem?_cons_succ] at hw
    exact absurd (mem_of_getElem? hw) invoked_not_mem_settleEvents
  | zero =>
    cases hw
    rw [take_zero, append_nil, ← hmade] at hr
    unfold settleEvents
    cases hq : s.promises[q]? with
    | none => exact absurd hr (Nat.not_lt.2 (Array.getElem?_eq_none_iff.1 hq))
    | some promise =>
      cases promise with
      | pending waiting =>
        refine ⟨es.length + 1, o, Nat.le_refl _, ?_, fun _ => rfl⟩
        rw [getElem?_append_right (Nat.le_add_right _ _), Nat.add_sub_cancel_left]
        rfl
      | settled x =>
        obtain ⟨j, hj⟩ := mem_iff_getElem?.1 ((hrecorded.outcome q x).1 hq)
        have hlt := (List.getElem?_eq_some_iff.1 hj).1
        refine ⟨j, x, by omega, (getElem?_append_left hlt).trans hj, fun hgt => ?_⟩
        omega

end Store

theorem Action.invoked_not_mem_events {action : Action} {c : Callback} :
    .invoked c o ∉ action.events s := by
  cases action with
  | fulfill b q v => exact Store.invoked_not_mem_fulfillEvents
  | reject b q e => exact Store.invoked_not_mem_settleEvents
  | subscribe b q k => exact Store.invoked_not_mem_registerEvents
  | next _ | throw _ | fault _ | call _ _ _ _ => exact not_mem_nil

namespace Machine

variable {p : Program} {m : Machine} {a : Agenda} {es : List Event}

/-- The events of a step go on promptly. -/
theorem Agrees.promptAfter (h : m.Agrees a) (hturns : Agenda.Turns ⟨#[], [], false⟩ es a) :
    Event.PromptAfter es (m.events p) := by
  obtain ⟨s, control, ts⟩ := m
  have hrecorded := (Event.exists_ledger hturns).1
  have hmade := Event.size_of_turns hturns
  rw [h.promises] at hrecorded hmade
  rw [Array.size_empty, Nat.zero_add] at hmade
  cases control with
  | exec b =>
    refine Event.promptAfter_of_not_invoked fun c o hmem => ?_
    simp only [events, Activation.events] at hmem
    split at hmem
    · cases hmem
    · split at hmem
      · rename_i i _
        rcases mem_append.1 hmem with hmem | hmem
        · cases i <;> simp [Instr.events] at hmem
        · exact Action.invoked_not_mem_events hmem
      · cases hmem
  | enter name args depth =>
    simp only [events, Program.enterEvents]
    split
    · exact Event.promptAfter_of_not_invoked (by simp)
    · split
      · rename_i f _
        cases f s.calls args with
        | settled x => exact Store.promptAfter_settledPromise es _ _
        | pending _ | answer _ | throw _ | note _ | lookup _ | assign _ _ | invoke _ _ =>
          exact Event.promptAfter_of_not_invoked (by simp [Store.performEvents])
      · exact Event.promptAfter_of_not_invoked (by simp)
  | deliver x cs =>
    cases cs with
    | nil => exact Event.promptAfter_of_not_invoked (by simp [events])
    | cons c cs =>
      cases c with
      | adopt q => exact Store.promptAfter_adopt hrecorded hmade q x
      | resume _ _ _ _ | note _ =>
        intro w q o hw
        cases w <;> simp [events, Callback.events] at hw
  | answer v => exact Event.promptAfter_of_not_invoked (by simp [events])
  | unwind u =>
    cases ts with
    | nil => exact Event.promptAfter_of_not_invoked (by simp [events])
    | cons t ts =>
      cases t with
      | resumed outer saved =>
        cases outer with
        | none => exact Event.promptAfter_of_not_invoked (by simp [events])
        | some q =>
          exact Event.promptAfter_of_not_invoked fun c o =>
            Store.invoked_not_mem_settleEvents
      | caller _ _ | deliver _ _ | restore _ =>
        exact Event.promptAfter_of_not_invoked (by simp [events])

theorem Agrees.prompt_trace {steps : Nat} {es' : List Event} {s : Store} (h : m.Agrees a)
    (hturns : Agenda.Turns ⟨#[], [], false⟩ es a) (hprompt : Event.Prompt es)
    (hm : m.trace? p steps = some (es', s)) : Event.Prompt (es ++ es') := by
  induction steps generalizing m a es es' with
  | zero => cases hm
  | succ steps ih =>
    rw [trace?] at hm
    split at hm
    · cases hm
      rwa [append_nil]
    · rename_i m' hstep
      obtain ⟨⟨es₁, s'⟩, hes, heq⟩ := Option.map_eq_some_iff.1 hm
      cases heq
      obtain ⟨b, hb, hagrees⟩ := h.step hstep
      rw [← append_assoc]
      exact ih hagrees (hturns.trans hb) (hprompt.append (h.promptAfter hturns)) hes

end Machine

theorem Operation.promptAfter (es : List Event) (s : Store) (op : Operation) :
    Event.PromptAfter es (op.events s) := by
  cases op with
  | settled x => exact Store.promptAfter_settledPromise es s x
  | subscribe q c =>
    exact Event.promptAfter_of_not_invoked fun _ _ => Store.invoked_not_mem_registerEvents
  | fulfill q v =>
    exact Event.promptAfter_of_not_invoked fun _ _ => Store.invoked_not_mem_fulfillEvents
  | reject q e | settle q o =>
    exact Event.promptAfter_of_not_invoked fun _ _ => Store.invoked_not_mem_settleEvents
  | new | invoke name args => exact Event.promptAfter_of_not_invoked (by simp [events])

/-- **In every history adoptions settle at once.** -/
theorem History.prompt {p : Program} {t : Store} (h : History p s es t) (hs : s.promises = #[]) :
    Event.Prompt es := by
  induction h with
  | start => intro v q o hv; cases hv
  | between _ _ ih => exact ih
  | @operate es es' t u op steps hprev htrace ih =>
    obtain ⟨⟨es'', u'⟩, hrun, heq⟩ := Option.map_eq_some_iff.1 htrace
    cases heq
    have hturns : Agenda.Turns ⟨#[], [], false⟩ es ⟨t.promises, [], false⟩ := hs ▸ hprev.turns
    obtain ⟨b, hb, hagrees⟩ := op.exists_agrees t
    rw [← append_assoc]
    exact hagrees.prompt_trace (hturns.trans hb) (ih.append (op.promptAfter es t)) hrun

/-! ### Where outcomes come from -/

/-- Events that end with a list can be cut before one of its members. -/
theorem Agenda.Turns.split {a b : Agenda} {es' : List Event} {e : Event}
    (h : a.Turns (es ++ e :: es') b) : ∃ c d, a.Turns es c ∧ e.Turns c d ∧ d.Turns es' b := by
  induction es' using reverseRecOn generalizing b with
  | nil =>
    generalize hsum : es ++ [e] = all at h
    cases h with
    | refl => simp at hsum
    | @snoc es₁ e₁ c d hbefore he =>
      obtain ⟨rfl, heq⟩ := append_inj' hsum rfl
      cases heq
      exact ⟨c, b, hbefore, he, .refl⟩
  | append_singleton es' x ih =>
    generalize hsum : es ++ e :: (es' ++ [x]) = all at h
    cases h with
    | refl => simp at hsum
    | @snoc es₁ e₁ c d hbefore he =>
      rw [← cons_append, ← append_assoc] at hsum
      obtain ⟨rfl, heq⟩ := append_inj' hsum rfl
      cases heq
      obtain ⟨c', d', h₁, h₂, h₃⟩ := ih hbefore
      exact ⟨c', d', h₁, h₂, h₃.snoc he⟩

namespace Event

variable {es : List Event} {a : Agenda}

/-- The promise `q` adopts the promise `r`. -/
def Adopts (es : List Event) (q r : Nat) : Prop := .registered r (.adopt q) ∈ es

/-- The promise is settled, and not by the callback of an adoption. -/
def SettledDirectly (es : List Event) (q : Nat) (o : Outcome Value) : Prop :=
  ∃ j, es[j]? = some (.settled q o) ∧ ∀ i, i + 1 = j → es[i]? ≠ some (.invoked (.adopt q) o)

/-- A callback that is invoked was registered on a promise that had settled with the outcome. -/
theorem exists_source (h : Agenda.Turns ⟨#[], [], false⟩ es a) {i : Nat} {c : Callback}
    {o : Outcome Value} (hi : es[i]? = some (.invoked c o)) :
    ∃ r k, .registered r c ∈ es ∧ k < i ∧ es[k]? = some (.settled r o) := by
  obtain ⟨hlt, hget⟩ := List.getElem?_eq_some_iff.1 hi
  have hsplit : es = es.take i ++ .invoked c o :: es.drop (i + 1) := by
    rw [← hget, getElem_cons_drop, take_append_drop]
  rw [hsplit] at h
  obtain ⟨b, d, hbefore, hinvoke, -⟩ := h.split
  obtain ⟨hrecorded, ran, due, hledger⟩ := exists_ledger hbefore
  cases hinvoke with
  | @invokes ps rest _ _ urgent =>
    obtain ⟨n, due', ⟨r, hn, hr⟩, -, rfl⟩ := forall₂_cons_right_iff.1 hledger.agenda
    obtain ⟨k, hk⟩ := mem_iff_getElem?.1 ((hrecorded.outcome r o).1 hr)
    have hki : k < i := by
      have := (List.getElem?_eq_some_iff.1 hk).1
      rw [length_take] at this
      omega
    refine ⟨r, k, mem_of_mem_take (mem_of_getElem? hn), hki, ?_⟩
    rwa [getElem?_take_of_lt hki] at hk

/-- **Every settlement goes back to a direct one**, from adoption to adopted promise. -/
theorem exists_root (h : Agenda.Turns ⟨#[], [], false⟩ es a) {j q : Nat} {o : Outcome Value}
    (hj : es[j]? = some (.settled q o)) :
    ∃ r, ReflTransGen (Adopts es) q r ∧ SettledDirectly es r o := by
  -- an adoption hands on an outcome that was there before
  induction j using Nat.strongRecOn generalizing q with
  | ind j ih =>
    by_cases hdirect : ∀ i, i + 1 = j → es[i]? ≠ some (.invoked (.adopt q) o)
    · exact ⟨q, .refl, j, hj, hdirect⟩
    · obtain ⟨i, rfl, hi⟩ : ∃ i, i + 1 = j ∧ es[i]? = some (.invoked (.adopt q) o) := by
        simpa using hdirect
      obtain ⟨r, k, hadopts, hki, hk⟩ := exists_source h hi
      obtain ⟨x, hpath, hx⟩ := ih k (by omega) hk
      exact ⟨x, .head hadopts hpath, hx⟩

end Event

/-! ### Adoption -/

namespace Flattened

variable {p : Program} {s t u : Store} {es es' : List Event}

theorem trans (h : Flattened p s es t) (h' : Flattened p t es' u) :
    Flattened p s (es ++ es') u := by
  induction h' with
  | start =>
    rw [append_nil]
    exact h
  | between _ hp ih => exact ih.between hp
  | operate _ hop htrace ih =>
    rw [← append_assoc]
    exact ih.operate hop htrace

theorem of_play {steps : Nat} {ops : List Operation}
    (h : Operation.play? p steps s ops = some (es, t))
    (hops : ∀ op ∈ ops, op.Flattens) : Flattened p s es t := by
  induction ops generalizing s es with
  | nil =>
    cases h
    exact .start
  | cons op ops ih =>
    rw [Operation.play?] at h
    split at h
    · cases h
    · rename_i es₁ s₁ hop
      obtain ⟨⟨es₂, s₂⟩, hplay, heq⟩ := Option.map_eq_some_iff.1 h
      cases heq
      have hfirst := Flattened.operate .start (hops op mem_cons_self) hop
      exact hfirst.trans (ih hplay fun o ho => hops o (mem_cons_of_mem _ ho))

end Flattened

/-- A registration on a settled promise has an invocation of its own. -/
theorem Event.Served.exists_invocation {t : Store} {ran : List Nat} (h : Event.Served es t ran)
    {i : Nat} {c : Callback} (hi : es[i]? = some (.registered r c)) (hr : t.outcome? r = some o) :
    ∃ v, (i, v) ∈ ran.zip (invocations es) ∧ i < v ∧ es[v]? = some (.invoked c o) := by
  have hran : i ∈ ran := (h.exactly i).2 ⟨r, c, hi, Option.isSome_iff_exists.2 ⟨o, hr⟩⟩
  rw [← map_fst_zip (Nat.le_of_eq h.invoked.length_eq)] at hran
  obtain ⟨⟨i', v⟩, hv, rfl⟩ := mem_map.1 hran
  obtain ⟨r', c', o', hreg, hout, hlt, hinv⟩ := forall₂_zip h.invoked hv
  cases hi.symm.trans hreg
  cases hr.symm.trans hout
  exact ⟨v, hv, hlt, hinv⟩

/-- Where the adopted promise has settled, the adopting one has too.  The invocation that belongs to
the adoption settles it, unless it was settled before. -/
theorem History.adopted {p : Program} {t : Store} (h : History p s es t) (hs : s.promises = #[])
    {ran : List Nat} (hserved : Event.Served es t ran) {i q : Nat}
    (hi : es[i]? = some (.registered r (.adopt q))) (hq : q < Event.made (es.take i))
    (hr : t.outcome? r = some o) :
    t.isSettled q = true ∧ ∃ v, (i, v) ∈ ran.zip (Event.invocations es) ∧
      es[v]? = some (.invoked (.adopt q) o) ∧
      ((∀ k < v, ∀ o', es[k]? ≠ some (.settled q o')) →
        es[v + 1]? = some (.settled q o) ∧ t.outcome? q = some o) := by
  have hturns : Agenda.Turns ⟨#[], [], false⟩ es ⟨t.promises, [], false⟩ := hs ▸ h.turns
  have hrecorded := (Event.exists_ledger hturns).1
  obtain ⟨v, hv, hlt, hinv⟩ := hserved.exists_invocation hi hr
  have hmade : q < Event.made (es.take v) :=
    Nat.lt_of_lt_of_le hq (List.Sublist.countP_le (take_sublist_take_left (Nat.le_of_lt hlt)))
  obtain ⟨j, o', hj, hsettled, hout⟩ := h.prompt hs v q o hinv hmade
  have hoq : t.outcome? q = some o' :=
    Store.outcome?_eq_some.2 ((hrecorded.outcome q o').2 (mem_of_getElem? hsettled))
  refine ⟨Option.isSome_iff_exists.2 ⟨o', hoq⟩, v, hv, hinv, fun hfirst => ?_⟩
  -- The settlement is not before the invocation and not the invocation, so it comes next.
  have hge : ¬ j < v := fun hjv => hfirst j hjv o' hsettled
  have hne : j ≠ v := by
    rintro rfl
    rw [hinv] at hsettled
    cases hsettled
  obtain rfl : o' = o := hout (by omega)
  obtain rfl : j = v + 1 := by omega
  exact ⟨hsettled, hoq⟩

/-- **Adoption flattens futures.**  Let a host go through any operations on promises, one after the
other, from a store without promises, and never settle a promise directly with a fulfilled future.

* No promise is ever fulfilled with a future, not while an operation runs either.
* To fulfil a pending promise with a future registers an adoption.  When the host is at rest and the
  adopted promise has settled, then so has the adopting one: the callback of this very adoption was
  invoked, and settled it with the same outcome, unless another settlement of it came before that.
* Promises that adopt only each other are pending as long as none of them is settled directly.
* In any store whose callbacks are adoptions and notes a settlement ends, whatever cycles the
  adoptions form and whatever waits for it, and gives its outcome to the promises that adopt the
  settled one, directly or not. -/
theorem Flattened.adoption_flattens {p : Program} {s t : Store} {es : List Event}
    (h : Flattened p s es t) (hs : s.promises = #[]) :
    ((∀ q o, .settled q o ∈ es → o.Flat) ∧ (∀ q o, t.outcome? q = some o → o.Flat) ∧
      ∀ (op : Operation) (m : Machine), op.Flattens → (op.machine t).Steps p m →
        ∀ q o, m.store.outcome? q = some o → o.Flat) ∧
    ((∀ (u : Store) (q r : Nat), u.isSettled q = false → r < u.promises.size →
        u.fulfillEvents q (.future r) = [.registered r (.adopt q)]) ∧
      ∃ ran, Event.Served es t ran ∧
        ∀ i q r o, es[i]? = some (.registered r (.adopt q)) → q < Event.made (es.take i) →
          t.outcome? r = some o → t.isSettled q = true ∧
            ∃ v, (i, v) ∈ ran.zip (Event.invocations es) ∧ es[v]? = some (.invoked (.adopt q) o) ∧
              ((∀ k < v, ∀ o', es[k]? ≠ some (.settled q o')) →
                es[v + 1]? = some (.settled q o) ∧ t.outcome? q = some o)) ∧
    (∀ members : Nat → Prop, (∀ q r, members q → Event.Adopts es q r → members r) →
      (∀ q o, members q → ¬ Event.SettledDirectly es q o) → ∀ q, members q → t.outcome? q = none) ∧
    ∀ (u : Store) (x : Nat) (o : Outcome Value), u.Passive →
      ∃ w v, (Machine.settle u x o).run? p (3 * u.load + 2) = some (w, .ok v) ∧
        (∀ tasks, (Machine.of (u.settle x o) tasks).Steps p ⟨w, .answer v, tasks⟩) ∧
        u.Flooded x o w := by
  obtain ⟨hsettled, hflat⟩ := h.flat hs
  have hturns := h.turns hs
  refine ⟨⟨hsettled, fun q o hq => hflat.promises q o (Store.outcome?_eq_some.1 hq), ?_⟩,
    ⟨?_, ?_⟩, ?_, fun u x o hu => Machine.run?_settle p hu x o⟩
  · intro op m hop hm q o hq
    obtain ⟨b, hb, hagrees⟩ := op.exists_agrees t
    have hbflat := hflat.turns hb fun q o hmem => Operation.flat_events hop hflat.promises hmem
    obtain ⟨c, hc, hcflat⟩ := hagrees.flat_steps hbflat hm
    exact hcflat.promises q o (by rw [hc.promises]; exact Store.outcome?_eq_some.1 hq)
  · intro u q r hq hr
    have hexists : u.promises[r]? = some u.promises[r] := Array.getElem?_eq_getElem hr
    simp [Store.fulfillEvents, Store.registerEvents, hq, hexists]
  · obtain ⟨-, ran, due, hledger⟩ := Event.exists_ledger hturns
    exact ⟨ran, hledger.served, fun i q r o hi hq hr =>
      h.history.adopted hs hledger.served hi hq hr⟩
  · intro members hclosed hdirect q hq
    refine Option.eq_none_iff_forall_ne_some.2 fun o ho => ?_
    have hmem := ((Event.exists_ledger hturns).1.outcome q o).1 (Store.outcome?_eq_some.1 ho)
    obtain ⟨j, hj⟩ := List.mem_iff_getElem?.1 hmem
    obtain ⟨r, hpath, hr⟩ := Event.exists_root hturns hj
    -- the way back does not leave the members
    have hmember : members r := by
      clear hr
      induction hpath with
      | refl => exact hq
      | tail _ hstep ih => exact hclosed _ _ ih hstep
    exact hdirect r o hmember hr

/-- Two promises adopt each other and a third adopts itself; then the first is fulfilled
directly. -/
theorem adoption_flattens_cycle :
    ∃ es t, Flattened {} {} es t ∧ Store.promises {} = #[] ∧
      es = [.created, .created, .created, .registered 1 (.adopt 0), .registered 0 (.adopt 1),
        .registered 2 (.adopt 2), .settled 0 (.fulfilled (.int 5)),
        .invoked (.adopt 1) (.fulfilled (.int 5)), .settled 1 (.fulfilled (.int 5)),
        .invoked (.adopt 0) (.fulfilled (.int 5))] ∧
      t.outcome? 1 = some (.fulfilled (.int 5)) ∧ t.outcome? 2 = none ∧
      (∀ q o, .settled q o ∈ es → o.Flat) := by
  obtain ⟨⟨es, t⟩, hplay⟩ : ∃ c, Operation.play? {} 20 {} [.new, .new, .new, .fulfill 0 (.future 1),
      .fulfill 1 (.future 0), .fulfill 2 (.future 2), .fulfill 0 (.int 5)] = some c := ⟨_, rfl⟩
  have hflattened : Flattened {} {} es t := .of_play hplay (by simp [Operation.Flattens])
  have hes : es = [.created, .created, .created, .registered 1 (.adopt 0), .registered 0 (.adopt 1),
      .registered 2 (.adopt 2), .settled 0 (.fulfilled (.int 5)),
      .invoked (.adopt 1) (.fulfilled (.int 5)), .settled 1 (.fulfilled (.int 5)),
      .invoked (.adopt 0) (.fulfilled (.int 5))] :=
    congrArg Prod.fst (Option.some.inj (hplay.symm.trans rfl))
  have hzero : t.outcome? 0 = some (.fulfilled (.int 5)) := by
    have ht := congrArg (fun c => c.2.outcome? 0) (Option.some.inj (hplay.symm.trans rfl))
    exact ht
  obtain ⟨⟨hflat, -, -⟩, ⟨-, _, -, hadopted⟩, hcycle, -⟩ := hflattened.adoption_flattens rfl
  refine ⟨es, t, hflattened, rfl, hes, ?_, ?_, hflat⟩
  · obtain ⟨-, v, -, hv, hfirst⟩ := hadopted 4 1 0 _ (by rw [hes]; rfl) (by rw [hes]; decide) hzero
    refine (hfirst fun k hk o' hsettled => ?_).2
    -- the callback is the first of the two that are invoked
    rw [hes] at hv hsettled
    rcases v with _ | _ | _ | _ | _ | _ | _ | _ | _ | _ | v <;> cases hv
    rcases k with _ | _ | _ | _ | _ | _ | _ | k <;> first | cases hsettled | omega
  · refine hcycle (· = 2) ?_ ?_ 2 rfl
    · rintro q r rfl hr
      simpa [Event.Adopts, hes] using hr
    · rintro q o rfl ⟨j, hj, -⟩
      have hmem := List.mem_of_getElem? hj
      simp [hes] at hmem

end Resumable
