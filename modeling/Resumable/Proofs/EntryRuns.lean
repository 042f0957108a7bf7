/-
**Calling the entry of a converted method.**

A call of the entry does what a call of the method does, up to the first marker whose future has not
settled.  The entry makes the outer future and a frame, so on its side all cells made later have
numbers one higher; a renaming says so.  Both sides make the same native calls in the same order.

* If the method returns, its value is given to the outer future, and the entry returns that future.
* If the method throws, the entry throws the same exception.
* If the method waits at a marker for a future that has not settled, the entry returns the outer
  future, still pending, after the dispatcher was registered with that future for the state of the
  marker, with a frame that holds the saved locals.
* If the method comes to another fault, so does the entry; if it runs for ever, so does the entry.

Main results:

* `Conversion.entryAgrees_of_convert` — **the entry agrees with the method**.
-/

import Resumable.Proofs.Replacement

set_option autoImplicit false

namespace Resumable

open Dispatcher Activation List

/-! ### Closed stores -/

/-- **Everything in the store names cells that exist.** -/
structure Store.Closed (s : Store) : Prop where
  promises : ∀ (c : Nat) (p : Promise), s.promises[c]? = some p →
    p.Names (· < s.promises.size) (· < s.frames.size)
  frames : ∀ (c : Nat) (f : Frame), s.frames[c]? = some f →
    f.outer < s.promises.size ∧ ∀ v ∈ f.slots, v.Within s.promises.size s.frames.size
  ambient : ∀ c ∈ s.ambient, c.2.Within s.promises.size s.frames.size
  queue : ∀ c ∈ s.queue, c.2 < s.promises.size
  calls : ∀ c ∈ s.calls, ∀ v ∈ c.args, v.Within s.promises.size s.frames.size

/-- The future and the frame of the entry come before all cells that are made later. -/
abbrev Store.shift (s : Store) : Renaming := Renaming.skip s.promises.size s.frames.size

section Shift

variable (s : Store)

theorem Store.shift_promise : ∀ p, p < s.promises.size → s.shift.promise p = p :=
  fun _ h => if_pos h

theorem Store.shift_frame : ∀ c, c < s.frames.size → s.shift.frame c = c :=
  fun _ h => if_pos h

theorem Store.shift_promise_of_le {p : Nat} (h : s.promises.size ≤ p) :
    s.shift.promise p = p + 1 :=
  if_neg (Nat.not_lt_of_le h)

theorem Store.shift_frame_of_le {c : Nat} (h : s.frames.size ≤ c) : s.shift.frame c = c + 1 :=
  if_neg (Nat.not_lt_of_le h)

end Shift

theorem promises_opened (s : Store) (args : List Value) :
    (opened s args).promises = s.promises.push (.pending []) := rfl

theorem frames_opened (s : Store) (args : List Value) :
    (opened s args).frames = s.frames.push ⟨s.promises.size, args⟩ := rfl

/-- **After the entry has made the outer future and its frame**, the store is the old one with these
two cells left out. -/
theorem renamed_opened {s : Store} (h : s.Closed) (args : List Value) :
    Store.Renamed s.shift (opened s args) s (opened s args) where
  promises c := by
    rw [promises_opened]
    by_cases hc : c < s.promises.size
    · rw [s.shift_promise c hc, Array.getElem?_push_lt hc, Array.getElem?_eq_getElem hc]
      exact congrArg some (Promise.rename_of_names s.shift_promise s.shift_frame
        (h.promises c _ (Array.getElem?_eq_getElem hc))).symm
    · have hle := Nat.le_of_not_lt hc
      rw [s.shift_promise_of_le hle, Array.getElem?_eq_none hle]
      exact Array.getElem?_eq_none (by simpa using hle)
  newPromises i := by
    rw [promises_opened, s.shift_promise_of_le (Nat.le_add_right _ i), Array.size_push]
    omega
  ownPromises _ _ := rfl
  frames c := by
    rw [frames_opened]
    by_cases hc : c < s.frames.size
    · rw [s.shift_frame c hc, Array.getElem?_push_lt hc, Array.getElem?_eq_getElem hc]
      obtain ⟨houter, hslots⟩ := h.frames c _ (Array.getElem?_eq_getElem hc)
      exact congrArg some (Frame.rename_of_names s.shift_promise s.shift_frame houter hslots).symm
    · have hle := Nat.le_of_not_lt hc
      rw [s.shift_frame_of_le hle, Array.getElem?_eq_none hle]
      exact Array.getElem?_eq_none (by simpa using hle)
  newFrames i := by
    rw [frames_opened, s.shift_frame_of_le (Nat.le_add_right _ i), Array.size_push]
    omega
  ownFrames _ _ := rfl
  identities := rfl
  ambient := (Ambient.rename_of_names s.shift_promise s.shift_frame h.ambient).symm
  log := rfl
  queue := by
    have hc : ∀ c ∈ s.queue, (c.1, s.shift.promise c.2) = c :=
      fun c hc => by rw [s.shift_promise c.2 (h.queue c hc)]
    rw [map_congr_left hc, List.map_id']
    rfl
  calls := by
    have hc : ∀ c ∈ s.calls, NativeCall.rename s.shift c = c :=
      fun c hc => NativeCall.rename_of_names s.shift_promise s.shift_frame (h.calls c hc)
    rw [map_congr_left hc, List.map_id']
    rfl

/-! ### The outer future -/

/-- **Fulfilling a promise that nothing waits for** runs no code. -/
theorem finishes_fulfill_pending {t : Store} {q : Nat} (h : t.promises[q]? = some (.pending []))
    (v : Value) (prog : Program) :
    ∃ t', (Machine.fulfill t q v).Finishes prog t' (.ok (.bool true)) ∧ t'.calls = t.calls := by
  have hsettle : ∀ o, t.settle q o =
      ({ t with promises := t.promises.setIfInBounds q (.settled o) }, .deliver o []) := by
    intro o
    rw [Store.settle, Store.settle?, h]
  by_cases hv : ∃ c, v = .future c
  · obtain ⟨c, rfl⟩ := hv
    have hpending : t.isSettled q = false := by
      rw [Store.isSettled, Store.outcome?, h]
      rfl
    have hfulfill : t.fulfill q (.future c) = t.register c (.adopt q) := by
      rw [Store.fulfill, hpending]
      rfl
    rw [Machine.fulfill, hfulfill, Store.register, Store.subscribe]
    cases hc : t.promises[c]? with
    | none => exact ⟨t, ⟨1, rfl⟩, rfl⟩
    | some p =>
      cases p with
      | pending waiting => exact ⟨_, ⟨1, rfl⟩, rfl⟩
      | settled o =>
        -- The outcome is handed on at once.
        refine ⟨{ t with promises := t.promises.setIfInBounds q (.settled o) }, ⟨6, ?_⟩, rfl⟩
        simp only [Machine.run?, Machine.step?, Machine.of, Machine.call, hsettle,
          Machine.answered]
        rfl
  · have hfulfill : t.fulfill q v = t.settle q (.fulfilled v) := by
      cases v <;> first | rfl | exact absurd ⟨_, rfl⟩ hv
    rw [Machine.fulfill, hfulfill, hsettle]
    exact ⟨_, ⟨2, rfl⟩, rfl⟩

/-! ### Starting the dispatcher -/

/-- The locals of a method that is called are those that no path to its entry assigns, null. -/
theorem visits_start (m : Method) (args : List Value) :
    m.Visits ⟨m.entry, 0⟩ (Locals.ofArgs m.params args) where
  reaches := .refl
  unset l hl := by
    rw [Locals.ofArgs_eq_setAll]
    refine (Locals.get_setAll_of_not_mem _ fun c hc heq => hl (.inl ?_)).trans rfl
    rw [← heq]
    exact (of_mem_zip hc).1

/-- **The dispatcher in state 0** meets the method at its start. -/
theorem meets_start {p : Plan} {isMarker : String → Bool} {r : IdSet} (hp : p.Made isMarker r)
    (hparams : p.method.DeclaresParams) {s : Store} (hclosed : s.Closed)
    {args : List Value} (hargs : args.length = p.method.params.length)
    (hwithin : ∀ v ∈ args, v.Within s.promises.size s.frames.size) {depth depth' : Nat}
    (hdepth : depth ≤ depth') (tgt : Program) (below below' : List Task) :
    ∃ t, Machine.Steps tgt
        ⟨opened s args, .exec (start p.dispatcher [.int 0, .null, .frame s.frames.size] depth'),
          below'⟩ t ∧
      p.Meets r s.shift (opened s args) s.promises.size 0 below
        below' ⟨s, .exec (start p.method args depth), below⟩ t := by
  have hframe : (opened s args).frames[s.frames.size]? = some ⟨s.promises.size, args⟩ :=
    Store.frames_addFrame _ _
  obtain ⟨d, hhead, hopened⟩ := Plan.inside_head (p := p) hframe 0 .null depth' tgt below'
  have hstands : p.Stands .start d := ⟨hopened.method, hopened.block, hopened.offset⟩
  have hahead := hstands.ahead (Plan.mem_roles_fixed (by simp))
  have hslots : (opened s args).slots s.frames.size = args := by
    rw [Store.slots, hframe]
    rfl
  have hahead' : d.Ahead (p.restore (p.method.params.map (·.id)) ++ [])
      (.goto (p.nodeBlock p.graph.entry)) := by
    rw [append_nil]
    exact hahead
  obtain ⟨c, hrestore, hend, -, hrestored⟩ :=
    hopened.inside_restore (fun _ => hparams.mem_localIds) hslots
    (by rw [length_map, hargs]) hahead' tgt below'
  have hgoto := Plan.steps_goto hend tgt (opened s args) below'
  have hentry : p.graph.entry = p.method.entry := by rw [hp.graph]; rfl
  have hshares : p.Shares s.shift s.promises.size 0
      (fun _ => True) (start p.method args depth) c := {
    method := rfl
    dispatcher := hrestored.method
    monitors := hrestored.monitors
    depth := by rw [hrestored.depth]; exact hdepth
    state := hrestored.state
    outer := hrestored.outer
    locals := fun l hl _ => by
      rw [hrestored.locals l hl, ← Locals.ofArgs_eq_setAll]
      have hrename := Program.AgreeOff.ofArgs_rename
        (ρ := s.shift) p.method.params args l
      rw [Value.map_rename_of_names s.shift_promise s.shift_frame hwithin] at hrename
      exact hrename }
  obtain ⟨n, habreast⟩ := Plan.abreast_jump hp hshares (k := p.method.entry)
    (hentry ▸ hp.flow.entry) hp.sound.entry (fun _ _ => trivial) []
    (visits_start p.method args)
  refine ⟨_, hhead.steps.trans (hrestore.steps.trans (Machine.Step.steps hgoto)), ?_⟩
  rw [hrestored.stack, hentry]
  exact .own (renamed_opened hclosed args) habreast

/-! ### Calls -/

/-- **How a call of the entry ends**, given how the call of the method ends.  The cells of the
entry's side are renamed, and its outer future is the first promise that it makes. -/
inductive Conversion.EntryEnds (n : Method) (pair : Conversion.Pair) (src tgt : Program) (s : Store)
    (name : String) (args : List Value) : Store → Except Unwind Value → Prop where
  /-- The method returns: the outer future, which is pending and nobody waits for, is fulfilled with
  the value, and returned. -/
  | returned {s' t t' : Store} (v : Value) : Store.Renamed s.shift (opened s args) s' t →
      (n.ret.isVoid = true → v = .null) → t.promises[s.promises.size]? = some (.pending []) →
      (Machine.fulfill t s.promises.size (v.rename s.shift)).Finishes tgt t' (.ok (.bool true)) →
      (Machine.invoke s name args).Finishes tgt t' (.ok (.future s.promises.size)) →
      EntryEnds n pair src tgt s name args s' (.ok v)
  /-- The method throws, and so does the entry. -/
  | threw {s' t : Store} (e : Value) : Store.Renamed s.shift (opened s args) s' t →
      t.promises[s.promises.size]? = some (.pending []) →
      (Machine.invoke s name args).Finishes tgt t (.error (.throw (e.rename s.shift))) →
      EntryEnds n pair src tgt s name args s' (.error (.throw e))
  /-- The method waits at a marker for a promise that has not settled: the dispatcher is registered
  with that promise, and the outer future is returned. -/
  | waited {k : Machine} {a : Activation} {q : Nat} {point : Suspension} {t : Store}
      (marker : String) : (Machine.invoke s name args).Steps src k →
      Machine.BlockedAt src n [] a q k → point ∈ pair.points → a.location = point.location →
      n.Visits point.location a.locals → Store.Renamed s.shift (opened s args) k.store t →
      t.promises[s.promises.size]? = some (.pending []) →
      (Machine.invoke s name args).Finishes tgt
        ((t.addFrame ⟨s.promises.size,
            point.live.map fun l => (a.locals.get l.1).rename s.shift⟩).subscribe
          (s.shift.promise q)
          (.resume pair.dispatcher.name point.index t.frames.size t.ambient)).1
        (.ok (.future s.promises.size)) →
      EntryEnds n pair src tgt s name args k.store (.error (.fault (.wouldBlock marker)))
  /-- The call has the wrong number of arguments: both refuse it, and nothing is done. -/
  | refused : args.length ≠ n.params.length →
      (Machine.invoke s name args).Finishes tgt s
        (.error (.fault (.arity name n.params.length args.length))) →
      EntryEnds n pair src tgt s name args s
        (.error (.fault (.arity name n.params.length args.length)))
  /-- The method comes to another fault, and the entry to the fault that answers it. -/
  | faulted {s' t : Store} (f f' : Fault) : Store.Renamed s.shift (opened s args) s' t →
      Fault.Answers n.name pair.dispatcher.name f f' →
      (∀ k, (Machine.invoke s name args).Steps src k → ¬ Machine.Blocked src n [] k) →
      (Machine.invoke s name args).Finishes tgt t (.error (.fault f')) →
      EntryEnds n pair src tgt s name args s' (.error (.fault f))

/-- **The entry agrees with the method**: it makes the same native calls in the same order, ends as
described when the method ends, and does not end when the method does not. -/
structure Conversion.EntryAgrees (n : Method) (pair : Conversion.Pair) (src tgt : Program)
    (s : Store) (name : String) (args : List Value) : Prop where
  calls : Machine.SameCalls (NativeCall.rename s.shift) src tgt (.invoke s name args)
    (.invoke s name args)
  ends : ∀ s' x, (Machine.invoke s name args).Finishes src s' x →
    Conversion.EntryEnds n pair src tgt s name args s' x
  endless : (∀ s' x, ¬ (Machine.invoke s name args).Finishes src s' x) →
    ∀ t x, ¬ (Machine.invoke s name args).Finishes tgt t x

section Calls

variable {n : Method} {pair : Conversion.Pair} {src tgt : Program} {s : Store} {name : String}
  {args : List Value}

/-- Nothing but the entry settles the outer future. -/
theorem pending_outer {s' t : Store} (h : Store.Renamed s.shift (opened s args) s' t) :
    t.promises[s.promises.size]? = some (.pending []) := by
  rw [h.ownPromises _ (Renaming.skip_promise_ne _ _), promises_opened, Array.getElem?_push_size]

/-- A native call made before the entry was called names no cell made later. -/
theorem calls_shift (h : s.Closed) : s.calls = s.calls.map (NativeCall.rename s.shift) :=
  (renamed_opened h []).calls

theorem Conversion.EntryAgrees.of_finishes (hclosed : s.Closed) {s' t : Store}
    {x y : Except Unwind Value} (hsource : (Machine.invoke s name args).Finishes src s' x)
    (htarget : (Machine.invoke s name args).Finishes tgt t y)
    (hcalls : t.calls = s'.calls.map (NativeCall.rename s.shift))
    (h : Conversion.EntryEnds n pair src tgt s name args s' x) :
    Conversion.EntryAgrees n pair src tgt s name args where
  calls := .of_finishes hsource htarget (calls_shift hclosed) hcalls
  ends s'' x' h' := by
    obtain ⟨rfl, rfl⟩ := hsource.unique h'
    exact h
  endless h' := absurd hsource (h' s' x)

/-- **The end of both calls**, from the end of the method and of the dispatcher.  `below'` is what
is left of the entry. -/
theorem exists_entryEnds {p : Plan} {below' : List Task} {m' t' : Machine}
    (hname : pair.dispatcher.name = p.name) (hpoints : pair.points = p.points)
    (hanswer : ∀ t v, Machine.Steps tgt ⟨t, .answer v, below'⟩ ⟨t, .answer v, []⟩)
    (hunwind : ∀ t u, Machine.Steps tgt ⟨t, .unwind u, below'⟩ ⟨t, .unwind u, []⟩)
    (hm : (Machine.invoke s name args).Avoids src (Machine.Blocked src p.method []) m')
    (ht : (Machine.invoke s name args).Steps tgt t')
    (hends : p.Ends src s.shift (opened s args) s.promises.size 0 [] below' m' t') :
    ∃ s' t x y, (Machine.invoke s name args).Finishes src s' x ∧
      (Machine.invoke s name args).Finishes tgt t y ∧
      t.calls = s'.calls.map (NativeCall.rename s.shift) ∧
      Conversion.EntryEnds p.method pair src tgt s name args s' x := by
  cases hends with
  | @returns s' t v b hs hvoid hyields =>
    obtain ⟨t', hfulfill, hcalls⟩ := finishes_fulfill_pending (pending_outer hs)
      (v.rename s.shift) tgt
    have htarget : (Machine.invoke s name args).Finishes tgt t' (.ok (.future s.promises.size)) :=
      (Machine.finishes_answer tgt t' _).of_steps <|
        ht.trans ((hfulfill.steps_atop _).trans ((hyields.steps tgt t' _ _).trans (hanswer t' _)))
    exact ⟨s', t', _, _, (Machine.finishes_answer src s' v).of_steps hm.steps, htarget,
      hcalls.trans hs.calls, .returned v hs hvoid (pending_outer hs) hfulfill htarget⟩
  | @throws s' t e hs _ =>
    have htarget := (Machine.finishes_unwind tgt t _).of_steps (ht.trans (hunwind t _))
    exact ⟨s', t, _, _, (Machine.finishes_unwind src s' (.throw e)).of_steps hm.steps, htarget,
      hs.calls, .threw e hs (pending_outer hs) htarget⟩
  | rejects e hs hstate _ => exact absurd rfl hstate
  | @parks _ t q c a b hs hblocked hq hlocation hvisits hyields =>
    obtain ⟨marker, hsource⟩ := hblocked.finishes
    have hpending : t.outcome? (s.shift.promise c) = none := by
      rw [hs.outcome?, hblocked.pending]
      rfl
    rw [register_of_pending (t := t.addFrame _) hpending] at ht
    have htarget := (Machine.finishes_answer tgt _ _).of_steps <|
      ht.trans ((hyields.steps tgt _ _ _).trans (hanswer _ _))
    refine ⟨m'.store, _, _, _, hsource.of_steps hm.steps, htarget,
      (Store.calls_subscribe ..).trans hs.calls, ?_⟩
    rw [← hname] at htarget
    exact .waited marker hm.steps hblocked (hpoints ▸ hq) hlocation hvisits hs (pending_outer hs)
      htarget
  | @faults s' t f f' hanswers hs =>
    have htarget := (Machine.finishes_unwind tgt t _).of_steps (ht.trans (hunwind t _))
    exact ⟨s', t, _, _, (Machine.finishes_unwind src s' (.fault f)).of_steps hm.steps, htarget,
      hs.calls, .faulted f f' hs (hname ▸ hanswers) hm.not_blocked htarget⟩

/-- Called with the wrong number of arguments, both sides refuse. -/
theorem entryAgrees_of_arity (hclosed : s.Closed) {m : Method} {d : String}
    (hsource : src.Resolves name n) (htarget : tgt.Resolves name (entry m d))
    (hparams : n.params = m.params) (h : args.length ≠ n.params.length) :
    Conversion.EntryAgrees n pair src tgt s name args := by
  have hlength : (entry m d).params.length = n.params.length := by
    rw [hparams]
    exact length_mapIdx
  have hstep := hsource.step s args 0 []
  have hstep' := htarget.step s args 0 []
  rw [Program.enterMethod, if_pos h] at hstep
  rw [Program.enterMethod, if_pos (hlength ▸ h), hlength] at hstep'
  have hend := (Machine.finishes_unwind tgt s _).of_steps (Machine.Step.steps hstep')
  exact .of_finishes hclosed ((Machine.finishes_unwind src s _).of_steps (Machine.Step.steps hstep))
    hend (calls_shift hclosed) (.refused h hend)

end Calls

/-- **The entry agrees with the method.**  The method `n`, without cleanup regions, stands in one
program, and the entry and the dispatcher in another, which differs from it under the given names
only.  No method of these names is called while the method runs, and the calls do not get too deep.
Native functions may do what they like, as long as they do not look at the numbers of cells. -/
theorem Conversion.entryAgrees_of_convert {m n : Method} {cls : String} {o : Options}
    {pair : Conversion.Pair} {names : List String} {src tgt : Program} {s : Store} {name : String}
    {args : List Value} (hconvert : m.convert cls o = .ok (.converted pair))
    (hn : m.withoutCleanup = .ok n) (hplain : m.Plain) (hparams : m.DeclaresParams)
    (hreplaces : pair.Replaces o names src tgt) (hsource : src.Resolves name n)
    (htarget : tgt.Resolves name pair.entry)
    (huniform : ∀ f g, src.native? f = some g → Native.Uniform s.shift g) (hclosed : s.Closed)
    (hwithin : ∀ v ∈ args, v.Within s.promises.size s.frames.size)
    (hnames : ∀ k, (Machine.invoke s name args).Runs src k →
      ∀ f xs depth, k.control = .enter f xs depth → f ∉ names)
    (hdepth : ∀ k, (Machine.invoke s name args).Steps tgt k →
      ∀ limit, k.control ≠ .unwind (.fault (.depthLimit limit))) :
    Conversion.EntryAgrees n pair src tgt s name args := by
  obtain ⟨hcheck, hgrows, p, r, hmade, rfl, hentry, hdispatcher, hpoints⟩ :=
    m.exists_plan hconvert hn
  rw [hentry] at htarget
  by_cases hargs : args.length ≠ p.method.params.length
  · exact entryAgrees_of_arity hclosed hsource htarget hgrows.params hargs
  have hargs := Decidable.of_not_not hargs
  have hargs' : args.length = m.params.length := hgrows.params ▸ hargs
  -- Both methods start.
  have hlength : args.length = (entry m p.name).params.length :=
    hargs'.trans (List.length_mapIdx (l := m.params)).symm
  have hcall := htarget.step s args 0 []
  have hpositive : 0 < tgt.maxDepth :=
    Program.lt_maxDepth name hlength (hdepth _ (Machine.Step.steps hcall))
  rw [Program.enterMethod_eq_exec name hlength hpositive] at hcall
  have hstart := hsource.step s args 0 []
  rw [Program.enterMethod_eq_exec name hargs (hreplaces.agree.maxDepth ▸ hpositive)] at hstart
  -- The entry calls the dispatcher.
  obtain ⟨e, hentered, hawaits⟩ := inside_entry (s := s) p.name hargs' 1 tgt []
  have hanswer : ∀ t v, Machine.Steps tgt ⟨t, .answer v, [.caller e true]⟩ ⟨t, .answer v, []⟩ :=
    fun t v => (Machine.Step.steps (hawaits.step_answer tgt t v [])).trans
      (Machine.Step.steps (hawaits.step_return tgt t v []))
  have hunwind : ∀ t u, Machine.Steps tgt ⟨t, .unwind u, [.caller e true]⟩ ⟨t, .unwind u, []⟩ :=
    fun t u => Machine.Step.steps (hawaits.step_unwind tgt t u [])
  have hresolves := hreplaces.dispatcher
  rw [hdispatcher] at hresolves
  have hdispatch := hresolves.step (opened s args) [.int 0, .null, .frame s.frames.size] 1
    [.caller e true]
  have hsteps := (Machine.Step.steps hcall).trans
    (hentered.steps.trans (Machine.Step.steps hdispatch))
  have hthree : [Value.int 0, .null, .frame s.frames.size].length =
      p.dispatcher.params.length := rfl
  have hlt : 1 < tgt.maxDepth := Program.lt_maxDepth p.dispatcher.name hthree (hdepth _ hsteps)
  rw [Program.enterMethod_eq_exec _ hthree hlt] at hsteps
  -- From here on the dispatcher follows the method.
  obtain ⟨t, hopened, hmeets⟩ := meets_start hmade (hparams.of_grows hgrows) hclosed hargs hwithin
    (Nat.le_succ 1) tgt [] [.caller e true]
  have hreaches := hsteps.trans hopened
  have hserves := hreplaces.serves hcheck hplain hmade hgrows
  rcases hserves.run huniform hmeets (fun k hk => hnames k (hstart.runs_trans hk))
    (fun k hk => hdepth k (hreaches.trans hk)) with ⟨m', t', hm', ht', hends⟩ | hendless
  · have hclear : ¬ Machine.Blocked src p.method [] (Machine.invoke s name args) := by
      rintro ⟨a, q, -, ⟨c, keep, -, -, -, htasks⟩, -⟩
      cases htasks
    obtain ⟨s', t₁, x, y, hfinal, hfinal', hcalls, hentryEnds⟩ := exists_entryEnds
      (congrArg (·.name) hdispatcher) hpoints hanswer hunwind ((hstart.avoids hclear).trans hm')
      (hreaches.trans ht') hends
    exact .of_finishes hclosed hfinal hfinal' hcalls hentryEnds
  · have hendless' := hendless.of_steps (Machine.Step.steps hstart) hreaches
    exact {
      calls := .of_endless hendless' (fun _ _ h => h.renamed.calls) (calls_shift hclosed)
      ends := fun s' x h => absurd h (hendless'.not_finishes_source s' x)
      endless := fun _ => hendless'.not_finishes_target }

/-! ### A method that waits and then adds -/

/-- Waits for its first argument and adds its second; if the wait fails, the answer is the second
argument. -/
def awaitAndAdd : Method where
  name := "m"
  params := [⟨0, some "f", .future, true⟩, ⟨1, some "k", .int, true⟩]
  ret := .int
  locals := [⟨0, some "f", .future, true⟩, ⟨1, some "k", .int, true⟩]
  blocks :=
    [⟨0, [.load 0, .invoke ⟨"Await.await", 1, .int⟩, .load 1, .binary .add], .ret⟩,
      ⟨1, [.pop, .load 1], .ret⟩]
  entry := 0
  regions := [⟨0, IdSet.ofList [0], 1, .catchAll⟩]

namespace awaitAndAdd

/-- What the method is converted to. -/
def pair : Conversion.Pair :=
  match awaitAndAdd.convert "C" {} with
  | .ok (.converted pair) => pair
  | _ => default

/-- A program with the method. -/
def source : Program := Program.addMethod {} awaitAndAdd

/-- The same program with the entry and the dispatcher. -/
def target : Program := (Program.addMethod {} pair.entry).addMethod pair.dispatcher

theorem convert_eq : awaitAndAdd.convert "C" {} = .ok (.converted pair) := by decide +kernel

theorem replaces : pair.Replaces {} ["m", "m$dispatch"] source target where
  agree := Program.agreeOff_addMethod {} (by decide) (by decide +kernel) (by decide +kernel)
  markers := rfl
  dispatcher := by
    constructor <;> decide +kernel

theorem uniform (ρ : Renaming) {f : String} {g : Native} (h : source.native? f = some g) :
    Native.Uniform ρ g :=
  Native.uniform_builtins ρ (mem_of_lookup_eq_some h)

/-- A store with one pending promise. -/
def store : Store := { promises := #[.pending []] }

theorem closed_store : store.Closed where
  promises c p h := by
    obtain ⟨hc, rfl⟩ := Array.getElem?_eq_some_iff.1 h
    have hzero : c = 0 := Nat.lt_one_iff.1 hc
    subst hzero
    simp [Promise.Names, store]
  frames c f h := by simp [store] at h
  ambient c h := by simp [store] at h
  queue c h := by simp [store] at h
  calls c h := by simp [store] at h

end awaitAndAdd

open awaitAndAdd in
/-- The method waits for the promise, and its entry registers the dispatcher there. -/
theorem entryAgrees_awaitAndAdd :
    awaitAndAdd.convert "C" {} = .ok (.converted pair) ∧
      Conversion.EntryAgrees awaitAndAdd pair source target store "m" [.future 0, .int 7] := by
  refine ⟨convert_eq, Conversion.entryAgrees_of_convert convert_eq rfl (by decide)
    (by decide) replaces ⟨rfl, rfl, rfl⟩ ?_ (fun _ _ => uniform _) closed_store ?_ ?_ ?_⟩
  · constructor <;> decide +kernel
  · simp [Value.Within, Value.Names, store]
  · intro k hk f xs depth hc
    exact Machine.not_mem_of_holdsAlong_next 20 (by decide +kernel) hk hc
  · intro k hk
    exact Machine.ne_depthLimit_of_holdsAlong 100 (by decide +kernel) hk

/-- Its argument is stored over the state. -/
def overState : Method := undeclared [0] [.construct "E" 0] .raise

namespace overState

theorem convert_eq : overState.convert "C" {} = .ok (.converted overState.generated) := by
  decide +kernel

/-- A program with the method. -/
def source : Program := Program.addMethod {} overState

theorem replaces : overState.generated.Replaces {} ["m", "m$dispatch"] source
    overState.generated.program where
  agree := Program.agreeOff_addMethod {} (by decide) (by decide +kernel) (by decide +kernel)
  markers := rfl
  dispatcher := by constructor <;> decide +kernel

end overState

open overState in
/-- **An undeclared parameter.**  All else is as it should be, but where the method throws, the
entry returns a future: the dispatcher finds another state than 0. -/
theorem not_entryAgrees_overState :
    overState.convert "C" {} = .ok (.converted overState.generated) ∧
      overState.withoutCleanup = .ok overState ∧ overState.Plain ∧
      overState.generated.Replaces {} ["m", "m$dispatch"] source overState.generated.program ∧
      source.Resolves "m" overState ∧
      overState.generated.program.Resolves "m" overState.generated.entry ∧
      (∀ f g, source.native? f = some g → Native.Uniform (Store.shift {}) g) ∧ Store.Closed {} ∧
      (∀ v ∈ [Value.int 5], v.Within 0 0) ∧
      (∀ k, (Machine.invoke {} "m" [.int 5]).Runs source k →
        ∀ f xs depth, k.control = .enter f xs depth → f ∉ ["m", "m$dispatch"]) ∧
      (∀ k, (Machine.invoke {} "m" [.int 5]).Steps overState.generated.program k →
        ∀ limit, k.control ≠ .unwind (.fault (.depthLimit limit))) ∧
      (∃ s e, (Machine.invoke {} "m" [.int 5]).Finishes source s (.error (.throw e))) ∧
      (∃ t, (Machine.invoke {} "m" [.int 5]).Finishes overState.generated.program t
        (.ok (.future 0))) ∧
      ¬ Conversion.EntryAgrees overState overState.generated source overState.generated.program {}
        "m" [.int 5] := by
  obtain ⟨s, e, hthrow⟩ : ∃ s e, (Machine.invoke {} "m" [.int 5]).Finishes source s
      (.error (.throw e)) :=
    Machine.exists_finishes_throw 20 (by decide +kernel)
  obtain ⟨t, hreturn⟩ : ∃ t, (Machine.invoke {} "m" [.int 5]).Finishes
      overState.generated.program t (.ok (.future 0)) :=
    Machine.exists_finishes_future 100 (by decide +kernel)
  refine ⟨overState.convert_eq, rfl, by decide, overState.replaces, ?_, ?_,
    fun _ _ => awaitAndAdd.uniform _, by constructor <;> simp, by simp [Value.Within, Value.Names],
    fun k hk f xs depth hc => Machine.not_mem_of_holdsAlong_next 20 (by decide +kernel) hk hc,
    fun k hk => Machine.ne_depthLimit_of_holdsAlong 100 (by decide +kernel) hk,
    ⟨s, e, hthrow⟩, ⟨t, hreturn⟩, fun h => ?_⟩
  · constructor <;> decide +kernel
  · constructor <;> decide +kernel
  · cases h.ends _ _ hthrow with
    | threw e _ _ hthrow' => cases (hreturn.unique hthrow').2

end Resumable
