/-
**Converting once more.**

The methods that a conversion leaves behind call no markers: a method that calls none stays as it
is, a marker call becomes a test of the future, and the entry calls its dispatcher.  So converting
them once more changes nothing, unless the dispatcher itself has the name of a marker.  Then its
entry looks like a method that suspends, but it gives the marker three arguments, and is refused.

Main results:

* `Dispatcher.Plan.Made.settled` — **a dispatcher calls no marker**;
* `Batch.stable_convert_iff` — **converting once more changes nothing, exactly if no dispatcher has
  the name of a marker**.
-/

import Resumable.Proofs.BatchResults
import Resumable.Proofs.Glue

set_option autoImplicit false

namespace Resumable

open Dispatcher List

/-! ### Methods without marker calls -/

/-- No instruction of the method calls a marker. -/
def Method.Settled (m : Method) (isMarker : String → Bool) : Prop :=
  ∀ b ∈ m.blocks, ∀ i ∈ b.instrs, i.callee? isMarker = none

variable {o : Options}

theorem Method.suspends_eq_false_iff {m : Method} :
    m.suspends o = false ↔ m.Settled o.isMarker := by
  simp only [suspends, callsAny, Settled, any_eq_false, Bool.not_eq_true,
    Option.isSome_eq_false_iff, Option.isNone_iff_eq_none]

/-- No marker call means no call of a function with the name of a marker. -/
theorem Instr.name_of_callee?_eq_none {isMarker : String → Bool} {i : Instr} {c : Callee}
    (h : i.callee? isMarker = none) (hi : i = .invoke c) : isMarker c.name = false := by
  subst hi
  cases hc : isMarker c.name with
  | false => rfl
  | true => simp [callee?, hc] at h

@[simp] theorem Instr.callee?_mapLocals (isMarker : String → Bool) (f : Nat → Nat) (i : Instr) :
    (i.mapLocals f).callee? isMarker = i.callee? isMarker := by
  cases i <;> rfl

/-- **A method without marker calls stays as it is.** -/
theorem Method.Settled.convert {m : Method} (h : m.Settled o.isMarker) (cls : String) :
    m.convert cls o = .ok (.unchanged m) := by
  simp [Method.convert, suspends_eq_false_iff.2 h]

/-! ### Generated code -/

section Generated

variable {p : Plan} {isMarker : String → Bool} {r : IdSet}

theorem Instr.callee?_of_isGlue {d : String} {i : Instr} (h : i.isGlue d = true) :
    i.callee? isMarker = none := by
  cases i <;> first | rfl | cases h

/-- **A dispatcher calls no marker**: glue calls nothing, and the marker call that ended a node has
become a test. -/
theorem Dispatcher.Plan.Made.settled (h : p.Made isMarker r) : p.dispatcher.Settled isMarker := by
  intro b hb i hi
  rcases h.mem_dispatcher hb hi with hglue | ⟨_, _, j, _, hplain, rfl⟩
  · exact Instr.callee?_of_isGlue hglue
  · rwa [Instr.callee?_mapLocals]

/-- **An entry calls a marker exactly if its dispatcher has the name of one.** -/
theorem settled_entry_iff (m : Method) (d : String) :
    (entry m d).Settled isMarker ↔ isMarker d = false := by
  have hcall : Instr.invoke (callee d) ∈ entryCode m d m.params.length := by simp [entryCode]
  constructor
  · intro h
    exact Instr.name_of_callee?_eq_none (c := callee d)
      (h _ mem_cons_self _ hcall) rfl
  · intro h b hb i hi
    rw [mem_singleton.1 hb] at hi
    rcases mem_entryCode hi with hglue | rfl
    · exact Instr.callee?_of_isGlue hglue
    · simp [Instr.callee?, callee, h]

end Generated

/-- **An entry whose dispatcher has the name of a marker is refused**: the marker would get three
arguments. -/
theorem convert_entry_of_isMarker {d : String} (h : o.isMarker d = true) (m : Method)
    (cls : String) :
    ∃ rejection, (entry m d).convert cls o = .error rejection := by
  have hsuspends : (entry m d).suspends o = true := by
    cases hs : (entry m d).suspends o with
    | true => rfl
    | false =>
      have := (settled_entry_iff m d).1 (Method.suspends_eq_false_iff.1 hs)
      rw [h] at this
      cases this
  rw [Method.convert, if_pos hsuspends]
  cases ha : (entry m d).analyze o with
  | error defect => exact ⟨_, rfl⟩
  | ok a =>
    obtain ⟨⟨⟩, hcheck, -⟩ := bind_eq_ok ha
    have hargc := Method.argc_of_arityDefects (Method.check_eq_ok hcheck).2
      (b := ⟨0, entryCode m d m.params.length, .ret⟩) mem_cons_self (c := callee d)
      (by simp [entryCode]) h
    cases hargc

/-! ### Batches -/

namespace BatchOutput

/-- The entries and dispatchers of the methods that were converted. -/
def pairs (b : BatchOutput) : List Conversion.Pair :=
  (b.classes.flatMap (·.results)).filterMap fun
    | .converted pair => some pair
    | .unchanged _ => none

/-- **Converting the classes once more changes nothing**: no method is refused, none is converted,
and the classes are the same. -/
structure Stable (b : BatchOutput) (o : Options) : Prop where
  failures : (Batch.convert b.units o).failures = []
  converted : (Batch.convert b.units o).converted = 0
  units : (Batch.convert b.units o).units = b.units

theorem mem_pairs {b : BatchOutput} {pair : Conversion.Pair} :
    pair ∈ b.pairs ↔ ∃ c ∈ b.classes, .converted pair ∈ c.results := by
  simp only [pairs, mem_filterMap, mem_flatMap]
  constructor
  · rintro ⟨result, ⟨c, hc, hresult⟩, heq⟩
    split at heq
    · cases heq
      exact ⟨c, hc, hresult⟩
    · cases heq
  · rintro ⟨c, hc, hresult⟩
    exact ⟨_, ⟨c, hc, hresult⟩, rfl⟩

end BatchOutput

namespace Batch

variable {o : Options} {units : List ClassUnit}

/-- What a method of a class is converted to comes from the conversion of the method alone. -/
theorem convert_of_convertMethod {u : ClassUnit} {m : Method} {c : Conversion}
    (h : u.convertMethod o m = .ok c) : m.convert u.name o = .ok c := by
  unfold ClassUnit.convertMethod at h
  split at h
  · cases h
  · rename_i n hn
    cases h
    exact hn
  · rename_i pair hpair
    split at h
    · cases h
    · cases h
      exact hpair

theorem exists_convert_of_mem_results {c : ClassOutput} (hc : c ∈ (convert units o).classes)
    {result : Conversion} (h : result ∈ c.results) :
    ∃ (m : Method) (cls : String), m.convert cls o = .ok result := by
  rw [convert_eq] at hc
  obtain ⟨u, -, rfl⟩ := mem_map.1 hc
  obtain ⟨m, -, hm⟩ := mem_accepted.1 h
  exact ⟨m, u.name, convert_of_convertMethod hm⟩

/-- **What takes the place of a method calls no marker**, if its dispatcher has not the name of
one. -/
theorem settled_of_convert {m : Method} {cls : String} {result : Conversion}
    (h : m.convert cls o = .ok result)
    (hname : ∀ pair, result = .converted pair → o.isMarker pair.dispatcher.name = false) :
    ∀ n ∈ result.methods, n.Settled o.isMarker := by
  cases result with
  | unchanged m' =>
    intro n hn
    rw [mem_singleton.1 hn, ← Method.suspends_eq_false_iff]
    unfold Method.convert at h
    split at h
    · split at h <;> cases h
    · rename_i hs
      cases h
      exact Bool.not_eq_true _ ▸ hs
  | converted pair =>
    obtain ⟨a, n', ha, rfl, hn'⟩ := m.exists_analysis h
    obtain ⟨-, -, -, hmade⟩ := Method.made_of_analyze ha hn' (o.dispatcherName m.name)
    intro n hn
    simp only [Conversion.methods, mem_cons, not_mem_nil, or_false] at hn
    rcases hn with rfl | rfl
    · exact (settled_entry_iff m _).2 (hname _ rfl)
    · exact hmade.settled

theorem settled_units
    (h : ∀ pair ∈ (convert units o).pairs, o.isMarker pair.dispatcher.name = false) :
    ∀ u ∈ (convert units o).units, ∀ m ∈ u.methods, m.Settled o.isMarker := by
  intro u hu m hm
  obtain ⟨c, hc, rfl⟩ := mem_map.1 hu
  obtain ⟨result, hresult, hm⟩ := mem_flatMap.1 hm
  obtain ⟨m', cls, hconvert⟩ := exists_convert_of_mem_results hc hresult
  refine settled_of_convert hconvert (fun pair hpair => h pair ?_) m hm
  exact BatchOutput.mem_pairs.2 ⟨c, hc, hpair ▸ hresult⟩

/-- **Classes without marker calls stay as they are.** -/
theorem convert_settled (h : ∀ u ∈ units, ∀ m ∈ u.methods, m.Settled o.isMarker) :
    (convert units o).failures = [] ∧ (convert units o).converted = 0 ∧
      (convert units o).units = units := by
  have hmethod : ∀ u ∈ units, ∀ m ∈ u.methods,
      m.convertAmong u.name u.names.toFinset o = .ok (.unchanged m) := by
    intro u hu m hm
    rw [← u.convertMethod_eq, ClassUnit.convertMethod, (h u hu m hm).convert]
  have hresults : ∀ u ∈ units, accepted o u u.methods = u.methods.map .unchanged := by
    intro u hu
    rw [accepted, ← filterMap_eq_map]
    refine filterMap_congr fun m hm => ?_
    rw [hmethod u hu m hm]
    rfl
  rw [convert_eq]
  refine ⟨?_, ?_, ?_⟩
  · refine flatMap_eq_nil_iff.2 fun u hu => filterMap_eq_nil_iff.2 fun m hm => ?_
    rw [hmethod u hu m hm]
    rfl
  · refine countP_eq_zero.2 fun result hresult => ?_
    obtain ⟨u, hu, hresult⟩ := mem_flatMap.1 hresult
    rw [hresults u hu] at hresult
    obtain ⟨m, -, rfl⟩ := mem_map.1 hresult
    simp
  · refine (List.map_map ..).trans ?_
    refine (map_congr_left fun u hu => ?_).trans (List.map_id units)
    simp only [Function.comp_apply, ClassOutput.unit, classOutput, hresults u hu, id]
    have hmethods : (u.methods.map Conversion.unchanged).flatMap Conversion.methods =
        u.methods := by
      rw [flatMap_map]
      exact flatMap_singleton' u.methods
    rw [hmethods]

/-- **Converting once more changes nothing, exactly if no dispatcher of the first conversion has the
name of a marker**; and then no instruction of the converted classes calls a marker. -/
theorem stable_convert_iff (units : List ClassUnit) (o : Options) :
    ((convert units o).Stable o ↔
      ∀ pair ∈ (convert units o).pairs, pair.dispatcher.name ∉ o.markers) ∧
    ((∀ pair ∈ (convert units o).pairs, pair.dispatcher.name ∉ o.markers) →
      ∀ u ∈ (convert units o).units, ∀ m ∈ u.methods, ∀ b ∈ m.blocks, ∀ c : Callee,
        .invoke c ∈ b.instrs → c.name ∉ o.markers) := by
  have hmarker : ∀ name, o.isMarker name = false ↔ name ∉ o.markers := by
    intro name
    rw [Options.isMarker, ← Bool.not_eq_true, List.contains_iff_mem]
  simp only [← hmarker]
  refine ⟨⟨fun hstable pair hpair => ?_, fun h => ?_⟩, fun h u hu m hm b hb c hc => ?_⟩
  · -- The entry of the pair is among the classes, and would be refused.
    obtain ⟨c, hc, hresult⟩ := BatchOutput.mem_pairs.1 hpair
    obtain ⟨m, cls, hconvert⟩ := exists_convert_of_mem_results hc hresult
    obtain ⟨a, n, ha, rfl, -⟩ := m.exists_analysis hconvert
    cases hname : o.isMarker (m.pair o a).dispatcher.name with
    | false => rfl
    | true =>
      obtain ⟨rejection, hrejected⟩ := convert_entry_of_isMarker hname m c.unit.name
      have hunit : c.unit ∈ (convert units o).units := List.mem_map_of_mem hc
      have hentry : (m.pair o a).entry ∈ c.unit.methods :=
        List.mem_flatMap.2 ⟨_, hresult, List.mem_cons_self⟩
      have hfailures := hstable.failures
      rw [convert_eq] at hfailures
      have hnone := List.filterMap_eq_nil_iff.1
        (List.flatMap_eq_nil_iff.1 hfailures c.unit hunit) _ hentry
      have hmethod : c.unit.convertMethod o (m.pair o a).entry = .error rejection := by
        have hentry : (m.pair o a).entry.convert c.unit.name o = .error rejection := hrejected
        rw [ClassUnit.convertMethod, hentry]
      rw [← c.unit.convertMethod_eq, hmethod] at hnone
      cases hnone
  · obtain ⟨hfailures, hconverted, hunits⟩ := convert_settled (settled_units h)
    exact ⟨hfailures, hconverted, hunits⟩
  · exact Instr.name_of_callee?_eq_none (settled_units h u hu m hm b hb _ hc) rfl

end Batch

end Resumable
