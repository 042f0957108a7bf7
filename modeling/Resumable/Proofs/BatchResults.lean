/-
**The results of a batch.**

Each method of a batch has one result, a conversion or a rejection.  It is a function of the method,
the name of its class, the options and the set of the names in its class; the rest of the batch has
no part in it.  The output lists all results, each in its place: conversions by class, rejections
together, and both in the order of the input, however the jobs are run.  A dispatcher is refused
where its name is taken, so a class whose methods have different names still has different names
after the conversion.

Main statements:

* `ClassUnit.convertMethod_eq` — what the result for a method depends on;
* `Batch.foldl_methods`, `Batch.foldl_jobs` — what the results for a class, and for all classes,
  add;
* `Batch.placed_convert` — where the result for a method stands in the output;
* `Batch.results_convert` — a batch is converted completely, in order, and each method on its own.
-/

import Mathlib.Algebra.GroupWithZero.Nat
import Mathlib.Data.Finset.Basic
import Mathlib.Data.List.Nodup
import Resumable.Batch
import Resumable.Proofs.ExceptionTables

set_option autoImplicit false

namespace Resumable

open List

/-! ### The result for one method -/

/-- The result for a method of a class, given the name of the class and the names of its methods. -/
def Method.convertAmong (m : Method) (cls : String) (taken : Finset String) (o : Options) :
    Except Rejection Conversion :=
  match m.convert cls o with
  | .ok (.converted pair) =>
    if pair.dispatcher.name ∈ taken then
      .error ⟨m.qualified cls, ⟨m.entry, 0⟩, .dispatcherTaken pair.dispatcher.name⟩
    else .ok (.converted pair)
  | r => r

namespace ClassUnit

/-- The names of the methods of a class, in order. -/
def names (u : ClassUnit) : List String := u.methods.map (·.name)

theorem isSome_method?_iff {u : ClassUnit} {name : String} :
    (u.method? name).isSome ↔ name ∈ u.names.toFinset := by
  simp [method?, names, find?_isSome]

/-- **What the result for a method depends on**: beside the method and the options, the name of its
class and the set of the names in it. -/
theorem convertMethod_eq (u : ClassUnit) (o : Options) (m : Method) :
    u.convertMethod o m = m.convertAmong u.name u.names.toFinset o := by
  rw [convertMethod, Method.convertAmong]
  split <;> simp only [isSome_method?_iff, *]

end ClassUnit

/-! ### Names -/

/-- The dispatcher of a converted method has the name that the options make for it, and the entry
keeps the name of the method. -/
theorem Method.names_of_convert {m : Method} {cls : String} {o : Options} {c : Conversion}
    (h : m.convert cls o = .ok c) :
    c.methods.map (·.name) = [m.name] ∨
      ∃ pair, c = .converted pair ∧ pair.dispatcher.name = o.dispatcherName m.name ∧
        c.methods.map (·.name) = [m.name, o.dispatcherName m.name] := by
  cases c with
  | converted pair =>
    obtain ⟨a, -, -, rfl, -⟩ := m.exists_analysis h
    exact .inr ⟨_, rfl, rfl, rfl⟩
  | unchanged n =>
    rw [convert] at h
    split at h
    · split at h <;> cases h
    · cases h
      exact .inl rfl

/-- Different methods have dispatchers of different names. -/
theorem Options.dispatcherName_injective (o : Options) : Function.Injective o.dispatcherName := by
  intro a b h
  have := congrArg String.toList h
  simp only [dispatcherName, String.toList_append, append_left_inj] at this
  exact String.toList_inj.1 this

namespace ClassUnit

/-- The names that a method leaves in its class after the conversion. -/
def namesAfter (u : ClassUnit) (o : Options) (m : Method) : List String :=
  ((u.convertMethod o m).toOption.toList.flatMap Conversion.methods).map (·.name)

/-- A method leaves nothing, its own name, or that and the name of its dispatcher, which is free. -/
theorem namesAfter_cases (u : ClassUnit) (o : Options) (m : Method) :
    u.namesAfter o m = [] ∨ u.namesAfter o m = [m.name] ∨
      u.namesAfter o m = [m.name, o.dispatcherName m.name] ∧ o.dispatcherName m.name ∉ u.names := by
  rw [namesAfter, convertMethod_eq, Method.convertAmong]
  split
  · rename_i pair hpair
    split
    · exact .inl rfl
    · rename_i hfree
      obtain h | ⟨pair', heq, hname, h⟩ := Method.names_of_convert hpair
      · exact .inr (.inl (by simpa [Except.toOption] using h))
      · cases heq
        rw [hname, mem_toFinset] at hfree
        exact .inr (.inr ⟨by simpa [Except.toOption] using h, hfree⟩)
  · rename_i hother
    cases hm : m.convert u.name o with
    | error r => exact .inl rfl
    | ok c =>
      obtain h | ⟨pair, rfl, -⟩ := Method.names_of_convert hm
      · exact .inr (.inl (by simpa [Except.toOption] using h))
      · exact absurd hm (hother pair)

variable {u : ClassUnit}

theorem nodup_namesAfter {o : Options} {m : Method} (hm : m ∈ u.methods) :
    (u.namesAfter o m).Nodup := by
  obtain h | h | ⟨h, hfree⟩ := u.namesAfter_cases o m
  · simp [h]
  · simp [h]
  · have hne : m.name ≠ o.dispatcherName m.name := fun heq =>
      hfree (heq ▸ mem_map.2 ⟨m, hm, rfl⟩)
    simp [h, hne]

/-- Methods of different names leave different names. -/
theorem disjoint_namesAfter {o : Options} {m n : Method} (hm : m ∈ u.methods) (hn : n ∈ u.methods)
    (hne : m.name ≠ n.name) : (u.namesAfter o m).Disjoint (u.namesAfter o n) := by
  have hmem {k : Method} (hk : k ∈ u.methods) : k.name ∈ u.names := mem_map.2 ⟨k, hk, rfl⟩
  have hcases {k : Method} {x : String} (hx : x ∈ u.namesAfter o k) :
      x = k.name ∨ x = o.dispatcherName k.name ∧ x ∉ u.names := by
    obtain h | h | ⟨h, hfree⟩ := u.namesAfter_cases o k <;> rw [h] at hx <;> simp at hx
    · exact .inl hx
    · exact hx.imp id fun h => ⟨h, h ▸ hfree⟩
  intro x hxm hxn
  obtain rfl | ⟨hdm, hfree⟩ := hcases hxm
  · obtain h | ⟨-, hfree⟩ := hcases hxn
    · exact hne h
    · exact hfree (hmem hm)
  · obtain rfl | ⟨hdn, -⟩ := hcases hxn
    · exact hfree (hmem hn)
    · exact hne (o.dispatcherName_injective (hdm.symm.trans hdn))

end ClassUnit

namespace Batch

/-! ### The results for one class -/

variable {o : Options} {u : ClassUnit} {w : Gathering}

/-- The successful results for some methods of a class. -/
def accepted (o : Options) (u : ClassUnit) (ms : List Method) : List Conversion :=
  ms.filterMap fun m => (m.convertAmong u.name u.names.toFinset o).toOption

/-- The failure that a result stands for, if it does. -/
def refusal (cls : String) (m : Method) : Except Rejection Conversion → Option Failure
  | .error r => some ⟨cls, m.name, r⟩
  | .ok _ => none

/-- The failures among some methods of a class. -/
def refused (o : Options) (u : ClassUnit) (ms : List Method) : List Failure :=
  ms.filterMap fun m => refusal u.name m (m.convertAmong u.name u.names.toFinset o)

/-- The output for a class. -/
def classOutput (o : Options) (u : ClassUnit) : ClassOutput := ⟨u.name, accepted o u u.methods⟩

theorem mem_accepted {ms : List Method} {c : Conversion} :
    c ∈ accepted o u ms ↔ ∃ m ∈ ms, u.convertMethod o m = .ok c := by
  simp only [accepted, mem_filterMap, u.convertMethod_eq]
  refine exists_congr fun m => and_congr_right fun _ => ?_
  cases m.convertAmong u.name u.names.toFinset o <;> simp [Except.toOption]

theorem accepted_cons (o : Options) (u : ClassUnit) (m : Method) (ms : List Method) :
    accepted o u (m :: ms) =
      (m.convertAmong u.name u.names.toFinset o).toOption.toList ++ accepted o u ms := by
  rw [accepted, filterMap_cons]
  cases (m.convertAmong u.name u.names.toFinset o).toOption <;> rfl

theorem refused_cons (o : Options) (u : ClassUnit) (m : Method) (ms : List Method) :
    refused o u (m :: ms) =
      (refusal u.name m (m.convertAmong u.name u.names.toFinset o)).toList ++ refused o u ms := by
  rw [refused, filterMap_cons]
  cases refusal u.name m (m.convertAmong u.name u.names.toFinset o) <;> rfl

/-- **Names stay different**: a class whose methods have different names has different names after
the conversion, those of the dispatchers included. -/
theorem nodup_names_classOutput (o : Options) (h : u.names.Nodup) :
    (classOutput o u).unit.names.Nodup := by
  have hnames : (classOutput o u).unit.names = u.methods.flatMap (u.namesAfter o) := by
    simp only [ClassUnit.names, classOutput, ClassOutput.unit, map_flatMap]
    induction u.methods with
    | nil => rfl
    | cons m ms ih =>
      rw [accepted_cons, flatMap_append, flatMap_cons, ih, ClassUnit.namesAfter, u.convertMethod_eq,
        map_flatMap]
  rw [hnames, nodup_flatMap]
  refine ⟨fun m hm => ClassUnit.nodup_namesAfter hm, ?_⟩
  have hpair : u.methods.Pairwise (fun m n => m.name ≠ n.name) := pairwise_map.1 h
  exact hpair.imp_of_mem fun hm hn hne => ClassUnit.disjoint_namesAfter hm hn hne

/-! ### The loop -/

/-- How many conversions replace a method. -/
def replaced (cs : List Conversion) : Nat := cs.countP fun
  | .converted _ => true
  | .unchanged _ => false

/-- How many conversions leave a method as it is. -/
def kept (cs : List Conversion) : Nat := cs.countP fun
  | .converted _ => false
  | .unchanged _ => true

/-- Runs a job and takes in its result. -/
def step (o : Options) (b : BatchOutput) (j : Job) : BatchOutput := b.take (j.run o, j)

/-- **The results for some methods of a class** are added to those of the class and to the failures,
behind what is there. -/
theorem foldl_methods (ms : List Method) (front back : List ClassOutput) (rs : List Conversion)
    (fs : List Failure) (x y : Nat) :
    (ms.map (Job.mk front.length u)).foldl (step o) ⟨front ++ ⟨u.name, rs⟩ :: back, fs, x, y⟩ =
      ⟨front ++ ⟨u.name, rs ++ accepted o u ms⟩ :: back, fs ++ refused o u ms,
        x + replaced (accepted o u ms), y + kept (accepted o u ms)⟩ := by
  -- The class is the one behind `front`, and `rs` are the results for its methods so far.
  induction ms generalizing rs fs x y with
  | nil => simp [accepted, refused, replaced, kept]
  | cons m ms ih =>
    rw [map_cons, foldl_cons, accepted_cons, refused_cons, step, Job.run, u.convertMethod_eq]
    cases m.convertAmong u.name u.names.toFinset o with
    | error r => simp [BatchOutput.take, ih, refusal, Except.toOption]
    | ok c =>
      cases c <;>
        simp [BatchOutput.take, modify_middle, ih, BatchOutput.count, refusal, Except.toOption,
          replaced, kept, Nat.add_assoc, Nat.add_comm 1]

/-- **The results for all classes**, one class after the other. -/
theorem foldl_jobs (units : List ClassUnit) (front : List ClassOutput) (fs : List Failure)
    (x y : Nat) :
    ((units.zipIdx front.length).flatMap fun c => c.1.methods.map (Job.mk c.2 c.1)).foldl (step o)
        ⟨front ++ units.map fun u => ⟨u.name, []⟩, fs, x, y⟩ =
      ⟨front ++ units.map (classOutput o), fs ++ units.flatMap fun u => refused o u u.methods,
        x + replaced (units.flatMap fun u => accepted o u u.methods),
        y + kept (units.flatMap fun u => accepted o u u.methods)⟩ := by
  -- The classes in `front` are done, and the others have no results yet.
  induction units generalizing front fs x y with
  | nil => simp [replaced, kept]
  | cons u us ih =>
    rw [zipIdx_cons, flatMap_cons, foldl_append, map_cons, foldl_methods]
    have hrest := ih (front ++ [classOutput o u]) (fs ++ refused o u u.methods)
      (x + replaced (accepted o u u.methods)) (y + kept (accepted o u u.methods))
    simp only [length_append, length_singleton, append_assoc, singleton_append] at hrest
    simp only [nil_append]
    refine hrest.trans ?_
    simp [replaced, kept, Nat.add_assoc]

/-- **What a batch is converted to**, in one piece. -/
theorem convert_eq (units : List ClassUnit) (o : Options) (w : Gathering) :
    convert units o w =
      ⟨units.map (classOutput o), units.flatMap fun u => refused o u u.methods,
        replaced (units.flatMap fun u => accepted o u u.methods),
        kept (units.flatMap fun u => accepted o u u.methods)⟩ := by
  have hresults : (if o.parallel then w.gather (Job.run o) (jobs units)
      else (jobs units).map (Job.run o)) = (jobs units).map (Job.run o) := by
    rw [w.gather_eq, ite_self]
  have hzip : ((jobs units).map (Job.run o)).zip (jobs units) =
      (jobs units).map fun j => (j.run o, j) := by
    rw [zip_eq_zipWith, zipWith_map_left, zipWith_self]
  have hloop := foldl_jobs (o := o) units [] [] 0 0
  simp only [nil_append, length_nil, Nat.zero_add] at hloop
  rw [convert, hresults, hzip, foldl_map]
  exact hloop

/-! ### Places in the output -/

/-- The result `r` for a method stands in its place in the output of a batch: after those of the
methods before it and before those of the methods after it, as a conversion in the output of its
class or else among the failures of the batch. -/
structure Placed (o : Options) (w : Gathering) (pre : List ClassUnit) (u : ClassUnit)
    (post : List ClassUnit) (ms : List Method) (m : Method) (ns : List Method)
    (r : Except Rejection Conversion) : Prop where
  result : (convert (pre ++ u :: post) o w).classes[pre.length]? =
    some ⟨u.name, accepted o u ms ++ r.toOption.toList ++ accepted o u ns⟩
  failure : (convert (pre ++ u :: post) o w).failures =
    (convert pre o w).failures ++
      (refused o u ms ++ (refusal u.name m r).toList ++ refused o u ns) ++
      (convert post o w).failures

/-- **Where the result for a method stands in the output.** -/
theorem placed_convert (o : Options) (w : Gathering) (pre post : List ClassUnit)
    {ms ns : List Method} {m : Method} (hu : u.methods = ms ++ m :: ns) :
    Placed o w pre u post ms m ns (m.convertAmong u.name u.names.toFinset o) where
  result := by
    rw [convert_eq, map_append, map_cons, getElem?_append_right (by simp), length_map, Nat.sub_self,
      getElem?_cons_zero, classOutput, hu, append_assoc, ← accepted_cons, accepted,
      filterMap_append]
    rfl
  failure := by
    simp only [convert_eq, flatMap_append, flatMap_cons]
    rw [hu, refused, filterMap_append, ← refused, ← refused, refused_cons]
    simp only [append_assoc]

/-! ### Counting -/

/-- Every method of a class has one result, a conversion or a failure. -/
theorem length_accepted_add (o : Options) (u : ClassUnit) (ms : List Method) :
    (accepted o u ms).length + (refused o u ms).length = ms.length := by
  induction ms with
  | nil => rfl
  | cons m ms ih =>
    rw [accepted_cons, refused_cons, length_append, length_append, length_cons]
    cases m.convertAmong u.name u.names.toFinset o with
    | error r =>
      simp only [refusal, Except.toOption, Option.toList, length_nil, length_singleton]
      omega
    | ok c =>
      simp only [refusal, Except.toOption, Option.toList, length_nil, length_singleton]
      omega

/-- Every conversion replaces its method or leaves it as it is. -/
theorem replaced_add_kept (cs : List Conversion) : replaced cs + kept cs = cs.length := by
  induction cs with
  | nil => rfl
  | cons c cs ih =>
    rw [replaced, kept] at ih ⊢
    cases c <;> simp only [countP_cons, length_cons] <;> simp <;> omega

theorem length_convert (units : List ClassUnit) (o : Options) :
    (units.flatMap fun u => accepted o u u.methods).length +
        (units.flatMap fun u => refused o u u.methods).length =
      (units.map (·.methods.length)).sum := by
  induction units with
  | nil => rfl
  | cons u us ih =>
    have hu := length_accepted_add o u u.methods
    simp only [map_cons, flatMap_cons, length_append, sum_cons] at ih ⊢
    omega

end Batch

/-- **A batch is converted completely, in order, and each method on its own**, however the jobs are
run.  The classes of the output are those of the input, each with the successful results of its
methods; the failures are those of all methods; the numbers of the report are those of the results,
and every method has one result.  In two batches, a method in classes of one name with the same
names in them has one and the same result, in its place in each output.  Names that are different
within a class stay so. -/
theorem Batch.results_convert (units : List ClassUnit) (o : Options) (w : Gathering) :
    (convert units o w).classes = units.map (fun u => ⟨u.name, accepted o u u.methods⟩) ∧
    (convert units o w).failures = units.flatMap (fun u => refused o u u.methods) ∧
    ((convert units o w).converted = replaced ((convert units o w).classes.flatMap (·.results)) ∧
      (convert units o w).unchanged = kept ((convert units o w).classes.flatMap (·.results)) ∧
      (convert units o w).converted + (convert units o w).unchanged +
        (convert units o w).failures.length = (units.map (·.methods.length)).sum) ∧
    (∀ pre u post ms m ns, units = pre ++ u :: post → u.methods = ms ++ m :: ns →
      ∀ w' pre' u' post' ms' ns', u'.methods = ms' ++ m :: ns' → u'.name = u.name →
        (∀ name, name ∈ u'.names ↔ name ∈ u.names) →
        ∃ r, Placed o w pre u post ms m ns r ∧ Placed o w' pre' u' post' ms' m ns' r) ∧
    ∀ (i : Nat) (u : ClassUnit), units[i]? = some u → u.names.Nodup →
      ∃ v, (convert units o w).units[i]? = some v ∧ v.name = u.name ∧ v.names.Nodup := by
  refine ⟨?classes, ?failures, ⟨?converted, ?unchanged, ?count⟩, ?alone, ?names⟩
  case classes =>
    rw [convert_eq]
    rfl
  case failures => rw [convert_eq]
  case converted =>
    rw [convert_eq, flatMap_map]
    rfl
  case unchanged =>
    rw [convert_eq, flatMap_map]
    rfl
  case count =>
    rw [convert_eq]
    exact (congrArg (· + _) (replaced_add_kept _)).trans (length_convert units o)
  case alone =>
    intro pre u post ms m ns _ hu w' pre' u' post' ms' ns' hu' hname hnames
    have htaken : u'.names.toFinset = u.names.toFinset := by
      ext name
      simpa using hnames name
    exact ⟨_, placed_convert o w pre post hu, hname ▸ htaken ▸ placed_convert o w' pre' post' hu'⟩
  case names =>
    intro i u hu hnodup
    refine ⟨(classOutput o u).unit, ?_, rfl, nodup_names_classOutput o hnodup⟩
    simp [BatchOutput.units, convert_eq, hu]

end Resumable
