/-
**Inheritance.**

A class is declared with the class it inherits from, and a later declaration of the same class takes
the place of an earlier one.  Nothing keeps declarations from going round in a circle, so the search
for an ancestor is cut off after a number of links.  It misses nothing: a way up to an ancestor need
not leave the same class twice, so it is no longer than the number of classes that inherit from
another.

Main results:

* `Program.inherits_declare_iff` — the last declaration counts;
* `Program.mem_ancestry_iff` — **the search finds the ancestors**, if it may take as many links as
  there are classes that inherit from another;
* `Program.isSubclass_declare_iff` — **a class is a subclass of its ancestors**.
-/

import Mathlib.Data.Finset.Card
import Mathlib.Data.Finset.Dedup
import Mathlib.Logic.Relation
import Resumable.Machine.Program

set_option autoImplicit false

namespace Resumable

open Relation List

/-- The class is declared with the given parent, and not declared again later. -/
def LastDeclared (declarations : List (String × String)) (child parent : String) : Prop :=
  ∃ earlier later, declarations = earlier ++ (child, parent) :: later ∧ ∀ d ∈ later, d.1 ≠ child

namespace Program

/-! ### Declarations -/

/-- The class inherits from the other one. -/
def Inherits (p : Program) (child parent : String) : Prop := p.parents.lookup child = some parent

/-- The classes that inherit from another. -/
def heirs (p : Program) : Finset String := (p.parents.map (·.1)).toFinset

/-- Declares classes, one after the other. -/
def declare (p : Program) (declarations : List (String × String)) : Program :=
  declarations.foldl (fun p d => p.addSubclass d.1 d.2) p

variable {p : Program} {child parent cls ancestor : String}

theorem parents_declare (p : Program) (declarations : List (String × String)) :
    (p.declare declarations).parents = declarations.reverse ++ p.parents := by
  induction declarations generalizing p with
  | nil => rfl
  | cons d ds ih =>
    have hrest : ((p.addSubclass d.1 d.2).declare ds).parents = _ := ih (p.addSubclass d.1 d.2)
    rw [declare, foldl_cons, ← declare, hrest, reverse_cons, append_assoc]
    rfl

theorem inherits_iff : p.Inherits child parent ↔
    ∃ later earlier, p.parents = later ++ (child, parent) :: earlier ∧
      ∀ d ∈ later, d.1 ≠ child := by
  rw [Inherits, lookup_eq_some_iff]
  simp only [bne_iff_ne, ne_comm]

theorem Inherits.mem_heirs (h : p.Inherits child parent) : child ∈ p.heirs := by
  obtain ⟨later, earlier, hparents, -⟩ := inherits_iff.1 h
  simp [heirs, hparents]

/-- **The last declaration of a class counts**; a class that is not declared keeps its parent. -/
theorem inherits_declare_iff (declarations : List (String × String)) :
    (p.declare declarations).Inherits child parent ↔
      LastDeclared declarations child parent ∨
        (child ∉ declarations.map (·.1) ∧ p.Inherits child parent) := by
  rw [Inherits, parents_declare, lookup_append, Option.or_eq_some_iff, ← Inherits]
  refine or_congr ?_ (and_congr_left fun _ => ?_)
  · rw [lookup_eq_some_iff]
    constructor
    · rintro ⟨later, earlier, hsplit, hlater⟩
      refine ⟨earlier.reverse, later.reverse, ?_, ?_⟩
      · rw [← reverse_reverse declarations, hsplit]
        simp
      · intro d hd
        simpa [ne_comm] using hlater d (mem_reverse.1 hd)
    · rintro ⟨earlier, later, rfl, hlater⟩
      refine ⟨later.reverse, earlier.reverse, by simp, ?_⟩
      intro d hd
      simpa [ne_comm] using hlater d (mem_reverse.1 hd)
  · rw [lookup_eq_none_iff]
    constructor
    · intro hnone hmem
      obtain ⟨d, hd, rfl⟩ := mem_map.1 hmem
      exact bne_iff_ne.1 (hnone d (mem_reverse.2 hd)) rfl
    · intro hnot d hd
      rw [bne_iff_ne]
      rintro rfl
      exact hnot (mem_map_of_mem (mem_reverse.1 hd))

/-! ### Ways up -/

/-- What the search meets is an ancestor. -/
theorem reaches_of_mem_ancestry {limit : Nat} (h : ancestor ∈ ancestry p.parents limit cls) :
    ReflTransGen p.Inherits cls ancestor := by
  induction limit generalizing cls with
  | zero =>
    obtain rfl := mem_singleton.1 h
    exact .refl
  | succ limit ih =>
    rw [ancestry] at h
    split at h
    · rename_i parent hparent
      rcases mem_cons.1 h with rfl | h
      · exact .refl
      · exact .head hparent (ih h)
    · obtain rfl := mem_singleton.1 h
      exact .refl

/-- The link from a class of the set to the one it inherits from. -/
def InheritsIn (p : Program) (s : Finset String) (child parent : String) : Prop :=
  child ∈ s ∧ p.Inherits child parent

/-- **A way up leaves its first class once**: what comes after the last time it does so avoids the
class. -/
theorem leaves_once {s : Finset String} (h : ReflTransGen (p.InheritsIn s) cls ancestor) :
    cls = ancestor ∨ ∃ parent, p.InheritsIn s cls parent ∧
      ReflTransGen (p.InheritsIn (s.erase cls)) parent ancestor := by
  induction h with
  | refl => exact .inl rfl
  | @tail child next _ hlink ih =>
    refine .inr ?_
    by_cases hchild : child = cls
    · subst hchild
      exact ⟨next, hlink, .refl⟩
    · obtain ⟨parent, hparent, hrest⟩ := ih.resolve_left fun heq => hchild heq.symm
      exact ⟨parent, hparent, hrest.tail ⟨Finset.mem_erase.2 ⟨hchild, hlink.1⟩, hlink.2⟩⟩

/-- The search meets an ancestor if it may take as many links as there are classes on the way. -/
theorem mem_ancestry_of_reaches {s : Finset String} {limit : Nat} (hs : s.card ≤ limit)
    (h : ReflTransGen (p.InheritsIn s) cls ancestor) :
    ancestor ∈ ancestry p.parents limit cls := by
  -- one link uses up its class, so the rest of the way has one class less and one link less
  induction limit generalizing s cls with
  | zero =>
    rcases leaves_once h with rfl | ⟨parent, hlink, -⟩
    · exact mem_singleton_self cls
    · have hempty := Finset.card_eq_zero.1 (Nat.le_zero.1 hs)
      exact absurd hlink.1 (hempty ▸ Finset.notMem_empty cls)
  | succ limit ih =>
    rw [ancestry]
    rcases leaves_once h with rfl | ⟨parent, ⟨hcls, hparent⟩, hrest⟩
    · split <;> exact mem_cons_self
    · have hcard : (s.erase cls).card ≤ limit := by
        rw [Finset.card_erase_of_mem hcls]
        omega
      have hlookup : p.parents.lookup cls = some parent := hparent
      rw [hlookup]
      exact mem_cons_of_mem cls (ih hcard hrest)

/-- **The search finds the ancestors**, if it may take as many links as there are classes that
inherit from another. -/
theorem mem_ancestry_iff {limit : Nat} (h : p.heirs.card ≤ limit) :
    ancestor ∈ ancestry p.parents limit cls ↔ ReflTransGen p.Inherits cls ancestor := by
  refine ⟨reaches_of_mem_ancestry, fun hup => mem_ancestry_of_reaches h ?_⟩
  exact hup.lift id fun _ _ hlink => ⟨hlink.mem_heirs, hlink⟩

theorem card_heirs_le (p : Program) : p.heirs.card ≤ p.heirCount := by
  have hheirs : p.heirs = (p.parents.map (·.1)).eraseDups.toFinset := by
    ext cls
    simp [heirs]
  exact hheirs ▸ toFinset_card_le _

/-- **A class is a subclass of its ancestors and of no other class**, `Throwable` apart, whatever is
declared in whatever order.  The links to the ancestors are the last declarations.  The search may
be cut off after as many links as there are classes that inherit from another. -/
theorem isSubclass_declare_iff (p : Program) (declarations : List (String × String))
    (cls ancestor : String) :
    ((p.declare declarations).isSubclass cls ancestor = true ↔
        ancestor = "Throwable" ∨ ReflTransGen (p.declare declarations).Inherits cls ancestor) ∧
      (∀ child parent, (p.declare declarations).Inherits child parent ↔
        LastDeclared declarations child parent ∨
          (child ∉ declarations.map (·.1) ∧ p.Inherits child parent)) ∧
      ∀ limit, (p.declare declarations).heirs.card ≤ limit →
        (ancestor ∈ ancestry (p.declare declarations).parents limit cls ↔
          ReflTransGen (p.declare declarations).Inherits cls ancestor) := by
  refine ⟨?_, fun _ _ => inherits_declare_iff declarations, fun _ => mem_ancestry_iff⟩
  rw [isSubclass, Bool.or_eq_true, beq_iff_eq, contains_iff_mem,
    mem_ancestry_iff (card_heirs_le _)]

-- a circle, entered after a declaration that no longer counts
example :
    let p := ({} : Program).declare [("A", "Top"), ("A", "B"), ("B", "C"), ("C", "B")]
    p.isSubclass "A" "C" = true ∧ p.isSubclass "A" "Top" = false := by
  decide +kernel

end Program

end Resumable
