/-
**Outlines of methods whose cleanup regions are expanded.**

The expansion of a cleanup region numbers its copies as they come, so two orders of expansion give
methods that differ in the numbers of blocks and locals.  An outline names what the numbers stand
for: a block of the method, or the copy of a block for a way out of a region.  On outlines the
expansion of a region is a function without counters, and two regions of which neither has to do
with the other can be expanded in either order, with the same result.

Main results:

* `Outline.expand_comm` — **regions that are apart can be expanded in either order**;
* `Outline.Runs.reorder` — so can a list of regions, if those that are not apart keep their order.
-/

import Resumable.Code.Cleanup
import Mathlib.Logic.Relation

set_option autoImplicit false

namespace Resumable

open List

/-! ### Names of blocks -/

/-- **What a block stands for** when regions have been expanded. -/
inductive Spot where
  /-- A block of the method. -/
  | given (b : Nat)
  /-- The copy of `source` for leaving region `i` by a jump to `target`. -/
  | onward (i : Nat) (target source : Spot)
  /-- The copy of `source` for leaving region `i` by a return. -/
  | returning (i : Nat) (source : Spot)
  /-- The copy of `source` for leaving region `i` by an exception. -/
  | rethrowing (i : Nat) (source : Spot)
  /-- The new handler of region `i`. -/
  | rescue (i : Nat)
deriving DecidableEq

/-- The region whose expansion makes the block. -/
def Spot.maker? : Spot → Option Nat
  | given _ => none
  | onward i _ _ | returning i _ | rethrowing i _ | rescue i => some i

/-- A block with named targets.  The shape is the terminator with its targets forgotten. -/
structure Stretch where
  instrs : List Instr
  shape : Terminator
  targets : List Spot

namespace Stretch

/-- The copy of the block `x` of a body that starts at `head`: `wrap` names the copies of the
targets, and `close` stands where the body ends. -/
def copy (k : Stretch) (head x : Spot) (wrap : Spot → Spot) (close : Stretch) : Stretch :=
  let instrs := if x = head then k.instrs.drop 1 else k.instrs
  if k.shape = .endCleanup then ⟨instrs ++ close.instrs, close.shape, close.targets⟩
  else ⟨instrs, k.shape, k.targets.map wrap⟩

open Classical in
/-- The block `a` with its ways out of a region led elsewhere: a return is led to `ret` after the
instructions `store`, and a jump to a block that is not inside to what `route` says. -/
noncomputable def leave (k : Stretch) (inside : Spot → Prop) (store : List Instr) (ret : Spot)
    (route : Spot → Spot) (a : Spot) : Stretch :=
  if ¬ inside a then k
  else if k.shape = .ret then ⟨k.instrs ++ store, .goto 0, [ret]⟩
  else { k with targets := k.targets.map fun t => if inside t then t else route t }

end Stretch

/-- **A method by named blocks.**  Regions are known by their positions in the method that the
outline started from; new locals are numbered from `base` on, two for each region. -/
structure Outline where
  block : Spot → Option Stretch
  covers : Nat → Spot → Prop
  handler : Nat → Spot
  kind : Nat → RegionKind
  void : Bool
  base : Nat

namespace Outline

variable (G : Outline) (i : Nat)

/-- The local for the value that is returned through region `i`. -/
def saved : Nat := G.base + 2 * i

/-- The local for the exception that is taken by region `i`. -/
def caught : Nat := G.base + 2 * i + 1

/-- The blocks of the cleanup body of region `i`. -/
inductive Body (G : Outline) (i : Nat) : Spot → Prop where
  | start : Body G i (G.handler i)
  | next {a t : Spot} {k : Stretch} : Body G i a → G.block a = some k → t ∈ k.targets → Body G i t

/-- A jump leaves region `i` for `t`. -/
def Exits (t : Spot) : Prop :=
  ∃ a k, G.covers i a ∧ G.block a = some k ∧ t ∈ k.targets ∧ ¬ G.covers i t

/-- A return leaves region `i`. -/
def Returns : Prop := ∃ a k, G.covers i a ∧ G.block a = some k ∧ k.shape = .ret

/-- The instructions by which the handler of region `i` takes the exception when it also has to keep
it. -/
def taken : Option (List Instr) :=
  (G.block (G.handler i)).bind fun k =>
    match k.instrs with
    | .pop :: _ => some []
    | .store l :: _ => some [.dup, .store l]
    | _ => none

/-! ### The expansion of a region -/

/-- The blocks that the expansion of region `i` adds. -/
def Adds : Spot → Prop
  | .given _ => False
  | .onward j t x => j = i ∧ G.Exits i t ∧ G.Body i x
  | .returning j x => j = i ∧ G.Returns i ∧ G.Body i x
  | .rethrowing j x => j = i ∧ G.Body i x
  | .rescue j => j = i

/-- The block that an added block was made from. -/
def source : Spot → Spot
  | .given b => .given b
  | .onward _ _ x | .returning _ x | .rethrowing _ x => x
  | .rescue j => G.handler j

/-- The instructions that save the value that is returned through region `i`. -/
def storing : List Instr := if G.void then [] else [.store (G.saved i)]

/-- The instructions that bring it back. -/
def loading : List Instr := if G.void then [] else [.load (G.saved i)]

/-- What stands at an added block. -/
def added : Spot → Option Stretch
  | .given _ => none
  | .onward i t x => (G.block x).map (·.copy (G.handler i) x (.onward i t) ⟨[], .goto 0, [t]⟩)
  | .returning i x =>
    (G.block x).map (·.copy (G.handler i) x (.returning i) ⟨G.loading i, .ret, []⟩)
  | .rethrowing i x =>
    (G.block x).map (·.copy (G.handler i) x (.rethrowing i) ⟨[.load (G.caught i)], .raise, []⟩)
  | .rescue i => (G.taken i).map fun take =>
    ⟨take ++ [.store (G.caught i)], .goto 0, [.rethrowing i (G.handler i)]⟩

/-- A block with its ways out of region `i` led through copies. -/
noncomputable def redirect (a : Spot) (k : Stretch) : Stretch :=
  k.leave (G.covers i) (G.storing i) (.returning i (G.handler i))
    (fun t => .onward i t (G.handler i)) a

open Classical in
/-- **Region `i` expanded.** -/
noncomputable def expand : Outline where
  block a :=
    if a.maker? = some i then if G.Adds i a then G.added a else none
    else (G.block a).map (G.redirect i a)
  covers j a :=
    if a.maker? = some i then G.Adds i a ∧ G.covers j (G.source a) else G.covers j a
  handler j := if j = i then .rescue i else G.handler j
  kind j := if j = i then .catchAll else G.kind j
  void := G.void
  base := G.base

/-- **What the expansion asks of region `i`**: its body does not meet it, begins by taking the
exception, and is not jumped into from the region. -/
structure Ready : Prop where
  apart : ∀ x, G.Body i x → ¬ G.covers i x
  takes : (G.taken i).isSome = true
  sealed : ∀ t, G.Exits i t → ¬ G.Body i t

/-- **The outline hangs together**: what is named exists, and the regions that are still to be
expanded have made no blocks yet. -/
structure Proper : Prop where
  targets : ∀ {a k t}, G.block a = some k → t ∈ k.targets → ∃ k', G.block t = some k'
  handlers : ∀ i, G.kind i = .cleanup → ∃ k, G.block (G.handler i) = some k
  covered : ∀ {i a}, G.covers i a → ∃ k, G.block a = some k
  unmade : ∀ {a k i}, G.block a = some k → G.kind i = .cleanup → a.maker? ≠ some i

end Outline

/-! ### Blocks of the expansion -/

namespace Outline

variable {G : Outline} {i j : Nat} {a t : Spot} {k : Stretch} {q : Nat} {is : List Nat}

theorem block_expand_of_ne (h : a.maker? ≠ some i) :
    (G.expand i).block a = (G.block a).map (G.redirect i a) := if_neg h

theorem covers_expand_of_ne (h : a.maker? ≠ some i) :
    (G.expand i).covers j a ↔ G.covers j a := iff_of_eq (if_neg h)

open Classical in
theorem block_expand_of_eq (h : a.maker? = some i) :
    (G.expand i).block a = if G.Adds i a then G.added a else none := if_pos h

theorem covers_expand_of_eq (h : a.maker? = some i) :
    (G.expand i).covers j a ↔ G.Adds i a ∧ G.covers j (G.source a) := iff_of_eq (if_pos h)

theorem handler_expand_of_ne (h : j ≠ i) : (G.expand i).handler j = G.handler j := if_neg h

theorem kind_expand_of_ne (h : j ≠ i) : (G.expand i).kind j = G.kind j := if_neg h

theorem kind_expand_self : (G.expand i).kind i = .catchAll := if_pos rfl

theorem kind_expand_eq_cleanup : (G.expand i).kind j = .cleanup ↔ j ≠ i ∧ G.kind j = .cleanup := by
  by_cases h : j = i
  · subst h
    simp [kind_expand_self]
  · simp [kind_expand_of_ne h, h]

theorem redirect_of_not_covers (h : ¬ G.covers i a) (k : Stretch) : G.redirect i a k = k := if_pos h

theorem Adds.maker? (h : G.Adds i a) : a.maker? = some i := by
  cases a with
  | given b => exact h.elim
  | onward | returning | rethrowing => exact congrArg some h.1
  | rescue => exact congrArg some h

theorem Adds.body_source (h : G.Adds i a) : G.Body i (G.source a) := by
  cases a with
  | given b => exact h.elim
  | onward => exact h.2.2
  | returning => exact h.2.2
  | rethrowing => exact h.2
  | rescue j =>
    cases (h : j = i)
    exact .start

theorem Body.exists_block (hG : G.Proper) (hi : G.kind i = .cleanup) (h : G.Body i a) :
    ∃ k, G.block a = some k := by
  cases h with
  | start => exact hG.handlers i hi
  | next _ hk ht => exact hG.targets hk ht

theorem Body.maker?_ne (hG : G.Proper) (hi : G.kind i = .cleanup) (h : G.Body i a)
    (hj : G.kind j = .cleanup) : a.maker? ≠ some j := by
  obtain ⟨k, hk⟩ := h.exists_block hG hi
  exact hG.unmade hk hj

theorem Proper.maker?_of_covers (hG : G.Proper) (h : G.covers i a) (hj : G.kind j = .cleanup) :
    a.maker? ≠ some j := by
  obtain ⟨k, hk⟩ := hG.covered h
  exact hG.unmade hk hj

/-! ### Regions that are apart -/

/-- **The regions are apart**: they share no block, and neither of the bodies meets the other
region. -/
structure Separate (G : Outline) (i j : Nat) : Prop where
  disjoint : ∀ a, G.covers i a → ¬ G.covers j a
  left : ∀ x, G.Body i x → ¬ G.covers j x
  right : ∀ x, G.Body j x → ¬ G.covers i x

theorem Separate.symm (h : G.Separate i j) : G.Separate j i :=
  ⟨fun a hj hi => h.disjoint a hi hj, h.right, h.left⟩

section Separate

variable (hG : G.Proper) (hi : G.kind i = .cleanup) (hj : G.kind j = .cleanup) (hne : i ≠ j)
  (h : G.Separate i j)
include hG hj

variable {a : Spot}

theorem Proper.block_expand {k : Stretch} (ha : G.block a = some k) (hout : ¬ G.covers j a) :
    (G.expand j).block a = some k := by
  rw [block_expand_of_ne (hG.unmade ha hj), ha, Option.map_some, redirect_of_not_covers hout]

include h

theorem Separate.covers_expand (a : Spot) : (G.expand j).covers i a ↔ G.covers i a := by
  by_cases hmaker : a.maker? = some j
  · rw [covers_expand_of_eq hmaker]
    exact ⟨fun hadds => absurd hadds.2 (h.right _ hadds.1.body_source),
      fun ha => absurd hmaker (hG.maker?_of_covers ha hj)⟩
  · exact covers_expand_of_ne hmaker

theorem Separate.block_of_covers (ha : G.covers i a) : (G.expand j).block a = G.block a := by
  obtain ⟨k, hk⟩ := hG.covered ha
  rw [hk, hG.block_expand hj hk (h.disjoint a ha)]

theorem Separate.exits_expand (t : Spot) : (G.expand j).Exits i t ↔ G.Exits i t := by
  refine exists_congr fun a => exists_congr fun k => ?_
  rw [h.covers_expand hG hj, h.covers_expand hG hj]
  exact and_congr_right fun ha => by rw [h.block_of_covers hG hj ha]

theorem Separate.returns_expand : (G.expand j).Returns i ↔ G.Returns i := by
  refine exists_congr fun a => exists_congr fun k => ?_
  rw [h.covers_expand hG hj]
  exact and_congr_right fun ha => by rw [h.block_of_covers hG hj ha]

include hne

theorem Separate.redirect_expand : (G.expand j).redirect i = G.redirect i := by
  have hcov : (G.expand j).covers i = G.covers i :=
    funext fun a => propext (h.covers_expand hG hj a)
  funext a k
  unfold redirect
  rw [hcov, handler_expand_of_ne hne]
  rfl

include hi

omit hne in
theorem Separate.block_of_body {x : Spot} (hx : G.Body i x) : (G.expand j).block x = G.block x := by
  obtain ⟨k, hk⟩ := hx.exists_block hG hi
  rw [hk, hG.block_expand hj hk (h.left x hx)]

/-- The body of a region that is apart stays as it is. -/
theorem Separate.body_expand (x : Spot) : (G.expand j).Body i x ↔ G.Body i x := by
  have hhandler := handler_expand_of_ne (G := G) hne
  constructor
  · intro hx
    induction hx with
    | start => exact hhandler ▸ .start
    | next _ hk ht ih => exact .next ih (h.block_of_body hG hi hj ih ▸ hk) ht
  · intro hx
    induction hx with
    | start => exact hhandler ▸ .start
    | next hx hk ht ih => exact .next ih ((h.block_of_body hG hi hj hx).trans hk) ht

theorem Separate.taken_expand : (G.expand j).taken i = G.taken i := by
  simp only [taken, handler_expand_of_ne (G := G) hne, h.block_of_body hG hi hj .start]

/-- **A region can be expanded** after another that is apart if it can be expanded before it. -/
theorem Separate.ready_expand : (G.expand j).Ready i ↔ G.Ready i := by
  have hapart : (∀ x, (G.expand j).Body i x → ¬ (G.expand j).covers i x) ↔
      ∀ x, G.Body i x → ¬ G.covers i x := by
    simp only [h.body_expand hG hi hj hne, h.covers_expand hG hj]
  have hsealed : (∀ t, (G.expand j).Exits i t → ¬ (G.expand j).Body i t) ↔
      ∀ t, G.Exits i t → ¬ G.Body i t := by
    simp only [h.body_expand hG hi hj hne, h.exits_expand hG hj]
  have htaken := h.taken_expand hG hi hj hne
  exact ⟨fun hr => ⟨hapart.1 hr.apart, htaken ▸ hr.takes, hsealed.1 hr.sealed⟩,
    fun hr => ⟨hapart.2 hr.apart, htaken ▸ hr.takes, hsealed.2 hr.sealed⟩⟩

theorem Separate.adds_expand (a : Spot) : (G.expand j).Adds i a ↔ G.Adds i a := by
  cases a with
  | given | rescue => exact Iff.rfl
  | onward => simp only [Adds, h.body_expand hG hi hj hne, h.exits_expand hG hj]
  | returning => simp only [Adds, h.body_expand hG hi hj hne, h.returns_expand hG hj]
  | rethrowing => simp only [Adds, h.body_expand hG hi hj hne]

theorem Separate.added_expand (ha : G.Adds i a) : (G.expand j).added a = G.added a := by
  have hsource := h.block_of_body hG hi hj ha.body_source
  have hhandler := handler_expand_of_ne (G := G) hne
  cases a with
  | given => rfl
  | onward k t x =>
    cases ha.1
    simp only [added, hhandler, show (G.expand j).block x = G.block x from hsource]
  | returning k x | rethrowing k x =>
    cases ha.1
    simp only [added, hhandler, show (G.expand j).block x = G.block x from hsource]
    rfl
  | rescue k =>
    cases (ha : k = i)
    simp only [added, hhandler, h.taken_expand hG hi hj hne]
    rfl

omit hG hi hj h in
theorem source_expand (ha : G.Adds i a) : (G.expand j).source a = G.source a := by
  cases a with
  | rescue k =>
    cases (ha : k = i)
    exact handler_expand_of_ne hne
  | _ => rfl

/-- What the expansion of region `i` adds is the same before and after the expansion of a region
that is apart. -/
theorem Separate.block_comm (hmaker : a.maker? = some i) :
    ((G.expand i).expand j).block a = ((G.expand j).expand i).block a := by
  have hmaker' : a.maker? ≠ some j := by
    rw [hmaker]
    exact fun heq => hne (Option.some.inj heq)
  -- What `i` adds lies outside of `j`, so the expansion of `j` leaves it as it is.
  have hout : ¬ (G.expand i).covers j a := by
    rw [h.symm.covers_expand hG hi]
    exact fun ha => hG.maker?_of_covers ha hi hmaker
  rw [block_expand_of_ne hmaker', block_expand_of_eq hmaker, block_expand_of_eq hmaker]
  by_cases hadds : G.Adds i a
  · rw [if_pos hadds, if_pos ((h.adds_expand hG hi hj hne a).2 hadds),
      h.added_expand hG hi hj hne hadds]
    cases G.added a with
    | none => rfl
    | some k => simp only [Option.map_some, redirect_of_not_covers hout]
  · rw [if_neg hadds, if_neg fun hadds' => hadds ((h.adds_expand hG hi hj hne a).1 hadds')]
    rfl

theorem Separate.covers_comm (hmaker : a.maker? = some i) (c : Nat) :
    ((G.expand i).expand j).covers c a ↔ ((G.expand j).expand i).covers c a := by
  have hmaker' : a.maker? ≠ some j := by
    rw [hmaker]
    exact fun heq => hne (Option.some.inj heq)
  rw [covers_expand_of_ne hmaker', covers_expand_of_eq hmaker, covers_expand_of_eq hmaker,
    h.adds_expand hG hi hj hne]
  refine and_congr_right fun hadds => ?_
  rw [source_expand hne hadds]
  exact (covers_expand_of_ne (hadds.body_source.maker?_ne hG hi hj)).symm

end Separate

/-- **Regions that are apart can be expanded in either order.** -/
theorem expand_comm (hG : G.Proper) (hi : G.kind i = .cleanup) (hj : G.kind j = .cleanup)
    (hne : i ≠ j) (h : G.Separate i j) : (G.expand i).expand j = (G.expand j).expand i := by
  have hblock : ∀ a, ((G.expand i).expand j).block a = ((G.expand j).expand i).block a := by
    intro a
    by_cases hmi : a.maker? = some i
    · exact h.block_comm hG hi hj hne hmi
    by_cases hmj : a.maker? = some j
    · exact (h.symm.block_comm hG hj hi (Ne.symm hne) hmj).symm
    rw [block_expand_of_ne hmj, block_expand_of_ne hmi, block_expand_of_ne hmi,
      block_expand_of_ne hmj,
      h.redirect_expand hG hj hne, h.symm.redirect_expand hG hi (Ne.symm hne)]
    cases hk : G.block a with
    | none => rfl
    | some k =>
      -- The block lies in at most one of the regions.
      simp only [Option.map_some]
      by_cases hcov : G.covers i a
      · rw [redirect_of_not_covers (h.disjoint a hcov), redirect_of_not_covers (h.disjoint a hcov)]
      · rw [redirect_of_not_covers hcov, redirect_of_not_covers hcov]
  have hcovers : ∀ c a, ((G.expand i).expand j).covers c a ↔
      ((G.expand j).expand i).covers c a := by
    intro c a
    by_cases hmi : a.maker? = some i
    · exact h.covers_comm hG hi hj hne hmi c
    by_cases hmj : a.maker? = some j
    · exact (h.symm.covers_comm hG hj hi (Ne.symm hne) hmj c).symm
    rw [covers_expand_of_ne hmj, covers_expand_of_ne hmi, covers_expand_of_ne hmi,
      covers_expand_of_ne hmj]
  have hhandler : ∀ c, ((G.expand i).expand j).handler c = ((G.expand j).expand i).handler c := by
    intro c
    simp only [expand]
    split <;> split <;> simp_all
  have hkind : ∀ c, ((G.expand i).expand j).kind c = ((G.expand j).expand i).kind c := by
    intro c
    simp only [expand]
    split <;> split <;> rfl
  exact mk.injEq .. ▸ ⟨funext hblock, funext fun c => funext fun a => propext (hcovers c a),
    funext hhandler, funext hkind, rfl, rfl⟩

/-! ### Where blocks of the expansion lead -/

/-- **The jumps of the expansion of region `i`**: those of the blocks as before, those that leave
the region, and those of the copies. -/
inductive Edge (G : Outline) (i : Nat) : Spot → Spot → Prop where
  | old {a t : Spot} {k : Stretch} : G.block a = some k → t ∈ k.targets → Edge G i a t
  | exit {a t : Spot} {k : Stretch} : G.covers i a → G.block a = some k → t ∈ k.targets →
      ¬ G.covers i t → Edge G i a (.onward i t (G.handler i))
  | ret {a : Spot} {k : Stretch} : G.covers i a → G.block a = some k → k.shape = .ret →
      Edge G i a (.returning i (G.handler i))
  | onward {t x u : Spot} : G.Exits i t → G.Body i u → Edge G i (.onward i t x) (.onward i t u)
  | arrive {t x : Spot} : G.Exits i t → Edge G i (.onward i t x) t
  | returning {x u : Spot} : G.Returns i → G.Body i u → Edge G i (.returning i x) (.returning i u)
  | rethrowing {a u : Spot} : G.Body i u → (a = .rescue i ∨ ∃ x, a = .rethrowing i x) →
      Edge G i a (.rethrowing i u)

theorem mem_targets_copy {close : Stretch} {head x : Spot} {wrap : Spot → Spot}
    (h : t ∈ (k.copy head x wrap close).targets) :
    t ∈ close.targets ∨ ∃ u ∈ k.targets, wrap u = t := by
  unfold Stretch.copy at h
  dsimp only at h
  split at h
  · exact .inl h
  · exact .inr (mem_map.1 h)

theorem edge_of_redirect (hk : G.block a = some k) (ht : t ∈ (G.redirect i a k).targets) :
    G.Edge i a t := by
  unfold redirect Stretch.leave at ht
  split at ht
  · exact .old hk ht
  · rename_i hcov
    have hcov := Classical.not_not.1 hcov
    split at ht
    · rename_i hret
      rw [mem_singleton.1 ht]
      exact .ret hcov hk hret
    · obtain ⟨u, hu, rfl⟩ := mem_map.1 ht
      split
      · exact .old hk hu
      · rename_i hout
        exact .exit hcov hk hu hout

theorem edge_of_added (ha : G.Adds i a) (hk : G.added a = some k) (ht : t ∈ k.targets) :
    G.Edge i a t := by
  cases a with
  | given => exact ha.elim
  | onward c t' x =>
    obtain ⟨rfl, hexits, hx⟩ := ha
    obtain ⟨k', hk', rfl⟩ := Option.map_eq_some_iff.1 hk
    rcases mem_targets_copy ht with ht | ⟨u, hu, rfl⟩
    · rw [mem_singleton.1 ht]
      exact .arrive hexits
    · exact .onward hexits (hx.next hk' hu)
  | returning c x =>
    obtain ⟨rfl, hreturns, hx⟩ := ha
    obtain ⟨k', hk', rfl⟩ := Option.map_eq_some_iff.1 hk
    rcases mem_targets_copy ht with ht | ⟨u, hu, rfl⟩
    · exact absurd ht not_mem_nil
    · exact .returning hreturns (hx.next hk' hu)
  | rethrowing c x =>
    obtain ⟨rfl, hx⟩ := ha
    obtain ⟨k', hk', rfl⟩ := Option.map_eq_some_iff.1 hk
    rcases mem_targets_copy ht with ht | ⟨u, hu, rfl⟩
    · exact absurd ht not_mem_nil
    · exact .rethrowing (hx.next hk' hu) (.inr ⟨x, rfl⟩)
  | rescue c =>
    cases (ha : c = i)
    obtain ⟨take, -, rfl⟩ := Option.map_eq_some_iff.1 hk
    rw [mem_singleton.1 ht]
    exact .rethrowing .start (.inl rfl)

theorem edge_of_expand (hk : (G.expand i).block a = some k) (ht : t ∈ k.targets) :
    G.Edge i a t := by
  by_cases hmaker : a.maker? = some i
  · rw [block_expand_of_eq hmaker] at hk
    split at hk
    · rename_i ha
      exact edge_of_added ha hk ht
    · cases hk
  · rw [block_expand_of_ne hmaker] at hk
    obtain ⟨k', hk', rfl⟩ := Option.map_eq_some_iff.1 hk
    exact edge_of_redirect hk' ht

theorem exists_block_expand (hG : G.Proper) (hi : G.kind i = .cleanup)
    (h : ∃ k, G.block a = some k) :
    ∃ k, (G.expand i).block a = some k := by
  obtain ⟨k, hk⟩ := h
  exact ⟨_, by rw [block_expand_of_ne (hG.unmade hk hi), hk]; rfl⟩

theorem Adds.exists_block (hG : G.Proper) (hi : G.kind i = .cleanup) (hr : G.Ready i)
    (h : G.Adds i a) : ∃ k, (G.expand i).block a = some k := by
  obtain ⟨k, hk⟩ := h.body_source.exists_block hG hi
  rw [block_expand_of_eq h.maker?, if_pos h]
  cases a with
  | given => exact h.elim
  | onward | returning | rethrowing => exact ⟨_, Option.map_eq_some_iff.2 ⟨k, hk, rfl⟩⟩
  | rescue c =>
    cases (h : c = i)
    obtain ⟨take, htake⟩ := Option.isSome_iff_exists.1 hr.takes
    exact ⟨_, Option.map_eq_some_iff.2 ⟨take, htake, rfl⟩⟩

/-- **The expansion hangs together.** -/
theorem Proper.expand (hG : G.Proper) (hi : G.kind i = .cleanup) (hr : G.Ready i) :
    (G.expand i).Proper where
  targets := by
    intro a k t hk ht
    have hadds : ∀ {b}, G.Adds i b → ∃ k', (G.expand i).block b = some k' := fun hb =>
      hb.exists_block hG hi hr
    cases edge_of_expand hk ht with
    | old hk ht => exact exists_block_expand hG hi (hG.targets hk ht)
    | exit ha hk' ht' hout => exact hadds ⟨rfl, ⟨a, _, ha, hk', ht', hout⟩, .start⟩
    | ret ha hk hret => exact hadds ⟨rfl, ⟨a, _, ha, hk, hret⟩, .start⟩
    | onward hexits hu => exact hadds ⟨rfl, hexits, hu⟩
    | arrive hexits =>
      obtain ⟨b, k', -, hk', ht, -⟩ := hexits
      exact exists_block_expand hG hi (hG.targets hk' ht)
    | returning hreturns hu => exact hadds ⟨rfl, hreturns, hu⟩
    | rethrowing hu => exact hadds ⟨rfl, hu⟩
  handlers j hj := by
    obtain ⟨hne, hj⟩ := kind_expand_eq_cleanup.1 hj
    rw [handler_expand_of_ne hne]
    exact exists_block_expand hG hi (hG.handlers j hj)
  covered := by
    intro j a ha
    by_cases hmaker : a.maker? = some i
    · exact ((covers_expand_of_eq hmaker).1 ha).1.exists_block hG hi hr
    · exact exists_block_expand hG hi (hG.covered ((covers_expand_of_ne hmaker).1 ha))
  unmade := by
    intro a k j hk hj hmaker
    obtain ⟨hne, hj⟩ := kind_expand_eq_cleanup.1 hj
    have hmaker' : a.maker? ≠ some i := fun heq => hne (Option.some.inj (hmaker.symm.trans heq))
    rw [block_expand_of_ne hmaker'] at hk
    obtain ⟨k', hk', -⟩ := Option.map_eq_some_iff.1 hk
    exact hG.unmade hk' hj hmaker

/-! ### Regions that have to do with each other -/

/-- The body of region `i` meets region `j`; both are still to be expanded. -/
def Meets (G : Outline) (i j : Nat) : Prop :=
  G.kind i = .cleanup ∧ G.kind j = .cleanup ∧ ∃ x, G.Body i x ∧ G.covers j x

/-- The regions share a block. -/
def Shares (G : Outline) (i j : Nat) : Prop := ∃ a, G.covers i a ∧ G.covers j a

theorem shares_of_expand (h : (G.expand q).Shares i j) : G.Shares i j := by
  obtain ⟨a, hi, hj⟩ := h
  by_cases hmaker : a.maker? = some q
  · rw [covers_expand_of_eq hmaker] at hi hj
    exact ⟨_, hi.2, hj.2⟩
  · rw [covers_expand_of_ne hmaker] at hi hj
    exact ⟨a, hi, hj⟩

/-- **The body of a region after another was expanded**: what it was, and copies of the body of that
region if it met the region. -/
theorem body_of_expand (hG : G.Proper) (hq : G.kind q = .cleanup) (hi : G.kind i = .cleanup)
    (hne : i ≠ q) {x : Spot} (hx : (G.expand q).Body i x) :
    G.Body i x ∨ G.Meets i q ∧ ∃ y, G.Body q y ∧
      ((∃ t, G.Body i t ∧ x = .onward q t y) ∨ x = .returning q y) := by
  induction hx with
  | start => exact .inl (handler_expand_of_ne (G := G) hne ▸ .start)
  | @next a t k _ hk ht ih =>
    have hedge := edge_of_expand hk ht
    -- Copies made for `q` are entered where the body leaves `q`, and left for a target that the
    -- body had before; the copies that throw again are entered by exceptions only.
    rcases ih with hbody | ⟨hmeets, y, hy, ⟨t', ht', rfl⟩ | rfl⟩
    · have hmaker := hbody.maker?_ne hG hi hq
      cases hedge with
      | old hk ht => exact .inl (hbody.next hk ht)
      | exit ha hk' ht' _ =>
        exact .inr ⟨⟨hi, hq, a, hbody, ha⟩, _, .start, .inl ⟨_, hbody.next hk' ht', rfl⟩⟩
      | ret ha hk hret => exact .inr ⟨⟨hi, hq, a, hbody, ha⟩, _, .start, .inr rfl⟩
      | onward | arrive | returning => exact absurd rfl hmaker
      | rethrowing _ ha =>
        rcases ha with rfl | ⟨_, rfl⟩ <;> exact absurd rfl hmaker
    · cases hedge with
      | old hk => exact absurd rfl (hG.unmade hk hq)
      | exit ha | ret ha => exact absurd rfl (hG.maker?_of_covers ha hq)
      | onward _ hu => exact .inr ⟨hmeets, _, hu, .inl ⟨t', ht', rfl⟩⟩
      | arrive => exact .inl ht'
      | rethrowing _ ha => simp at ha
    · cases hedge with
      | old hk => exact absurd rfl (hG.unmade hk hq)
      | exit ha | ret ha => exact absurd rfl (hG.maker?_of_covers ha hq)
      | returning _ hu => exact .inr ⟨hmeets, _, hu, .inr rfl⟩
      | rethrowing _ ha => simp at ha

/-- **After an expansion bodies meet regions only through the expanded one.** -/
theorem meets_of_expand (hG : G.Proper) (hq : G.kind q = .cleanup) (h : (G.expand q).Meets i j) :
    G.Meets i j ∨ G.Meets i q ∧ G.Meets q j := by
  obtain ⟨hi, hj, x, hx, hcov⟩ := h
  obtain ⟨hiq, hi⟩ := kind_expand_eq_cleanup.1 hi
  obtain ⟨-, hj⟩ := kind_expand_eq_cleanup.1 hj
  rcases body_of_expand hG hq hi hiq hx with hbody | ⟨hmeets, y, hy, hxy⟩
  · rw [covers_expand_of_ne (hbody.maker?_ne hG hi hq)] at hcov
    exact .inl ⟨hi, hj, x, hbody, hcov⟩
  · refine .inr ⟨hmeets, hq, hj, y, hy, ?_⟩
    rcases hxy with ⟨t, -, rfl⟩ | rfl
    · exact ((covers_expand_of_eq rfl).1 hcov).2
    · exact ((covers_expand_of_eq rfl).1 hcov).2

/-! ### One region after the other -/

/-- **The cleanup regions among the given ones expanded one after the other.** -/
inductive Runs : Outline → List Nat → Outline → Prop where
  | nil (G : Outline) : Runs G [] G
  | skip {G G' : Outline} {i : Nat} {is : List Nat} : G.kind i ≠ .cleanup → Runs G is G' →
      Runs G (i :: is) G'
  | expand {G G' : Outline} {i : Nat} {is : List Nat} : G.kind i = .cleanup → G.Ready i →
      Runs (G.expand i) is G' → Runs G (i :: is) G'

theorem Runs.unique {G₁ G₂ : Outline} (h₁ : G.Runs is G₁) (h₂ : G.Runs is G₂) : G₁ = G₂ := by
  induction h₁ with
  | nil =>
    cases h₂
    rfl
  | skip hi _ ih =>
    cases h₂ with
    | skip _ h => exact ih h
    | expand hi' => exact absurd hi' hi
  | expand hi _ _ ih =>
    cases h₂ with
    | skip hi' => exact absurd hi hi'
    | expand _ _ h => exact ih h

/-- At most the given regions have to do with each other: `D` bounds where bodies meet regions, and
`S` which regions share blocks. -/
structure Within (G : Outline) (D S : Nat → Nat → Prop) : Prop where
  proper : G.Proper
  meets : ∀ i j, G.Meets i j → D i j
  shares : ∀ i j, G.Shares i j → S i j

variable {D S : Nat → Nat → Prop} {G' : Outline}

theorem Within.expand (h : G.Within D S) (hD : ∀ i j k, D i j → D j k → D i k)
    (hi : G.kind i = .cleanup) (hr : G.Ready i) : (G.expand i).Within D S where
  proper := h.proper.expand hi hr
  meets j k hjk := by
    -- This is why `D` is transitive.
    rcases meets_of_expand h.proper hi hjk with hjk | ⟨hji, hik⟩
    · exact h.meets j k hjk
    · exact hD j i k (h.meets j i hji) (h.meets i k hik)
  shares j k hjk := h.shares j k (shares_of_expand hjk)

theorem Within.runs (h : G.Within D S) (hD : ∀ i j k, D i j → D j k → D i k)
    (hruns : G.Runs is G') :
    G'.Within D S := by
  induction hruns with
  | nil => exact h
  | skip _ _ ih => exact ih h
  | expand hi hr _ ih => exact ih (h.expand hD hi hr)

theorem Within.separate (h : G.Within D S) (hi : G.kind i = .cleanup) (hj : G.kind j = .cleanup)
    (hS : ¬ S i j) (hij : ¬ D i j) (hji : ¬ D j i) : G.Separate i j where
  disjoint a ha hb := hS (h.shares i j ⟨a, ha, hb⟩)
  left x hx hcov := hij (h.meets i j ⟨hi, hj, x, hx, hcov⟩)
  right x hx hcov := hji (h.meets j i ⟨hj, hi, x, hx, hcov⟩)

theorem Runs.swap (hG : G.Proper) (hne : i ≠ j)
    (hsep : G.kind i = .cleanup → G.kind j = .cleanup → G.Separate i j)
    (h : G.Runs (i :: j :: is) G') : G.Runs (j :: i :: is) G' := by
  have hkind : (G.expand i).kind j = G.kind j := kind_expand_of_ne (Ne.symm hne)
  have hkind' : (G.expand j).kind i = G.kind i := kind_expand_of_ne hne
  cases h with
  | skip hi h =>
    cases h with
    | skip hj h => exact .skip hj (.skip hi h)
    | expand hj hr h => exact .expand hj hr (.skip (hkind' ▸ hi) h)
  | expand hi hri h =>
    cases h with
    | skip hj h => exact .skip (hkind ▸ hj) (.expand hi hri h)
    | expand hj hrj h =>
      -- Each is ready before the other if it is ready after it.
      rw [hkind] at hj
      have hs := hsep hi hj
      rw [expand_comm hG hi hj hne hs] at h
      exact .expand hj ((hs.symm.ready_expand hG hj hi (Ne.symm hne)).1 hrj)
        (.expand (hkind'.trans hi) ((hs.ready_expand hG hi hj hne).2 hri) h)

/-- A region comes to the front of those with which it has nothing to do. -/
theorem Runs.front {xs ys : List Nat} (hD : ∀ i j k, D i j → D j k → D i k)
    (hfree : ∀ x ∈ xs, x ≠ q ∧ ¬ S x q ∧ ¬ D x q ∧ ¬ D q x) (hw : G.Within D S)
    (h : G.Runs (xs ++ q :: ys) G') : G.Runs (q :: (xs ++ ys)) G' := by
  induction xs generalizing G with
  | nil => exact h
  | cons x xs ih =>
    have ih := fun {G : Outline} => @ih G fun y hy => hfree y (mem_cons_of_mem x hy)
    obtain ⟨hne, hS, hxq, hqx⟩ := hfree x mem_cons_self
    refine Runs.swap hw.proper hne (fun hx hq => hw.separate hx hq hS hxq hqx) ?_
    cases h with
    | skip hx h => exact .skip hx (ih hw h)
    | expand hx hr h => exact .expand hx hr (ih (hw.expand hD hx hr) h)

/-- **Regions can be expanded in another order**, if those that have to do with each other keep
theirs. -/
theorem Runs.reorder (hD : ∀ i j k, D i j → D j k → D i k) {js : List Nat} (hperm : js.Perm is)
    (hnodup : is.Nodup)
    (hfree : ∀ i j, [i, j].Sublist is → [j, i].Sublist js → ¬ S i j ∧ ¬ D i j ∧ ¬ D j i)
    (hw : G.Within D S) (h : G.Runs is G') : G.Runs js G' := by
  induction js generalizing G is with
  | nil =>
    rw [hperm.nil_eq] at *
    exact h
  | cons q js ih =>
    -- The first region of the new order comes to the front of the old one.
    obtain ⟨xs, ys, rfl⟩ := append_of_mem (hperm.subset mem_cons_self)
    have hrest : js.Perm (xs ++ ys) := (hperm.trans perm_middle).cons_inv
    have hnodup' : (q :: (xs ++ ys)).Nodup := perm_middle.nodup_iff.1 hnodup
    have hfront := h.front hD (fun x hx => by
      have hmem : x ∈ js := hrest.symm.subset (mem_append_left _ hx)
      have hne : x ≠ q := by
        rintro rfl
        exact (nodup_cons.1 hnodup').1 (mem_append_left _ hx)
      refine ⟨hne, hfree x q ?_ ?_⟩
      · exact (singleton_sublist.2 hx).append (singleton_sublist.2 mem_cons_self)
      · exact (singleton_sublist.2 hmem).cons_cons q) hw
    have hsub : (xs ++ ys).Sublist (xs ++ q :: ys) :=
      List.Sublist.append_left (sublist_cons_self q ys) xs
    have ih := fun {G : Outline} => @ih G (xs ++ ys) hrest (nodup_cons.1 hnodup').2
      fun i j hij hji => hfree i j (hij.trans hsub) (hji.cons q)
    cases hfront with
    | skip hq h => exact .skip hq (ih hw h)
    | expand hq hr h => exact .expand hq hr (ih (hw.expand hD hq hr) h)

end Outline

end Resumable
