/-
**Where defects and suspension points lie.**

A defect has a position, and so has a suspension point.  Both are found in the method without
cleanup regions, in which copies of cleanup bodies stand behind the blocks of the given method.  So
a position is one of the given method unless it lies in the code that was added: in a block behind
those of the method, or at the jump that takes the place of a return and comes after a store.

The blocks of the given method keep their numbers and their instructions while the regions are
expanded one after the other, `Method.Unfolds`; everything else follows from that.

Main results:

* `Method.Unfolds.next` — **blocks stay what they are**;
* `Graph.holds_of_balance` — a defect of the flow lies in a node;
* `Method.positions_of_convert` — **the positions of defects and of suspension points**.
-/

import Resumable.Proofs.CleanupCopies
import Resumable.Proofs.ExceptionTables

set_option autoImplicit false

namespace Resumable

open List

namespace Method

variable {m n k : Method} {at' : Location} {d : Defect}

/-! ### Positions of a method -/

/-- The position of an instruction or of the terminator of a block. -/
def Names (m : Method) (at' : Location) : Prop :=
  ∃ b, m.block? at'.block = some b ∧ at'.offset ≤ b.instrs.length

variable {b i : Nat} {region : Region}

theorem names_of_lt (h : b < m.blocks.length) : m.Names ⟨b, 0⟩ :=
  ⟨_, List.getElem?_eq_getElem h, Nat.zero_le _⟩

theorem Sound.names (h : m.Sound) {b : Block} (hb : b ∈ m.blocks) {o : Nat}
    (ho : o ≤ b.instrs.length) : m.Names ⟨b.id, o⟩ := by
  obtain ⟨i, hi⟩ := mem_iff_getElem?.1 hb
  refine ⟨b, ?_, ho⟩
  rw [h.ids i b hi]
  exact hi

theorem Sound.names_arity (h : m.Sound) {isMarker : String → Bool}
    (hd : d ∈ m.arityDefects isMarker) : m.Names d.location := by
  obtain ⟨b, hb, hd⟩ := mem_flatMap.1 hd
  obtain ⟨⟨i, o⟩, hi, hd⟩ := mem_filterMap.1 hd
  have hlt := (List.getElem?_eq_some_iff.1 (mem_zipIdx_iff_getElem?.1 hi)).1
  split at hd
  · split at hd
    · cases hd
    · cases hd
      exact h.names hb (Nat.le_of_lt hlt)
  · cases hd

theorem mem_of_clash? {first second : Region} (hd : clash? first second = some d) :
    d.location.block ∈ first.blocks ∧ d.location.offset = 0 := by
  unfold clash? at hd
  split at hd
  · cases hd
  · rename_i shared rest hshared
    have hmem : shared ∈ first.blocks.filter (· ∈ second.blocks) := by
      show shared ∈ (first.blocks.filter (· ∈ second.blocks)).toList
      rw [hshared]
      exact mem_cons_self
    have hfirst := (IdSet.mem_filter.1 hmem).1
    dsimp only at hd
    split at hd
    · cases hd
      exact ⟨hfirst, rfl⟩
    · split at hd
      · cases hd
        exact ⟨hfirst, rfl⟩
      · cases hd

theorem exists_of_mem_clashes {rs : List Region} (hd : d ∈ clashes rs) :
    ∃ r ∈ rs, d.location.block ∈ r.blocks ∧ d.location.offset = 0 := by
  induction rs with
  | nil => cases hd
  | cons r rs ih =>
    rcases mem_append.1 hd with hd | hd
    · obtain ⟨second, -, hclash⟩ := mem_filterMap.1 hd
      exact ⟨r, mem_cons_self, mem_of_clash? hclash⟩
    · obtain ⟨r', hr', hrest⟩ := ih hd
      exact ⟨r', mem_cons_of_mem r hr', hrest⟩

theorem Sound.names_shape (h : m.Sound) (hd : d ∈ m.shapeDefects) : m.Names d.location := by
  obtain ⟨r, hr, hblock, hoffset⟩ := exists_of_mem_clashes hd
  obtain ⟨⟨b, o⟩, cause⟩ := d
  simp only at hblock hoffset
  subst hoffset
  exact names_of_lt ((h.regions r hr).covered b hblock)

theorem Sound.names_deadMarker (h : m.Sound) {isMarker : String → Bool}
    (hd : d ∈ m.deadMarkerDefects isMarker) : m.Names d.location := by
  obtain ⟨b, hb, hd⟩ := mem_filterMap.1 hd
  split at hd
  · cases hd
  · obtain ⟨o, ho, rfl⟩ := Option.map_eq_some_iff.1 hd
    exact h.names hb (Nat.le_of_lt (findIdx?_eq_some_iff_getElem.1 ho).1)

theorem Sound.names_strayEnd (h : m.Sound) (hd : d ∈ m.strayEndDefects) : m.Names d.location := by
  obtain ⟨b, hb, hd⟩ := mem_filterMap.1 hd
  split at hd
  · cases hd
    exact h.names hb (Nat.le_refl _)
  · cases hd

theorem mem_of_report {ds : List Defect} (h : report ds = .error d) : d ∈ ds := by
  cases ds with
  | nil => cases h
  | cons d' ds =>
    cases h
    exact mem_cons_self

/-- **The checks of the method as it is given** find defects at its own positions. -/
theorem Sound.names_check (h : m.Sound) {o : Options} (hd : m.check o = .error d) :
    m.Names d.location := by
  rcases bind_eq_error hd with hd | ⟨-, -, hd⟩
  · rw [referenceDefects_eq_nil_iff.2 h] at hd
    cases hd
  · rcases bind_eq_error hd with hd | ⟨-, -, hd⟩
    · exact h.names_arity (mem_of_report hd)
    · rcases bind_eq_error hd with hd | ⟨-, -, hd⟩
      · exact h.names_shape (mem_of_report hd)
      · exact h.names_deadMarker (mem_of_report hd)

/-! ### Expanding regions -/

/-- The block lies in a cleanup region. -/
def Guards (m : Method) (b : Nat) : Prop := ∃ r ∈ m.regions, r.kind = .cleanup ∧ b ∈ r.blocks

/-- A block while regions are expanded: it keeps its instructions, and a return in a cleanup region
may have become a store and a jump. -/
inductive Becomes (m : Method) (b : Block) : Block → Prop where
  | same {b' : Block} : b'.instrs = b.instrs → (b'.terminator = .ret → b.terminator = .ret) →
      Becomes m b b'
  | stores {b' : Block} (l : Nat) : m.Guards b.id → b.terminator = .ret → b'.terminator ≠ .ret →
      b'.instrs = b.instrs ++ [.store l] → Becomes m b b'

/-- **`k` is `m` with some of its cleanup regions expanded.** -/
structure Unfolds (m k : Method) : Prop where
  grows : m.Grows k
  blocks : ∀ b block, m.block? b = some block → ∃ block', k.block? b = some block' ∧
    m.Becomes block block'
  covers : ∀ i b, b < m.blocks.length → (k.Covers i b ↔ m.Covers i b)
  kinds : ∀ (i : Nat) (r : Region), k.regions[i]? = some r → r.kind = .cleanup →
    ∃ r' : Region, m.regions[i]? = some r' ∧ r'.kind = .cleanup

theorem Sound.unfolds (h : m.Sound) : m.Unfolds m where
  grows := h.grows
  blocks _ block hb := ⟨block, hb, .same rfl id⟩
  covers _ _ _ := Iff.rfl
  kinds _ r hr hkind := ⟨r, hr, hkind⟩

theorem Unfolds.guards (h : m.Unfolds k) (hregion : k.regions[i]? = some region)
    (hkind : region.kind = .cleanup) (hb : b ∈ region.blocks) (hlt : b < m.blocks.length) :
    m.Guards b := by
  obtain ⟨r, hr, hrkind⟩ := h.kinds i region hregion hkind
  obtain ⟨r', hr', hmem⟩ := (h.covers i b hlt).1 ⟨region, hregion, hb⟩
  rw [hr] at hr'
  cases hr'
  exact ⟨r, mem_of_getElem? hr, hrkind, hmem⟩

/-- Blocks stay what they are when one region is expanded. -/
theorem Unfolds.expanded (h : m.Unfolds k) (hm : m.Sound) (hregion : k.regions[i]? = some region)
    (hkind : region.kind = .cleanup) (hn : k.Expanded i region n) : m.Unfolds n where
  grows := h.grows.trans hn.grows
  blocks b block hb := by
    have hlt := (List.getElem?_eq_some_iff.1 hb).1
    have hid := hm.ids b block hb
    obtain ⟨block', hb', hbecomes⟩ := h.blocks b block hb
    by_cases hmem : b ∈ region.blocks
    · cases hn.led b hmem with
      | @ret _ saved copy hk hret _ hblock =>
        rw [hb'] at hk
        cases hk
        -- Only a block that was not changed before still returns.
        cases hbecomes with
        | stores l _ _ hne _ => exact absurd hret hne
        | same hinstrs hterminator =>
          refine ⟨_, hblock, ?_⟩
          cases saved with
          | none => exact .same (by simpa using hinstrs) nofun
          | some l =>
            refine .stores l ?_ (hterminator hret) nofun (by simp [hinstrs])
            rw [hid]
            exact h.guards hregion hkind hmem hlt
      | jumps hk hret _ _ hblock =>
        rw [hb'] at hk
        cases hk
        refine ⟨_, hblock, ?_⟩
        cases hbecomes with
        | same hinstrs _ =>
          exact .same hinstrs fun ht => absurd (Terminator.mapTargets_eq_ret.1 ht) hret
        | stores l hguards hterminator _ hinstrs =>
          exact .stores l hguards hterminator (fun ht =>
            hret (Terminator.mapTargets_eq_ret.1 ht)) hinstrs
    · refine ⟨block', (hn.kept b ?_ hmem).trans hb', hbecomes⟩
      exact Nat.lt_of_lt_of_le hlt h.grows.size
  covers j b hlt := (hn.covers j b (Nat.lt_of_lt_of_le hlt h.grows.size)).trans (h.covers j b hlt)
  kinds j r hr hcleanup := by
    obtain ⟨handler, saved, hentries, -⟩ := hn.rescue
    have hentry : n.entries[j]? = some (r.handler, r.kind) := by
      rw [entries, getElem?_map, hr]
      rfl
    rw [hentries, hcleanup] at hentry
    by_cases hj : i = j
    · subst hj
      simp only [getElem?_set, if_true] at hentry
      split at hentry <;> cases hentry
    · rw [getElem?_set_ne hj, entries, getElem?_map] at hentry
      obtain ⟨r₀, hr₀, heq⟩ := Option.map_eq_some_iff.1 hentry
      exact h.kinds j r₀ hr₀ (congrArg Prod.snd heq)

/-- **Blocks stay what they are** while the regions are expanded. -/
theorem Unfolds.next (h : m.Unfolds k) (hm : m.Sound) (hn : k.expandAt i = .ok n) :
    m.Unfolds n := by
  obtain ⟨rfl, -⟩ | ⟨region, hregion, hkind, hn⟩ := expandAt_eq_ok hn
  · exact h
  · exact h.expanded hm hregion hkind (expanded_of_expandCleanup h.grows.sound hregion hn)

/-- A jump into the body of a region is reported at the end of a block that is still as it was. -/
theorem names_leave {index : Nat} {body done : List Nat} {e : Expansion} {ways : List Completion}
    (h : Expansion.Leads k index region body done e ways) (hb : b < k.blocks.length)
    (hnew : b ∉ done)
    (hd : Expansion.leave index region body e b = .error d) : k.Names d.location := by
  have hblock : k.block? b = some k.blocks[b] := List.getElem?_eq_getElem hb
  have hstub : e.method.blockOrStub b = k.blocks[b] := by
    rw [blockOrStub, h.kept b hb hnew, hblock]
    rfl
  rw [(Expansion.error_of_leave hd).1, hstub]
  exact ⟨_, hblock, Nat.le_refl _⟩

/-- A region that cannot be expanded is refused at a position of the method as it is by then. -/
theorem Sound.names_expandAt (h : k.Sound) (hd : k.expandAt i = .error d) : k.Names d.location := by
  unfold expandAt at hd
  split at hd
  · rename_i region hlisted
    split at hd
    · have hregion := h.regions region (mem_of_getElem? hlisted)
      obtain ⟨hne, hbody⟩ := cleanupBody_sound h hregion.handler
      unfold expandCleanup at hd
      dsimp only at hd
      split at hd
      · rename_i b hb
        cases hd
        exact names_of_lt (hbody b (mem_of_find?_eq_some hb))
      · rename_i hfind
        split at hd
        · cases hd
          exact names_of_lt hregion.handler
        · rename_i take htake
          split at hd
          · rename_i d' hfold
            cases hd
            obtain ⟨done, e, b, hb, hnew, ⟨_, hleads⟩, hleave⟩ := foldlM_error_scan hfold
              (by simpa using nodup_toList region.blocks) (Expansion.ledSoFar_start h hlisted)
              (Expansion.ledSoFar_leave h (apart_cleanupBody h hlisted hfind))
            exact names_leave hleads (hregion.covered b hb) hnew hleave
          · cases hd
    · cases hd
  · cases hd

/-! ### The method without cleanup regions -/

/-- **A position in code that was added**: in a block behind those of the method, or at the jump
that follows the store of a returned value in a cleanup region. -/
def Added (m : Method) (at' : Location) : Prop :=
  m.hasCleanup = true ∧
    (m.blocks.length ≤ at'.block ∨
      ∃ b, m.block? at'.block = some b ∧ b.terminator = .ret ∧ at'.offset = b.instrs.length + 1 ∧
        m.Guards at'.block)

theorem Unfolds.names (h : m.Unfolds k) (hm : m.Sound) (hcleanup : m.hasCleanup = true)
    (hat : k.Names at') : m.Names at' ∨ m.Added at' := by
  obtain ⟨block', hb', hoffset⟩ := hat
  rcases Nat.lt_or_ge at'.block m.blocks.length with hlt | hge
  · have hb : m.block? at'.block = some m.blocks[at'.block] := List.getElem?_eq_getElem hlt
    obtain ⟨block, hk, hbecomes⟩ := h.blocks _ _ hb
    rw [hb'] at hk
    cases hk
    cases hbecomes with
    | same hinstrs _ => exact .inl ⟨_, hb, hinstrs ▸ hoffset⟩
    | stores l hguards hret _ hinstrs =>
      rw [hinstrs, length_append, length_singleton] at hoffset
      rcases Nat.le_succ_iff.1 hoffset with hle | heq
      · exact .inl ⟨_, hb, hle⟩
      · refine .inr ⟨hcleanup, .inr ⟨_, hb, hret, heq, ?_⟩⟩
        rw [← hm.ids _ _ hb]
        exact hguards
  · exact .inr ⟨hcleanup, .inl hge⟩

theorem names_of_dropUnreachable (h : k.dropUnreachable.Names at') : k.Names at' := by
  obtain ⟨block, hblock, hoffset⟩ := h
  simp only [dropUnreachable, block?, getElem?_map] at hblock
  obtain ⟨b, hb, rfl⟩ := Option.map_eq_some_iff.1 hblock
  refine ⟨b, hb, Nat.le_trans hoffset ?_⟩
  split
  · exact Nat.le_refl _
  · exact Nat.zero_le _

theorem instrAt?_of_dropUnreachable {i : Instr} (h : k.dropUnreachable.instrAt? at' = some i) :
    k.instrAt? at' = some i := by
  simp only [instrAt?, dropUnreachable, block?, getElem?_map, Option.bind_map] at h ⊢
  obtain ⟨b, hb, hi⟩ := Option.bind_eq_some_iff.1 h
  rw [hb]
  simp only [Function.comp_apply] at hi
  split at hi
  · exact hi
  · simp at hi

/-- A method without cleanup regions is the given one, or comes from one whose regions are
expanded. -/
theorem unfolds_of_withoutCleanup (h : m.Sound) (hn : m.withoutCleanup = .ok n) :
    n = m ∨ (m.hasCleanup = true ∧ ∃ k, m.Unfolds k ∧ n = k.dropUnreachable) := by
  obtain ⟨rfl, -⟩ | ⟨hcleanup, k, hk, rfl⟩ := withoutCleanup_eq_ok hn
  · exact .inl rfl
  · refine .inr ⟨hcleanup, k, ?_, rfl⟩
    exact foldlM_ok_induction hk h.unfolds fun _ _ _ _ hm hm' => hm.next h hm'

/-- **Positions of the method without cleanup regions.** -/
theorem names_of_withoutCleanup (h : m.Sound) (hn : m.withoutCleanup = .ok n)
    (hat : n.Names at') : m.Names at' ∨ m.Added at' := by
  rcases unfolds_of_withoutCleanup h hn with rfl | ⟨hcleanup, k, hk, rfl⟩
  · exact .inl hat
  · exact hk.names h hcleanup (names_of_dropUnreachable hat)

/-- **Positions of regions that cannot be expanded.** -/
theorem names_of_withoutCleanup_error (h : m.Sound) (hd : m.withoutCleanup = .error d) :
    m.Names d.location ∨ m.Added d.location := by
  unfold withoutCleanup at hd
  split at hd
  · rename_i d' ds hstray
    cases hd
    exact .inl (h.names_strayEnd (hstray ▸ mem_cons_self))
  · split at hd
    · rename_i hcleanup
      split at hd
      · rename_i d' hfold
        cases hd
        obtain ⟨-, k, i, -, -, hk, herror⟩ := foldlM_error_scan (P := fun _ k => m.Unfolds k) hfold
          (by rw [nil_append]; exact nodup_range) h.unfolds fun _ _ _ _ _ _ hk hk' => hk.next h hk'
        exact hk.names h hcleanup (hk.grows.sound.names_expandAt herror)
      · cases hd
    · cases hd

/-- **A call in the method without cleanup regions** stands at the same position in the given one,
or in a block that was added and then comes from the given one. -/
theorem invoke_of_withoutCleanup (h : m.Sound) (hn : m.withoutCleanup = .ok n) {c : Callee}
    (hi : n.instrAt? at' = some (.invoke c)) :
    m.instrAt? at' = some (.invoke c) ∨
      (m.hasCleanup = true ∧ m.blocks.length ≤ at'.block ∧
        ∃ b ∈ m.blocks, .invoke c ∈ b.instrs) := by
  rcases unfolds_of_withoutCleanup h hn with rfl | ⟨hcleanup, k, hk, rfl⟩
  · exact .inl hi
  · obtain ⟨block', hb', hi⟩ := Option.bind_eq_some_iff.1 (instrAt?_of_dropUnreachable hi)
    rcases Nat.lt_or_ge at'.block m.blocks.length with hlt | hge
    · have hb : m.block? at'.block = some m.blocks[at'.block] := List.getElem?_eq_getElem hlt
      obtain ⟨block, hk', hbecomes⟩ := hk.blocks _ _ hb
      rw [hb'] at hk'
      cases hk'
      refine .inl (Option.bind_eq_some_iff.2 ⟨_, hb, ?_⟩)
      cases hbecomes with
      | same hinstrs _ =>
        rw [← hinstrs]
        exact hi
      | stores l _ _ _ hinstrs =>
        rw [hinstrs] at hi
        rcases Nat.lt_or_ge at'.offset m.blocks[at'.block].instrs.length with hlt' | hge'
        · rwa [getElem?_append_left hlt'] at hi
        · rw [getElem?_append_right hge'] at hi
          cases mem_singleton.1 (mem_of_getElem? hi)
    · refine .inr ⟨hcleanup, hge, ?_⟩
      rcases hk.grows.instrs block' (mem_of_getElem? hb') _ (mem_of_getElem? hi) with hmove | h
      · cases hmove
      · exact h

end Method

/-! ### Defects of the flow -/

theorem Node.holds_location (n : Node) {j : Nat} (hj : j ≤ n.instrs.length) :
    n.Holds (n.location j) :=
  ⟨rfl, Nat.le_add_right _ _, Nat.add_le_add_left hj _⟩

/-- The places that a computation of edges names: that of the defect, or the sources of the
edges. -/
def Lie (P : Location → Prop) : Except Defect (List Edge) → Prop
  | .error d => P d.location
  | .ok es => ∀ e ∈ es, P e.source

variable {hs : List Nat} {l : Level} {source : Location} {es : List Edge}

theorem source_of_mem_caughtEdges {e : Edge} (h : e ∈ caughtEdges hs l source) :
    e.source = source := by
  obtain ⟨k, -, rfl⟩ := mem_map.1 h
  rfl

theorem lie_throughInstrs (hs : List Nat) (origin offset : Nat) (l : Level) (is : List Instr) :
    Lie (fun at' => ∃ j < is.length, at' = ⟨origin, offset + j⟩)
      ((throughInstrs hs origin offset l is).map Prod.fst) := by
  induction is generalizing offset l with
  | nil => exact fun e he => by cases he
  | cons i is ih =>
    have hhere : ∃ j < (i :: is).length, (⟨origin, offset⟩ : Location) = ⟨origin, offset + j⟩ :=
      ⟨0, Nat.zero_lt_succ _, rfl⟩
    have hlater : ∀ at', (∃ j < is.length, at' = ⟨origin, offset + 1 + j⟩) →
        ∃ j < (i :: is).length, at' = (⟨origin, offset + j⟩ : Location) := by
      rintro at' ⟨j, hj, rfl⟩
      exact ⟨j + 1, Nat.succ_lt_succ hj, by rw [Nat.add_assoc, Nat.add_comm 1]⟩
    rw [throughInstrs]
    split
    · exact hhere
    · rename_i after hafter
      have ih := ih (offset + 1) after
      split
      · rename_i d hd
        rw [hd] at ih
        exact hlater _ ih
      · rename_i es last hes
        rw [hes] at ih
        intro e he
        rcases mem_append.1 he with he | he
        · split at he
          · rw [source_of_mem_caughtEdges he]
            exact hhere
          · cases he
        · exact hlater _ (ih e he)

theorem Terminator.source_edges {t : Terminator} {ret : Ty} (h : t.edges ret hs l source = .ok es) :
    ∀ e ∈ es, e.source = source := by
  unfold edges at h
  split at h
  · cases h
  · cases t with
    | goto target | branch ifTrue ifFalse | switch cases default | unreachable =>
      cases h
      intro e he
      obtain ⟨k, -, rfl⟩ := mem_map.1 he
      rfl
    | raise =>
      cases h
      exact fun e he => source_of_mem_caughtEdges he
    | ret =>
      dsimp only at h
      split at h <;> cases h
      nofun
    | endCleanup => cases h

theorem source_suspendEdges {marker : Callee} {resume : Nat}
    (h : suspendEdges marker resume hs l source = .ok es) : ∀ e ∈ es, e.source = source := by
  obtain ⟨-, rfl⟩ := suspendEdges_eq_ok h
  intro e he
  rcases mem_append.1 he with he | he
  · exact source_of_mem_caughtEdges he
  · rw [mem_singleton.1 he]

/-- The edges of a node start in the node, and its defects lie there. -/
theorem Node.lie_edges (n : Node) (ret : Ty) (hs : List Nat) (l : Level) :
    Lie n.Holds (n.edges ret hs l) := by
  have hexit : n.Holds n.exitLocation := n.holds_location (Nat.le_refl _)
  have hthrough := lie_throughInstrs hs n.origin n.start l n.instrs
  have hin : ∀ at', (∃ j < n.instrs.length, at' = (⟨n.origin, n.start + j⟩ : Location)) →
      n.Holds at' := fun at' ⟨j, hj, heq⟩ => heq ▸ n.holds_location (Nat.le_of_lt hj)
  cases hedges : n.edges ret hs l with
  | ok es =>
    obtain ⟨before, last, after, hbefore, hafter, rfl⟩ := Node.edges_eq_ok_levels hedges
    rw [hbefore] at hthrough
    intro e he
    rcases mem_append.1 he with he | he
    · exact hin _ (hthrough e he)
    · suffices h : e.source = n.exitLocation from h ▸ hexit
      split at hafter
      · exact source_suspendEdges hafter e he
      · exact Terminator.source_edges hafter e he
  | error d =>
    unfold Node.edges at hedges
    split at hedges
    · rename_i d' hd
      cases hedges
      rw [hd] at hthrough
      exact hin _ hthrough
    · dsimp only at hedges
      split at hedges
      · cases hedges
        exact hexit
      · cases hedges

theorem Spread.absorbAll_error {g : Graph} {s : Spread} {d : Defect}
    (h : s.absorbAll g es = .error d) : ∃ e ∈ es, d.location = e.source := by
  induction es generalizing s with
  | nil => cases h
  | cons e es ih =>
    unfold absorbAll at h
    split at h
    · rename_i d' hd
      cases h
      refine ⟨e, mem_cons_self, ?_⟩
      unfold absorb at hd
      split at hd
      · cases hd
      · cases hd
      · split at hd
        · cases hd
        · dsimp only at hd
          split at hd <;> cases hd <;> rfl
    · obtain ⟨e', he', heq⟩ := ih h
      exact ⟨e', mem_cons_of_mem _ he', heq⟩

namespace Graph

variable {g : Graph} {m : Method} {isMarker : String → Bool}

theorem lie_edgesOf (g : Graph) (ret : Ty) (n : Nat) (l : Level) :
    Lie (fun at' => ∃ node ∈ g.nodes, node.Holds at') (g.edgesOf ret n l) := by
  unfold edgesOf
  split
  · rename_i node hnode
    have hmem := mem_of_node? hnode
    have hlie := node.lie_edges ret (g.handlers n) l
    cases hedges : node.edges ret (g.handlers n) l with
    | ok es =>
      rw [hedges] at hlie
      exact fun e he => ⟨node, hmem, hlie e he⟩
    | error d =>
      rw [hedges] at hlie
      exact ⟨node, hmem, hlie⟩
  · nofun

variable {d : Defect}

theorem holds_of_spread {ret : Ty} {levels : List (Option Level)} {queue : List Nat}
    (h : g.spread ret levels queue = .error d) : ∃ node ∈ g.nodes, node.Holds d.location := by
  induction levels, queue using Graph.spread.induct g ret with
  | case1 levels =>
    rw [spread] at h
    cases h
  | case2 levels n rest hnone ih =>
    rw [spread, hnone] at h
    exact ih h
  | case3 levels n rest l hl d' hd =>
    rw [spread, hl] at h
    simp only [hd] at h
    cases h
    have hlie := g.lie_edgesOf ret n l
    rw [hd] at hlie
    exact hlie
  | case4 levels n rest l hl es hes d' hd =>
    rw [spread, hl] at h
    simp only [hes] at h
    split at h
    · rename_i d'' hd'
      cases h
      obtain ⟨e, he, heq⟩ := Spread.absorbAll_error hd'
      have hlie := g.lie_edgesOf ret n l
      rw [hes] at hlie
      exact heq ▸ hlie e he
    · simp_all
  | case5 levels n rest l hl es hes s hs ih =>
    rw [spread, hl] at h
    simp only [hes] at h
    split at h
    · simp_all
    · rename_i s' hs'
      rw [hs] at hs'
      cases hs'
      exact ih h

/-- **A defect of the flow** lies in a node. -/
theorem holds_of_balance {ret : Ty} (h : g.balance ret = .error d) :
    ∃ node ∈ g.nodes, node.Holds d.location :=
  holds_of_spread h

theorem names_of_holds (h : m.Sound) {n : Node} (hn : n ∈ (ofMethod m isMarker).nodes)
    {at' : Location} (hat : n.Holds at') : m.Names at' := by
  obtain ⟨horigin, -, hend⟩ := hat
  obtain ⟨b, hb, hpiece⟩ := pieceOf h hn
  refine ⟨b, horigin ▸ hb, ?_⟩
  obtain ⟨rest, hrest⟩ := hpiece.drop_eq
  have hlength := congrArg List.length hrest
  rw [length_drop, length_append] at hlength
  have hstart := hpiece.start_le
  omega

theorem holds_of_unentered {reached : IdSet} {blocks : Nat}
    (h : d ∈ g.unenteredDefects reached blocks) : ∃ node ∈ g.nodes, node.Holds d.location := by
  obtain ⟨n, hn, hd⟩ := mem_filterMap.1 h
  split at hd
  · cases hd
    exact ⟨n, hn, n.holds_location (Nat.le_refl _)⟩
  · cases hd

end Graph

/-! ### Points -/

theorem lt_of_producerIndex? {depth j : Nat} {is : List Instr}
    (h : producerIndex? depth is = some j) : j < is.length := by
  induction is generalizing depth with
  | nil => cases h
  | cons i is ih =>
    rw [producerIndex?] at h
    split at h
    · cases h
      exact Nat.lt_succ_self _
    · exact Nat.lt_succ_of_lt (ih h)

theorem Node.location_of_producer? {n : Node} {at' : Location} (h : n.producer? = some at') :
    ∃ j < n.instrs.length, at' = n.location j := by
  obtain ⟨j, hj, rfl⟩ := Option.map_eq_some_iff.1 h
  have hlt := lt_of_producerIndex? hj
  rw [length_reverse] at hlt
  exact ⟨j, hlt, rfl⟩

theorem Graph.producer_of_mem_suspensionsAlong {g : Graph} {m : Method} {r : IdSet} {a : Liveness}
    {index : Nat} {ns : List Nat} {q : Suspension} (h : q ∈ g.suspensionsAlong m r a index ns) :
    ∃ n ∈ g.nodes, ∃ c, n.exit = .suspend c q.resume ∧ q.location = n.exitLocation ∧
      q.producer = n.producer? := by
  induction ns generalizing index with
  | nil => cases h
  | cons k ns ih =>
    rw [suspensionsAlong] at h
    split at h
    · rename_i p hp
      rcases mem_cons.1 h with rfl | h
      · unfold suspensionAt? at hp
        split at hp
        · cases hp
        · rename_i n hn
          split at hp
          · cases hp
          · rename_i c resume hexit
            cases hp
            exact ⟨n, mem_of_node? hn, c, hexit, rfl, rfl⟩
      · exact ih h
    · exact ih h

namespace Method

variable {m n : Method} {o : Options} {d : Defect}

/-! ### Conversions -/

/-- **Where the analysis of a method fails.** -/
theorem names_of_analyze_error (h : m.Sound) (hd : m.analyze o = .error d) :
    m.Names d.location ∨ m.Added d.location := by
  rcases bind_eq_error hd with hd | ⟨-, -, hd⟩
  · exact .inl (h.names_check hd)
  · rcases bind_eq_error hd with hd | ⟨n, hn, hd⟩
    · exact names_of_withoutCleanup_error h hd
    · have hsound := (grows_withoutCleanup h hn).sound
      suffices hnode : ∃ node ∈ (Graph.ofMethod n o.isMarker).nodes, node.Holds d.location by
        obtain ⟨node, hmem, hholds⟩ := hnode
        exact names_of_withoutCleanup h hn (Graph.names_of_holds hsound hmem hholds)
      rcases bind_eq_error hd with hd | ⟨levels, -, hd⟩
      · exact Graph.holds_of_balance hd
      · rcases bind_eq_error hd with hd | ⟨-, -, hd⟩
        · exact Graph.holds_of_unentered (mem_of_report hd)
        · cases hd

/-- A point in the method without cleanup regions: its marker call and its producer. -/
theorem exists_marker_of_point (h : n.Sound) {r : IdSet} {a : Liveness} {q : Suspension}
    (hq : q ∈ (Graph.ofMethod n o.isMarker).suspensions n r a) :
    ∃ c, o.isMarker c.name = true ∧ n.instrAt? q.location = some (.invoke c) ∧
      ∀ at', q.producer = some at' →
        at'.block = q.location.block ∧ at'.offset < q.location.offset := by
  obtain ⟨node, hnode, c, hexit, hlocation, hproducer⟩ := Graph.producer_of_mem_suspensionsAlong hq
  obtain ⟨b, hb, hpiece⟩ := Graph.pieceOf h hnode
  obtain ⟨hmarker, hinvoke, -⟩ := hpiece.of_suspend hexit
  refine ⟨c, hmarker, ?_, fun at' hat => ?_⟩
  · rw [hlocation]
    exact Option.bind_eq_some_iff.2 ⟨b, hb, hinvoke⟩
  · rw [hproducer] at hat
    obtain ⟨j, hj, rfl⟩ := Node.location_of_producer? hat
    rw [hlocation]
    exact ⟨rfl, Nat.add_lt_add_left hj _⟩

/-- **Positions of defects and of suspension points.**  Let the references of a method be in order.
If its conversion fails, the defect lies at a position of the method or in code that the expansion
of cleanup regions adds.  If it succeeds, a point is the position of a marker call of the method,
and its producer that of an instruction; or the point lies in a block behind those of the method,
together with its producer, and the marker call is a copy of one in the method. -/
theorem positions_of_convert (h : m.referenceDefects = []) (cls : String) (o : Options) :
    (∀ r, m.convert cls o = .error r → m.Names r.location ∨ m.Added r.location) ∧
      ∀ pair, m.convert cls o = .ok (.converted pair) → ∀ q ∈ pair.points,
        ∃ c, o.isMarker c.name = true ∧
          ((m.instrAt? q.location = some (.invoke c) ∧
              ∀ at', q.producer = some at' → ∃ i, m.instrAt? at' = some i) ∨
            (m.hasCleanup = true ∧ m.blocks.length ≤ q.location.block ∧
              (∃ b ∈ m.blocks, .invoke c ∈ b.instrs) ∧
              ∀ at', q.producer = some at' → at'.block = q.location.block)) := by
  have hsound := referenceDefects_eq_nil_iff.1 h
  refine ⟨fun r hr => ?_, fun pair hpair q hq => ?_⟩
  · rw [convert] at hr
    split at hr
    · split at hr
      · cases hr
      · rename_i d hd
        cases hr
        exact names_of_analyze_error hsound hd
    · cases hr
  · obtain ⟨a, n, ha, rfl, hn⟩ := m.exists_analysis hpair
    obtain ⟨-, -, rfl, hmade⟩ := made_of_analyze ha hn (o.dispatcherName m.name)
    have hpoint : q ∈ (a.plan (o.dispatcherName m.name)).points := hq
    rw [hmade.points, hmade.graph] at hpoint
    obtain ⟨c, hmarker, hinvoke, hproducer⟩ := exists_marker_of_point hmade.sound hpoint
    refine ⟨c, hmarker, ?_⟩
    rcases invoke_of_withoutCleanup hsound hn hinvoke with hm | ⟨hcleanup, hge, hcopy⟩
    · refine .inl ⟨hm, fun at' hat => ?_⟩
      obtain ⟨hblock, hlt⟩ := hproducer at' hat
      -- The producer stands before the call, in the same block.
      obtain ⟨b, hb, hi⟩ := Option.bind_eq_some_iff.1 hm
      have hoffset := Nat.lt_trans hlt (List.getElem?_eq_some_iff.1 hi).1
      refine ⟨b.instrs[at'.offset], ?_⟩
      rw [instrAt?, hblock, hb]
      exact List.getElem?_eq_getElem hoffset
    · exact .inr ⟨hcleanup, hge, hcopy, fun at' hat => (hproducer at' hat).1⟩

/-- A cleanup body that takes one operand too many. -/
def cleanupPopsTwice : Method where
  name := "m"
  params := [⟨0, some "f", .future, true⟩]
  ret := .void
  locals := [⟨0, some "f", .future, true⟩]
  blocks :=
    [⟨0, [.load 0, .invoke ⟨"Await.await", 1, .int⟩, .pop], .goto 1⟩,
      ⟨1, [], .ret⟩,
      ⟨2, [.pop, .pop], .endCleanup⟩]
  entry := 0
  regions := [⟨0, IdSet.ofList [0], 2, .cleanup⟩]

/-- A cleanup body that waits for a future. -/
def cleanupAwaits : Method :=
  { cleanupPopsTwice with
    blocks :=
      [⟨0, [.load 0, .invoke ⟨"Await.await", 1, .int⟩, .pop], .goto 1⟩,
        ⟨1, [], .ret⟩,
        ⟨2, [.pop, .load 0, .invoke ⟨"Await.await", 1, .int⟩, .pop], .endCleanup⟩] }

namespace cleanupAwaits

/-- What the method is converted to. -/
def pair : Conversion.Pair :=
  match cleanupAwaits.convert "C" {} with
  | .ok (.converted pair) => pair
  | _ => default

theorem convert_eq : cleanupAwaits.convert "C" {} = .ok (.converted pair) := by decide +kernel

end cleanupAwaits

/-- The points of the method whose cleanup body waits. -/
theorem positions_cleanupAwaits :
    cleanupAwaits.referenceDefects = [] ∧
      cleanupAwaits.convert "C" {} = .ok (.converted cleanupAwaits.pair) ∧
      ∀ q ∈ cleanupAwaits.pair.points, ∃ c, Options.isMarker {} c.name = true ∧
        ((cleanupAwaits.instrAt? q.location = some (.invoke c) ∧
            ∀ at', q.producer = some at' → ∃ i, cleanupAwaits.instrAt? at' = some i) ∨
          (cleanupAwaits.hasCleanup = true ∧ cleanupAwaits.blocks.length ≤ q.location.block ∧
            (∃ b ∈ cleanupAwaits.blocks, .invoke c ∈ b.instrs) ∧
            ∀ at', q.producer = some at' → at'.block = q.location.block)) := by
  have href : cleanupAwaits.referenceDefects = [] := by decide +kernel
  have hconvert := cleanupAwaits.convert_eq
  exact ⟨href, hconvert, (positions_of_convert href "C" {}).2 _ hconvert⟩

/-- **Positions that the method does not have.**  Where the cleanup body takes an operand too many,
the defect is reported in the copy of the body for the way out of block 0, which is block 4 of
three; where it waits, there is a point in every copy of the body. -/
theorem exists_position_in_copy :
    (∃ m : Method, m.referenceDefects = [] ∧ ∃ r, m.convert "C" {} = .error r ∧
      r.location = ⟨4, 0⟩ ∧ ¬ m.Names r.location) ∧
    ∃ m : Method, m.referenceDefects = [] ∧ ∃ pair, m.convert "C" {} = .ok (.converted pair) ∧
      ∃ q ∈ pair.points, m.instrAt? q.location = none := by
  refine ⟨⟨cleanupPopsTwice, by decide +kernel,
      ⟨"C.m", ⟨4, 0⟩, .underflow "pop"⟩, by decide +kernel, rfl, ?_⟩,
    cleanupAwaits, by decide +kernel, _, cleanupAwaits.convert_eq, by decide +kernel⟩
  rintro ⟨b, hb, -⟩
  cases hb

end Method

end Resumable
