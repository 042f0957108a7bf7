/-
**Expanding a cleanup region keeps its meaning.**

A method with its first cleanup region expanded shows the same as the method itself, both run by the
interpreter with cleanup regions.  The two run in step: one step of the method is one or more of the
expansion, which also saves and loads what the method keeps as a waiting completion.

Main results:

* `Stage.simulates` — **the expansion simulates the method**.
-/

import Resumable.Proofs.CleanupPlaces

set_option autoImplicit false

namespace Resumable

open List

/-! ### Runs of the interpreter with cleanup regions -/

namespace Cleaning

variable {p : Program} {s : Store} {a : Activation} {ps : List Pending} {k : Block}

theorem execute_instr {i : Instr} (hk : a.method.block? a.block = some k)
    (hi : k.instrs[a.offset]? = some i) : execute p s a ps = act p a ps (a.exec s i) := by
  simp only [execute, hk, hi]

theorem execute_end (hk : a.method.block? a.block = some k) (hi : k.instrs[a.offset]? = none) :
    execute p s a ps = depart p s a k.terminator ps := by
  simp only [execute, hk, hi]

theorem execute_load {l : Nat} {v : Value} (hk : a.method.block? a.block = some k)
    (hi : k.instrs[a.offset]? = some (.load l)) (hv : a.locals.get l = v) :
    execute p s a ps = ⟨⟨s, .exec (a.advance (v :: a.stack)), []⟩, ps⟩ := by
  rw [execute_instr hk hi]
  simp only [Activation.exec, act, Machine.act, hv]

theorem step_exec : (play p).step ⟨⟨s, .exec a, []⟩, ps⟩ = execute p s a ps := rfl

theorem sight_exec : (play p).sight ⟨⟨s, .exec a, []⟩, ps⟩ = none := rfl

theorem quietly_one {y : Cleaning} (h : execute p s a ps = y) :
    (play p).Quietly ⟨⟨s, .exec a, []⟩, ps⟩ y :=
  h ▸ .one sight_exec

theorem quietly_more {b : Activation} {s' : Store} {ps' : List Pending} {y : Cleaning}
    (h : execute p s a ps = ⟨⟨s', .exec b, []⟩, ps'⟩)
    (hy : (play p).Quietly ⟨⟨s', .exec b, []⟩, ps'⟩ y) :
    (play p).Quietly ⟨⟨s, .exec a, []⟩, ps⟩ y :=
  .more sight_exec (by rw [step_exec, h]; exact hy)

end Cleaning

/-! ### Activations that correspond -/

/-- Activations of the two methods, at whatever places. -/
structure Kin (m n : Method) (a a' : Activation) : Prop where
  source : a.method = m
  target : a'.method = n
  monitors : a'.monitors = a.monitors
  depth : a'.depth = a.depth

/-- **Activations that correspond.** -/
structure Beside (m n : Method) (index : Nat) (region : Region) (a : Activation) (ps : List Pending)
    (a' : Activation) (ps' : List Pending) : Prop extends Kin m n a a' where
  stack : a'.stack = a.stack
  locals : ∀ l ∈ m.localIds, a'.locals.get l = a.locals.get l
  place : Place m n index region a'.locals a.block a.offset a'.block a'.offset ps ps'
  bound : ∃ k, m.block? a.block = some k ∧ a.offset ≤ k.instrs.length

/-- **Machines that correspond.** -/
inductive Match (m n : Method) (index : Nat) (region : Region) : Cleaning → Cleaning → Prop where
  | runs {s : Store} {a a' : Activation} {ps ps' : List Pending} :
      Beside m n index region a ps a' ps' →
      Match m n index region ⟨⟨s, .exec a, []⟩, ps⟩ ⟨⟨s, .exec a', []⟩, ps'⟩
  /-- The expanded region took an exception. -/
  | caught {s : Store} {a a' : Activation} {ps ps' : List Pending} {e : Value}
      {handler saved : Nat} :
      Kin m n a a' → (∀ l ∈ m.localIds, a'.locals.get l = a.locals.get l) →
      m.Rescues n region handler saved →
      Match m n index region ⟨⟨s, .exec (a.handle region.handler e), []⟩, .rethrow e :: ps⟩
        ⟨⟨s, .exec (a'.handle handler e), []⟩, ps'⟩
  | waits {s : Store} {c : Control} {a a' : Activation} {keep : Bool} {ps ps' : List Pending} :
      Beside m n index region a ps a' ps' →
      (∃ k, m.block? a.block = some k ∧ a.offset < k.instrs.length) →
      Match m n index region ⟨⟨s, c, [.caller a keep]⟩, ps⟩ ⟨⟨s, c, [.caller a' keep]⟩, ps'⟩
  | returns {s : Store} {v : Value} {ps ps' : List Pending} :
      Match m n index region ⟨⟨s, .answer v, []⟩, ps⟩ ⟨⟨s, .answer v, []⟩, ps'⟩
  | unwinds {s : Store} {u u' : Unwind} {ps ps' : List Pending} : u'.unplaced = u.unplaced →
      Match m n index region ⟨⟨s, .unwind u, []⟩, ps⟩ ⟨⟨s, .unwind u', []⟩, ps'⟩

section Stage

variable {m n : Method} {index : Nat} {region : Region} {a a' : Activation}
  {ps ps' qs qs' : List Pending} {b o base copy : Nat} {c : Completion} {q : Pending} {k : Block}

theorem Beside.move (h : Beside m n index region a ps a' ps') {b' o' : Nat}
    (hplace : Place m n index region a'.locals b o b' o' qs qs')
    (hbound : ∃ k, m.block? b = some k ∧ o ≤ k.instrs.length) (stack : List Value) :
    Beside m n index region { a with stack := stack, block := b, offset := o } qs
      { a' with stack := stack, block := b', offset := o' } qs' :=
  ⟨⟨h.source, h.target, h.monitors, h.depth⟩, rfl, h.locals, hplace, hbound⟩

theorem Method.exists_block (hb : b < m.blocks.length) :
    ∃ k, m.block? b = some k ∧ 0 ≤ k.instrs.length :=
  ⟨_, List.getElem?_eq_getElem hb, Nat.zero_le _⟩

variable (hst : Stage m n index region)
include hst

theorem Stage.exists_handler {k : Nat} {r : Region} (hr : m.regions[k]? = some r)
    (hkind : r.kind = .cleanup) :
    ∃ k, m.block? r.handler = some k ∧ 1 ≤ k.instrs.length := by
  have hmem := mem_of_getElem? hr
  have hlt := (hst.orderly.sound.regions r hmem).handler
  have hk : m.block? r.handler = some (m.blocks[r.handler]) := List.getElem?_eq_getElem hlt
  have htakes := hst.orderly.takes r hmem hkind
  rw [Method.blockOrStub_of_block? hk] at htakes
  exact ⟨_, hk, length_pos_iff.2 htakes⟩

/-- **An exception** leads to machines that correspond. -/
theorem Stage.raise (h : Beside m n index region a ps a' ps') (p : Program) (s : Store) (e : Value)
    (qs qs' : List Pending) :
    Match m n index region (Cleaning.raise p s a e qs) (Cleaning.raise p s a' e qs') := by
  unfold Cleaning.raise
  rw [h.source, h.target]
  rcases hst.taking (hst.covers h.place) p e with ⟨hm, hn⟩ |
    ⟨handler, saved, r', hrescues, hm, hn, hhandler, hkind⟩ |
    ⟨k, r, r', hr, hlater, hm, hn, hhandler, hkind⟩
  · rw [hm, hn]
    exact .unwinds rfl
  · rw [hm, hn]
    simp only [hst.kind, if_true, hhandler, hkind, reduceCtorEq, if_false]
    exact .caught h.toKin h.locals hrescues
  · rw [hm, hn]
    simp only [hhandler, hkind]
    have hmem := mem_of_getElem? hr
    have hbound := Method.exists_block (hst.orderly.sound.regions r hmem).handler
    by_cases hcleanup : r.kind = .cleanup
    · simp only [hcleanup, if_true]
      refine .runs (h.move (.ends ⟨k, r, hlater hcleanup, hr, hcleanup, ?_⟩ (by simp)) hbound _)
      exact m.mem_cleanupBody_self _
    · simp only [hcleanup, if_false]
      refine .runs (h.move (.outside ⟨r.handler, .inr ⟨r, hmem, hcleanup, rfl⟩, ?_⟩) hbound _)
      exact m.mem_cleanupBody_self _

/-- **A jump** that does not leave the expanded region leads to machines that correspond. -/
theorem Stage.go (h : Beside m n index region a ps a' ps') (s : Store) {t t' : Nat}
    (hplace : Place m n index region a'.locals t 0 t' 0 qs qs') (ht : t < m.blocks.length)
    (hstay : a.block ∈ region.blocks → t ∈ region.blocks) (stack : List Value) :
    Match m n index region (Cleaning.go s a t stack qs) (Cleaning.go s a' t' stack qs') := by
  unfold Cleaning.go
  rw [h.source, h.target]
  rcases hst.leaving (hst.covers h.place) (hst.covers hplace) hstay with ⟨hm, hn⟩ |
    ⟨k, r, r', hlater, hr, hkind, hm, hn, hhandler⟩
  · rw [hm, hn]
    exact .runs (h.move hplace (Method.exists_block ht) stack)
  · rw [hm, hn]
    simp only [Activation.clean, hhandler]
    refine .runs (h.move (.jumps ⟨k, r, hlater, hr, hkind, ?_⟩ hplace)
      (hst.exists_handler hr hkind) stack)
    exact m.mem_cleanupBody_self _

/-- **A return** from outside the expanded region leads to machines that correspond. -/
theorem Stage.finish (h : Beside m n index region a ps a' ps') (s : Store)
    (hout : a.block ∉ region.blocks) (v : Value) (stack : List Value) (qs qs' : List Pending) :
    Match m n index region (Cleaning.finish s a v stack qs) (Cleaning.finish s a' v stack qs') := by
  unfold Cleaning.finish
  rw [h.source, h.target]
  rcases hst.guarding (hst.covers h.place) hout with ⟨hm, hn⟩ |
    ⟨k, r, r', hlater, hr, hkind, hm, hn, hhandler⟩
  · rw [hm, hn]
    exact .returns
  · rw [hm, hn]
    simp only [Activation.clean, hhandler]
    refine .runs (h.move (.ends ⟨k, r, hlater, hr, hkind, ?_⟩ (by simp))
      (hst.exists_handler hr hkind) stack)
    exact m.mem_cleanupBody_self _

/-- **A copy is entered** where the body is. -/
theorem Stage.enters {ls : Locals} (h : Kin m n a a') (s : Store)
    (hcopy : m.HasCopy n (m.cleanupBody region.handler) base c) (hcompletes : Completes m ls c q)
    (hls : ∀ l ∈ m.localIds, ls.get l = a.locals.get l)
    (hnext : ∀ t, q = .jump t → Place m n index region ls t 0 t 0 qs qs') (stack : List Value) :
    Match m n index region ⟨⟨s, .exec (a.clean region stack), []⟩, q :: qs⟩
      ⟨⟨s, .exec { a' with locals := ls, stack := stack, block := base, offset := 0 }, []⟩,
        qs'⟩ := by
  have hplace := Place.copy (o := 0) (m.cleanupBody_head region.handler) hcopy hcompletes hnext
  exact .runs ⟨⟨h.source, h.target, h.monitors, h.depth⟩, rfl, hls, hplace,
    hst.exists_handler hst.listed hst.kind⟩


/-! ### Instructions -/

omit hst in
/-- A block of the method in its place in the expansion: the block of the same number, with its ways
out led through copies if it lies in the region. -/
theorem Method.Expanded.same_block (h : m.Expanded index region n) (hk : m.block? b = some k) :
    (k.terminator = .ret ∧ b ∈ region.blocks ∧ ∃ saved copy,
      m.HasReturn n (m.cleanupBody region.handler) saved copy ∧ n.block? b = some { k with
        instrs := k.instrs ++ (saved.map Instr.store).toList, terminator := .goto copy }) ∨
    ((k.terminator = .ret → b ∉ region.blocks) ∧ ∃ route : Nat → Nat,
      n.block? b = some { k with terminator := k.terminator.mapTargets route } ∧
      ∀ t ∈ k.terminator.successors, ((b ∈ region.blocks → t ∈ region.blocks) → route t = t) ∧
        (b ∈ region.blocks → t ∉ region.blocks →
          m.HasCopy n (m.cleanupBody region.handler) (route t) (.jump t))) := by
  have hlt := (List.getElem?_eq_some_iff.1 hk).1
  by_cases hb : b ∈ region.blocks
  · cases h.led b hb with
    | ret hk' hret hreturn hblock =>
      cases hk.symm.trans hk'
      exact .inl ⟨hret, hb, _, _, hreturn, hblock⟩
    | jumps hk' hret hin hout hblock =>
      cases hk.symm.trans hk'
      exact .inr ⟨fun hk => absurd hk hret, _, hblock, fun t ht =>
        ⟨fun hstay => hin t ht (hstay hb), fun _ hleave => hout t ht hleave⟩⟩
  · refine .inr ⟨fun _ => hb, id, ?_, fun t _ => ⟨fun _ => rfl, fun hin => absurd hin hb⟩⟩
    rw [Terminator.mapTargets_id]
    exact (h.kept b hlt hb).trans hk

omit hst in
theorem copiedBlock_getElem? {body : List Nat} {j : Nat} (hk : m.block? b = some k)
    (ho : o + skipped j < k.instrs.length) :
    (m.copiedBlock body base c j b).instrs[o]? = k.instrs[o + skipped j]? := by
  have hkept : (if j = 0 then k.instrs.drop 1 else k.instrs)[o]? = k.instrs[o + skipped j]? := by
    by_cases hj : j = 0
    · simp [hj, skipped]
    · simp [hj, skipped]
  have hlt : o < (if j = 0 then k.instrs.drop 1 else k.instrs).length := by
    rw [List.getElem?_eq_getElem ho] at hkept
    exact (List.getElem?_eq_some_iff.1 hkept).1
  unfold Method.copiedBlock
  simp only [Method.blockOrStub_of_block? hk]
  split
  · rw [getElem?_append_left hlt]
    exact hkept
  · exact hkept

/-- The current instruction is the same in both activations. -/
theorem Stage.instr (h : Beside m n index region a ps a' ps') {i : Instr}
    (hk : m.block? a.block = some k) (hi : k.instrs[a.offset]? = some i) :
    ∃ k', n.block? a'.block = some k' ∧ k'.instrs[a'.offset]? = some i := by
  have hlt := (List.getElem?_eq_some_iff.1 hi).1
  have same : a'.block = a.block → a'.offset = a.offset →
      ∃ k', n.block? a'.block = some k' ∧ k'.instrs[a'.offset]? = some i := by
    intro hblock hoffset
    rw [hblock, hoffset]
    rcases hst.expanded.same_block hk with ⟨-, -, saved, copy, -, hn⟩ | ⟨-, route, hn, -⟩
    · exact ⟨_, hn, (getElem?_append_left hlt).trans hi⟩
    · exact ⟨_, hn, hi⟩
  have hplace := h.place
  generalize hb : a.block = b, ho : a.offset = o, hb' : a'.block = b', ho' : a'.offset = o' at *
  cases hplace with
  | outside _ => exact same rfl rfl
  | jumps _ _ => exact same rfl rfl
  | ends _ _ => exact same rfl rfl
  | copy hj hcopy _ _ =>
    exact ⟨_, hcopy.blocks _ _ hj, (copiedBlock_getElem? hk hlt).trans hi⟩

theorem Stage.name (h : Beside m n index region a ps a' ps') : a'.method.name = a.method.name := by
  rw [h.source, h.target, hst.expanded.grows.name]

/-- **One instruction** leads to machines that correspond. -/
theorem Stage.act (h : Beside m n index region a ps a' ps') (p : Program) (s : Store) {i : Instr}
    (hk : m.block? a.block = some k) (hi : k.instrs[a.offset]? = some i) :
    Match m n index region (Cleaning.act p a ps (a.exec s i))
      (Cleaning.act p a' ps' (a'.exec s i)) := by
  have hlt := (List.getElem?_eq_some_iff.1 hi).1
  have hdeclared := (hst.orderly.sound.blocks k (mem_of_getElem? hk)).declared i
    (mem_of_getElem? hi)
  obtain ⟨t, x, y, hx, hy, htracks⟩ := Activation.tracks_exec a a' (Instr.mapLocals_id i).symm s
    h.stack h.monitors h.depth fun l hl => h.locals l (hdeclared l (.inl hl))
  rw [hx, hy]
  cases htracks with
  | next v stack monitors =>
    refine .runs ⟨⟨h.source, h.target, rfl, h.depth⟩, rfl, ?_, ?_, ⟨k, hk, hlt⟩⟩
    · intro l hl
      simp only [Locals.get_write, h.locals l hl]
    · refine (h.place.shift 1).mono fun l hl => ?_
      rw [Locals.get_write, if_neg]
      exact fun hd => hl (hdeclared l (.inr hd))
  | throw e _ => exact hst.raise h p t e ps ps'
  | fault f hf => exact .unwinds (hf.unplaced (hst.name h) _ _)
  | errand he he' =>
    rw [Cleaning.act_waits he, Cleaning.act_waits he']
    exact .waits ⟨⟨h.source, h.target, h.monitors, h.depth⟩, rfl, h.locals, h.place, h.bound⟩
      ⟨k, hk, hlt⟩

/-! ### The ends of blocks -/

theorem Stage.lt_of_place {ls : Locals} {b' o' : Nat}
    (h : Place m n index region ls b o b' o' ps ps') : b < m.blocks.length := by
  cases h with
  | outside hb => exact hb.lt hst.orderly
  | jumps hb _ | ends hb _ => exact hb.lt hst.orderly
  | copy hj _ _ _ =>
    have hregion := hst.orderly.sound.regions region (mem_of_getElem? hst.listed)
    exact (Method.cleanupBody_sound hst.orderly.sound hregion.handler).2 _ (mem_of_getElem? hj)

/-- **A terminator** that is not the end of a body leads to machines that correspond if its jumps
do. -/
theorem Stage.depart (h : Beside m n index region a ps a' ps') (p : Program) (s : Store)
    {t : Terminator} {route : Nat → Nat} (hend : t ≠ .endCleanup)
    (hret : t = .ret → a.block ∉ region.blocks)
    (hgo : ∀ u ∈ t.successors, ∀ stack, Match m n index region (Cleaning.go s a u stack ps)
      (Cleaning.go s a' (route u) stack ps')) :
    Match m n index region (Cleaning.depart p s a t ps)
      (Cleaning.depart p s a' (t.mapTargets route) ps') := by
  have hend' : t.mapTargets route ≠ .endCleanup := by
    cases t <;> simp_all [Terminator.mapTargets]
  have hretTy : a'.method.ret = a.method.ret := by
    rw [h.source, h.target, hst.expanded.grows.ret]
  have hparts := Activation.parts_leave (ρ := .id) (a := a) (b := a') route t (by simp [h.stack])
    fun _ => hretTy
  unfold Cleaning.depart
  rw [if_neg hend, if_neg hend']
  generalize a.leave t = d at *
  generalize a'.leave (t.mapTargets route) = d' at *
  cases hparts with
  | jump u stack hu =>
    simp only [Value.map_rename_id]
    exact hgo u hu stack
  | ret v ht =>
    simp only [Value.rename_id, hretTy, h.stack]
    exact hst.finish h s (hret ht) v _ ps ps'
  | throw e _ =>
    simp only [Value.rename_id]
    exact hst.raise h p s e ps ps'
  | fault f hf => exact .unwinds (hf.unplaced (hst.name h) _ _)

/-- A block of the expanded region leads to a copy without leaving a cleanup region. -/
theorem Stage.leaving_led (h : Beside m n index region a ps a' ps') (hblock : a'.block = a.block)
    (hregion : a.block ∈ region.blocks)
    (hcopy : m.HasCopy n (m.cleanupBody region.handler) base c) :
    n.leaving? a.block base = none :=
  hst.leaving_copy hcopy fun i hi =>
    .inr ⟨(hst.covers h.place i).1 (hblock ▸ hi), hregion, hst.used h.place⟩

/-- A return without a value that leaves the expanded region. -/
theorem Stage.quiet_return_void (h : Beside m n index region a ps a' ps') (p : Program) (s : Store)
    (hlen : a'.offset = k.instrs.length) (hblock : a'.block = a.block)
    (hregion : a.block ∈ region.blocks)
    (hreturn : m.HasReturn n (m.cleanupBody region.handler) none copy)
    (hk' : a'.method.block? a'.block = some { k with terminator := .goto copy }) :
    ∃ y, (Cleaning.play p).Quietly ⟨⟨s, .exec a', []⟩, ps'⟩ y ∧
      Match m n index region (Cleaning.depart p s a .ret ps) y := by
  have hvoid := hreturn.saves.1 rfl
  have hdepart : Cleaning.depart p s a .ret ps =
      ⟨⟨s, .exec (a.clean region a.stack), []⟩, .ret .null :: ps⟩ := by
    simp only [Cleaning.depart, reduceCtorEq, if_false, Activation.leave, h.source, hvoid, if_true,
      Cleaning.finish, hst.guarding_region hregion]
  have hlast : Cleaning.execute p s a' ps' = ⟨⟨s, .exec { a' with
      stack := a.stack, block := copy, offset := 0 }, []⟩, ps'⟩ := by
    rw [Cleaning.execute_end hk' (by simp [hlen])]
    simp only [Cleaning.depart, reduceCtorEq, if_false, Activation.leave, Cleaning.go, h.target,
      hblock, hst.leaving_led h hblock hregion hreturn.copy, Activation.jump, h.stack]
  have hcompletes : Completes m a'.locals (.ret none) (.ret .null) :=
    ⟨hreturn.saves, fun _ => rfl, fun l hl => by cases hl⟩
  rw [hdepart]
  exact ⟨_, Cleaning.quietly_one hlast,
    hst.enters h.toKin s hreturn.copy hcompletes h.locals (fun t ht => by cases ht) a.stack⟩

/-- A return with a value that leaves the expanded region: the value is saved. -/
theorem Stage.quiet_return_saved (h : Beside m n index region a ps a' ps') (p : Program) (s : Store)
    (hlen : a'.offset = k.instrs.length) (hblock : a'.block = a.block)
    (hregion : a.block ∈ region.blocks) {l : Nat}
    (hreturn : m.HasReturn n (m.cleanupBody region.handler) (some l) copy)
    (hk' : a'.method.block? a'.block = some { k with
      instrs := k.instrs ++ [.store l], terminator := .goto copy }) :
    ∃ y, (Cleaning.play p).Quietly ⟨⟨s, .exec a', []⟩, ps'⟩ y ∧
      Match m n index region (Cleaning.depart p s a .ret ps) y := by
  have hvoid : m.ret.isVoid = false := by
    cases hv : m.ret.isVoid with
    | false => rfl
    | true => cases hreturn.saves.2 hv
  have hfresh := hreturn.fresh l rfl
  have hstore : (k.instrs ++ [Instr.store l])[a'.offset]? = some (.store l) := by simp [hlen]
  simp only [Cleaning.depart, reduceCtorEq, if_false, Activation.leave, h.source, hvoid,
    Bool.false_eq_true]
  cases hstack : a.stack with
  | nil =>
    refine ⟨_, Cleaning.quietly_one (Cleaning.execute_instr hk' hstore), ?_⟩
    simp only [Activation.exec, h.stack, hstack]
    refine .unwinds ?_
    simp [Unwind.unplaced, Activation.underflow, Fault.unplaced, h.source, h.target,
      hst.expanded.grows.name]
  | cons v rest =>
    simp only [Cleaning.finish, h.source, hst.guarding_region hregion, tail_cons]
    have hcompletes : Completes m (a'.locals.set l v) (.ret (some l)) (.ret v) :=
      ⟨hreturn.saves, fun hs => (by cases hs), fun l' hl' => (by
        cases hl'
        exact ⟨hfresh, by simp [Locals.get_set]⟩)⟩
    have hlocals : ∀ l' ∈ m.localIds, (a'.locals.set l v).get l' = a.locals.get l' := by
      intro l' hl'
      have hne : l' ≠ l := by
        rintro rfl
        exact hfresh hl'
      rw [Locals.get_set, if_neg hne]
      exact h.locals l' hl'
    have hfirst : Cleaning.execute p s a' ps' = ⟨⟨s, .exec { a' with
        locals := a'.locals.set l v, stack := rest, offset := a'.offset + 1 }, []⟩, ps'⟩ := by
      rw [Cleaning.execute_instr hk' hstore]
      simp only [Activation.exec, h.stack, hstack]
      rfl
    have hlast : Cleaning.execute p s { a' with
        locals := a'.locals.set l v, stack := rest, offset := a'.offset + 1 } ps' =
        ⟨⟨s, .exec { a' with
          locals := a'.locals.set l v, stack := rest, block := copy, offset := 0 }, []⟩, ps'⟩ := by
      refine (Cleaning.execute_end (a := { a' with
        locals := a'.locals.set l v, stack := rest, offset := a'.offset + 1 }) hk'
        (by simp [hlen])).trans ?_
      simp only [Cleaning.depart, reduceCtorEq, if_false, Activation.leave, Cleaning.go, h.target,
        hblock, hst.leaving_led h hblock hregion hreturn.copy, Activation.jump]
    exact ⟨_, Cleaning.quietly_more hfirst (Cleaning.quietly_one hlast),
      hst.enters h.toKin s hreturn.copy hcompletes hlocals (fun t ht => by cases ht) rest⟩

/-- **A return that leaves the expanded region.** -/
theorem Stage.quiet_return (h : Beside m n index region a ps a' ps') (p : Program) (s : Store)
    (hlen : a'.offset = k.instrs.length) (hblock : a'.block = a.block)
    (hregion : a.block ∈ region.blocks) {saved : Option Nat}
    (hreturn : m.HasReturn n (m.cleanupBody region.handler) saved copy)
    (hn : n.block? a.block = some { k with
      instrs := k.instrs ++ (saved.map Instr.store).toList, terminator := .goto copy }) :
    ∃ y, (Cleaning.play p).Quietly ⟨⟨s, .exec a', []⟩, ps'⟩ y ∧
      Match m n index region (Cleaning.depart p s a .ret ps) y := by
  have hk' : a'.method.block? a'.block = n.block? a.block := by rw [h.target, hblock]
  rw [hn] at hk'
  cases saved with
  | none =>
    simp only [Option.map_none, Option.toList_none, append_nil] at hk'
    exact hst.quiet_return_void h p s hlen hblock hregion hreturn hk'
  | some l => exact hst.quiet_return_saved h p s hlen hblock hregion hreturn hk'

/-- **The end of a block that stands in both methods** under the same number. -/
theorem Stage.quiet_same (h : Beside m n index region a ps a' ps') (p : Program) (s : Store)
    (hk : m.block? a.block = some k) (hlen : a.offset = k.instrs.length)
    (hblock : a'.block = a.block) (hoffset : a'.offset = a.offset)
    (hnext : ∀ t ∈ k.terminator.successors, Place m n index region a'.locals t 0 t 0 ps ps')
    (hend : k.terminator = .endCleanup → Match m n index region (Cleaning.complete p s a ps)
      (Cleaning.complete p s a' ps')) :
    ∃ y, (Cleaning.play p).Quietly ⟨⟨s, .exec a', []⟩, ps'⟩ y ∧
      Match m n index region (Cleaning.depart p s a k.terminator ps) y := by
  rcases hst.expanded.same_block hk with ⟨hret, hregion, saved, copy, hreturn, hn⟩ |
    ⟨hret, route, hn, hroute⟩
  · rw [hret]
    exact hst.quiet_return h p s (hoffset.trans hlen) hblock hregion hreturn hn
  · have hk' : a'.method.block? a'.block =
        some { k with terminator := k.terminator.mapTargets route } := by
      rw [h.target, hblock]
      exact hn
    refine ⟨_, Cleaning.quietly_one (Cleaning.execute_end hk' (by simp [hoffset, hlen])), ?_⟩
    by_cases ht : k.terminator = .endCleanup
    · simp only [ht, Cleaning.depart, Terminator.mapTargets, if_true]
      exact hend ht
    · refine hst.depart h p s ht hret fun u hu stack => ?_
      obtain ⟨hin, hout⟩ := hroute u hu
      have hplace := hnext u hu
      by_cases hstay : a.block ∈ region.blocks → u ∈ region.blocks
      · rw [hin hstay]
        exact hst.go h s hplace (hst.lt_of_place hplace) hstay stack
      · obtain ⟨hregion, hleave⟩ := Classical.not_imp.1 hstay
        have hcopy := hout hregion hleave
        simp only [Cleaning.go, h.source, h.target, hblock, hst.leaving_led h hblock hregion hcopy,
          hst.leaving_region hregion hleave]
        have hcompletes : Completes m a'.locals (.jump u) (.jump u) := rfl
        exact hst.enters h.toKin s hcopy hcompletes h.locals
          (fun t ht => by cases ht; exact hplace) stack

/-- **The end of a body** of a later region leads to machines that correspond. -/
theorem Stage.complete (h : Beside m n index region a ps a' ps') (p : Program) (s : Store)
    (hout : a.block ∉ region.blocks)
    (hjump : ∀ t, q = .jump t → Place m n index region a'.locals t 0 t 0 qs qs') :
    Match m n index region (Cleaning.complete p s a (q :: qs))
      (Cleaning.complete p s a' (q :: qs')) := by
  cases q with
  | jump t =>
    have hplace := hjump t rfl
    simp only [Cleaning.complete, h.stack]
    exact hst.go h s hplace (hst.lt_of_place hplace) (fun hb => absurd hb hout) a.stack
  | ret v =>
    simp only [Cleaning.complete, h.stack]
    exact hst.finish h s hout v a.stack qs qs'
  | rethrow e => exact hst.raise h p s e qs qs'

/-- The end of a body of a later region does not lie in the expanded region. -/
theorem Stage.not_mem_of_end (hb : m.Inside index b) (hk : m.block? b = some k)
    (hend : k.terminator = .endCleanup) : b ∉ region.blocks := by
  obtain ⟨i, r, hi, hr, hkind, hb⟩ := hb
  refine hst.orderly.ordered index i region r hi hst.listed hr hst.kind hkind b hb ?_
  rw [Method.blockOrStub_of_block? hk]
  exact hend

/-- **The end of a copied body**: the copy goes on with what waits for the end of the body. -/
theorem Stage.quiet_completion (h : Beside m n index region a (q :: qs) a' ps') (p : Program)
    (s : Store) (hout : a.block ∉ region.blocks) (hcompletes : Completes m a'.locals c q)
    (hnext : ∀ t, q = .jump t → Place m n index region a'.locals t 0 t 0 qs ps') {id : Nat}
    {instrs : List Instr} (hlen : instrs.length = a'.offset)
    (hk' : a'.method.block? a'.block = some ⟨id, instrs ++ c.code.1, c.code.2⟩) :
    ∃ y, (Cleaning.play p).Quietly ⟨⟨s, .exec a', []⟩, ps'⟩ y ∧
      Match m n index region (Cleaning.complete p s a (q :: qs)) y := by
  match c, q, hcompletes with
  | .jump t, .jump t', heq =>
    cases heq
    have hplace := hnext t rfl
    refine ⟨_, Cleaning.quietly_one (Cleaning.execute_end hk' ?_), ?_⟩
    · simp [Completion.code, ← hlen]
    · simp only [Cleaning.complete, Completion.code, Cleaning.depart, reduceCtorEq, if_false,
        Activation.leave, h.stack]
      exact hst.go h s hplace (hst.lt_of_place hplace) (fun hb => absurd hb hout) a.stack
  | .ret none, .ret v, ⟨hvoid, hnull, _⟩ =>
    have hret : a'.method.ret.isVoid = true := by
      rw [h.target, hst.expanded.grows.ret]
      exact hvoid.1 rfl
    refine ⟨_, Cleaning.quietly_one (Cleaning.execute_end hk' ?_), ?_⟩
    · simp [Completion.code, ← hlen]
    · simp only [Cleaning.complete, Completion.code, Cleaning.depart, reduceCtorEq, if_false,
        Activation.leave, hret, if_true, h.stack, hnull rfl]
      exact hst.finish h s hout .null a.stack qs ps'
  | .ret (some l), .ret v, ⟨hvoid, _, hsaved⟩ =>
    have hret : a'.method.ret.isVoid = false := by
      rw [h.target, hst.expanded.grows.ret]
      cases hv : m.ret.isVoid with
      | false => rfl
      | true => cases hvoid.2 hv
    refine ⟨_, Cleaning.quietly_more (Cleaning.execute_load hk' ?_ (hsaved l rfl).2)
      (Cleaning.quietly_one (Cleaning.execute_end hk' ?_)), ?_⟩
    · simp [Completion.code, ← hlen]
    · simp [Completion.code, ← hlen, Activation.advance]
    · simp only [Cleaning.complete, Completion.code, Cleaning.depart, reduceCtorEq, if_false,
        Activation.leave, Activation.advance, hret, Bool.false_eq_true, tail_cons, h.stack]
      exact hst.finish h s hout v a.stack qs ps'
  | .rethrow l, .rethrow e, ⟨_, hsaved⟩ =>
    refine ⟨_, Cleaning.quietly_more (Cleaning.execute_load hk' ?_ hsaved)
      (Cleaning.quietly_one (Cleaning.execute_end hk' ?_)), ?_⟩
    · simp [Completion.code, ← hlen]
    · simp [Completion.code, ← hlen, Activation.advance]
    · simp only [Cleaning.complete, Completion.code, Cleaning.depart, reduceCtorEq, if_false,
        Activation.leave, Activation.advance]
      exact hst.raise h p s e qs ps'

/-- **The end of a copied block.** -/
theorem Stage.quiet_copy (h : Beside m n index region a (q :: qs) a' ps') (p : Program) (s : Store)
    (hk : m.block? a.block = some k) (hlen : a.offset = k.instrs.length) {j : Nat}
    (hj : (m.cleanupBody region.handler)[j]? = some a.block)
    (hcopy : m.HasCopy n (m.cleanupBody region.handler) base c)
    (hcompletes : Completes m a'.locals c q)
    (hnext : ∀ t, q = .jump t → Place m n index region a'.locals t 0 t 0 qs ps')
    (hblock : a'.block = base + j) (hoffset : a.offset = a'.offset + skipped j) :
    ∃ y, (Cleaning.play p).Quietly ⟨⟨s, .exec a', []⟩, ps'⟩ y ∧
      Match m n index region (Cleaning.depart p s a k.terminator (q :: qs)) y := by
  have hmem := mem_of_getElem? hj
  have hout := hst.expanded.apart _ hmem
  have hk' : a'.method.block? a'.block =
      some (m.copiedBlock (m.cleanupBody region.handler) base c j a.block) := by
    rw [h.target, hblock]
    exact hcopy.blocks j _ hj
  have hkept : (if j = 0 then k.instrs.drop 1 else k.instrs).length = a'.offset := by
    by_cases hj0 : j = 0
    · simp only [hj0, if_true, length_drop, skipped] at hoffset ⊢
      omega
    · simp only [hj0, if_false, skipped] at hoffset ⊢
      omega
  simp only [Method.copiedBlock, Method.blockOrStub_of_block? hk] at hk'
  by_cases ht : k.terminator = .endCleanup
  · rw [if_pos ht] at hk'
    simp only [ht, Cleaning.depart, if_true]
    exact hst.quiet_completion h p s hout hcompletes hnext hkept hk'
  · -- The body goes on in the copy.
    rw [if_neg ht] at hk'
    refine ⟨_, Cleaning.quietly_one (Cleaning.execute_end hk' (by simp [← hkept])), ?_⟩
    refine hst.depart h p s ht (fun _ => hout) fun u hu stack => ?_
    obtain ⟨i, hi⟩ := mem_iff_getElem?.1 (Method.mem_cleanupBody_next hmem hk hu)
    have hne : i ≠ 0 := by
      rintro rfl
      rw [m.cleanupBody_head] at hi
      cases hi
      exact hst.orderly.unjumped _ k (hst.used_of_mem_body hmem) hk _ hu region
        (mem_of_getElem? hst.listed) hst.kind rfl
    have hnodup : (m.cleanupBody region.handler).Nodup := Search.nodup_preorder ..
    rw [Method.copyOf_eq hnodup base hi]
    have hplace := Place.copy (o := 0) hi hcopy hcompletes hnext
    rw [show 0 + skipped i = 0 by simp [skipped, hne]] at hplace
    exact hst.go h s hplace (hst.lt_of_place hplace) (fun hb => absurd hb hout) stack

/-! ### The simulation -/

/-- **A running activation** goes one step, and the one that corresponds one or more. -/
theorem Stage.quiet_runs (h : Beside m n index region a ps a' ps') (p : Program) (s : Store) :
    ∃ y, (Cleaning.play p).Quietly ⟨⟨s, .exec a', []⟩, ps'⟩ y ∧
      Match m n index region (Cleaning.execute p s a ps) y := by
  obtain ⟨k, hk, hle⟩ := h.bound
  have hk₀ : a.method.block? a.block = some k := by
    rw [h.source]
    exact hk
  rcases Nat.lt_or_ge a.offset k.instrs.length with hlt | hge
  · have hi : k.instrs[a.offset]? = some k.instrs[a.offset] := List.getElem?_eq_getElem hlt
    obtain ⟨k', hk', hi'⟩ := hst.instr h hk hi
    have hk' : a'.method.block? a'.block = some k' := by
      rw [h.target]
      exact hk'
    rw [Cleaning.execute_instr hk₀ hi]
    exact ⟨_, Cleaning.quietly_one (Cleaning.execute_instr hk' hi'), hst.act h p s hk hi⟩
  · have hlen : a.offset = k.instrs.length := Nat.le_antisymm hle hge
    rw [Cleaning.execute_end hk₀ (getElem?_eq_none hge)]
    have hplace := h.place
    generalize hb : a.block = b, ho : a.offset = o, hb' : a'.block = b', ho' : a'.offset = o',
      hls : a'.locals = ls at hplace
    cases hplace with
    | outside hout =>
      refine hst.quiet_same h p s hk hlen (hb'.trans hb.symm) (ho'.trans ho.symm)
        (fun t ht => .outside (hout.next (hb ▸ hk) ht)) fun hend => ?_
      obtain ⟨start, hstart, hmem⟩ := hout
      refine absurd ?_ (hst.orderly.enclosed start hstart _ hmem)
      rw [Method.blockOrStub_of_block? (hb ▸ hk)]
      exact hend
    | jumps hin ht =>
      subst hls
      refine hst.quiet_same h p s hk hlen (hb'.trans hb.symm) (ho'.trans ho.symm)
        (fun t ht' => .jumps (hin.next (hb ▸ hk) ht') ht) fun hend => ?_
      have hout := hst.not_mem_of_end hin (hb ▸ hk) hend
      simp only [Cleaning.complete, h.stack]
      exact hst.go h s ht (hst.lt_of_place ht) (fun hmem => absurd (hb ▸ hmem) hout) a.stack
    | ends hin hq =>
      refine hst.quiet_same h p s hk hlen (hb'.trans hb.symm) (ho'.trans ho.symm)
        (fun t ht' => .ends (hin.next (hb ▸ hk) ht') hq) fun hend => ?_
      have hout := hst.not_mem_of_end hin (hb ▸ hk) hend
      exact hst.complete h p s (hb ▸ hout) fun t ht => absurd ht (hq t)
    | copy hj hcopy hcompletes hnext =>
      subst hls
      exact hst.quiet_copy h p s hk hlen (hb ▸ hj) hcopy hcompletes hnext hb'
        (ho.trans (by rw [ho']))

/-- **An exception that the expanded region took** is saved, and a copy of the body runs. -/
theorem Stage.quiet_caught {e : Value} {handler saved : Nat} (h : Kin m n a a')
    (hlocals : ∀ l ∈ m.localIds, a'.locals.get l = a.locals.get l)
    (hrescues : m.Rescues n region handler saved) (p : Program) (s : Store) :
    ∃ y, (Cleaning.play p).Quietly ⟨⟨s, .exec (a'.handle handler e), []⟩, ps'⟩ y ∧
      Match m n index region
        (Cleaning.execute p s (a.handle region.handler e) (.rethrow e :: ps)) y := by
  obtain ⟨copy, take, hcopy, htake, hn⟩ := hrescues.rethrows
  obtain ⟨k, hk, _⟩ := hst.exists_handler hst.listed hst.kind
  have hleaving : n.leaving? handler copy = none :=
    hst.leaving_copy hcopy fun i hi => .inl ((hrescues.covers i).1 hi)
  -- Saving the exception and going to the copy, from whatever offset and locals.
  have hsave : ∀ (ls : Locals) (o : Nat), (take ++ [Instr.store saved])[o]? = some (.store saved) →
      (take ++ [Instr.store saved])[o + 1]? = none →
      (Cleaning.play p).Quietly
        ⟨⟨s, .exec { a' with locals := ls, stack := [e], block := handler, offset := o }, []⟩, ps'⟩
        ⟨⟨s, .exec { a' with
          locals := ls.set saved e, stack := [], block := copy, offset := 0 }, []⟩, ps'⟩ := by
    intro ls o ho ho'
    have hfirst : Cleaning.execute p s { a' with
        locals := ls, stack := [e], block := handler, offset := o } ps' = ⟨⟨s, .exec { a' with
          locals := ls.set saved e, stack := [], block := handler, offset := o + 1 }, []⟩,
            ps'⟩ := by
      simp only [Cleaning.execute, h.target, hn, ho]
      rfl
    refine Cleaning.quietly_more hfirst (Cleaning.quietly_one ?_)
    simp only [Cleaning.execute, h.target, hn, ho', Cleaning.depart, reduceCtorEq, if_false,
      Activation.leave, Cleaning.go, hleaving, Activation.jump]
  have henters : ∀ ls ls' : Locals, (∀ l ∈ m.localIds, ls'.get l = ls.get l) →
      Match m n index region
        ⟨⟨s, .exec ({ a with locals := ls }.clean region []), []⟩, .rethrow e :: ps⟩
        ⟨⟨s, .exec { a' with
          locals := ls'.set saved e, stack := [], block := copy, offset := 0 }, []⟩, ps'⟩ := by
    intro ls ls' hls
    have hcompletes : Completes m (ls'.set saved e) (.rethrow saved) (.rethrow e) :=
      ⟨hrescues.saves, by simp [Locals.get_set]⟩
    refine hst.enters (a := { a with locals := ls })
      ⟨h.source, h.target, h.monitors, h.depth⟩ s hcopy
      hcompletes (fun l hl => ?_) (fun t ht => by cases ht) []
    have hne : l ≠ saved := by
      rintro rfl
      exact hrescues.saves hl
    rw [Locals.get_set, if_neg hne]
    exact hls l hl
  have hk₀ : (a.handle region.handler e).method.block? (a.handle region.handler e).block =
      some k := by
    show a.method.block? region.handler = some k
    rw [h.source, hk]
  have hk' : (a'.handle handler e).method.block? (a'.handle handler e).block =
      some ⟨handler, take ++ [.store saved], .goto copy⟩ := by
    show a'.method.block? handler = _
    rw [h.target, hn]
  unfold Method.takeException? at htake
  rw [Method.blockOrStub_of_block? hk] at htake
  split at htake
  · rename_i rest hinstrs
    cases htake
    refine ⟨_, hsave a'.locals 0 rfl rfl, ?_⟩
    have hstep : Cleaning.execute p s (a.handle region.handler e) (.rethrow e :: ps) =
        ⟨⟨s, .exec (a.clean region []), []⟩, .rethrow e :: ps⟩ := by
      rw [Cleaning.execute_instr hk₀ (hinstrs ▸ rfl : k.instrs[0]? = some .pop)]
      rfl
    rw [hstep]
    exact henters a.locals a'.locals hlocals
  · rename_i l rest hinstrs
    cases htake
    have hfirst : Cleaning.execute p s (a'.handle handler e) ps' =
        ⟨⟨s, .exec { a' with stack := [e, e], block := handler, offset := 1 }, []⟩, ps'⟩ := by
      rw [Cleaning.execute_instr hk' (i := .dup) rfl]
      rfl
    have hsecond :
        Cleaning.execute p s { a' with stack := [e, e], block := handler, offset := 1 } ps' =
        ⟨⟨s, .exec { a' with
          locals := a'.locals.set l e, stack := [e], block := handler, offset := 2 }, []⟩,
            ps'⟩ := by
      exact Cleaning.execute_instr
        (a := { a' with stack := [e, e], block := handler, offset := 1 }) hk' (i := .store l) rfl
    refine ⟨_, Cleaning.quietly_more hfirst (Cleaning.quietly_more hsecond
      (hsave (a'.locals.set l e) 2 rfl rfl)), ?_⟩
    have hstep : Cleaning.execute p s (a.handle region.handler e) (.rethrow e :: ps) =
        ⟨⟨s, .exec ({ a with locals := a.locals.set l e }.clean region []), []⟩,
          .rethrow e :: ps⟩ := by
      rw [Cleaning.execute_instr hk₀ (hinstrs ▸ rfl : k.instrs[0]? = some (.store l))]
      rfl
    rw [hstep]
    refine henters _ _ fun l' hl' => ?_
    rw [Locals.get_set, Locals.get_set, hlocals l' hl']
  · cases htake

/-- **The expansion of the first cleanup region simulates the method.** -/
theorem Stage.simulates (p : Program) :
    Play.Simulates (Cleaning.play p) (Cleaning.play p) (Match m n index region) :=
  .of_cases fun hxy => by
    cases hxy with
    | runs h => exact .inl ⟨rfl, hst.quiet_runs h p _⟩
    | caught h hlocals hrescues => exact .inl ⟨rfl, hst.quiet_caught h hlocals hrescues p _⟩
    | returns => exact .inr ⟨_, rfl, rfl, fun _ _ h => by cases h⟩
    | unwinds hu =>
      exact .inr ⟨_, rfl, by simp [Cleaning.play, Machine.sight, hu], fun _ _ h => by cases h⟩
    | waits h hinside =>
      refine .inr ⟨_, rfl, rfl, fun _ _ _ => Reply.forall_of_cases (fun _ _ => ?_)
        (fun s e => hst.raise h p s e _ _) fun _ _ => .unwinds rfl⟩
      refine .runs ⟨⟨h.source, h.target, h.monitors, h.depth⟩, ?_, h.locals, h.place.shift 1,
        hinside⟩
      simp only [Activation.advance, h.stack]

end Stage

end Resumable
