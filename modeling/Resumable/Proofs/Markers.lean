/-
**States and marker calls.**

Two analyses keep a marker from getting a state that nothing enters: one follows control from block
to block, exceptions included, before cleanup regions are expanded; the other follows it from node
to node with the depth of the stack.  The first is the coarser one, so that what it finds the second
would find as well.  A method that passes both has a point for each of its marker calls, and a
method without cleanup regions that fails only these two has a marker call outside the flow.

Main results:

* `Method.Reaches.mem_reachable` — control gets only to blocks that count as reachable;
* `Graph.exists_holds` — **every position of a method lies in a node**;
* `Plan.Made.locations` — the points are at the marker calls;
* `Method.states_match_markers` — **states and marker calls correspond**.
-/

import Resumable.Proofs.CleanupEnds
import Resumable.Proofs.LevelPaths
import Resumable.Proofs.Positions
import Resumable.Proofs.States

set_option autoImplicit false

namespace Resumable

open Dispatcher List

/-! ### Marker calls and nodes -/

namespace Method

variable {m : Method} {isMarker : String → Bool} {o : Options} {at' : Location} {d : Defect}

/-- A marker call stands at the position. -/
def MarkerAt (m : Method) (isMarker : String → Bool) (at' : Location) : Prop :=
  ∃ c, m.instrAt? at' = some (.invoke c) ∧ isMarker c.name = true

theorem MarkerAt.names (h : m.MarkerAt isMarker at') : m.Names at' := by
  obtain ⟨c, hc, -⟩ := h
  obtain ⟨b, hb, hi⟩ := Option.bind_eq_some_iff.1 hc
  exact ⟨b, hb, Nat.le_of_lt (List.getElem?_eq_some_iff.1 hi).1⟩

theorem MarkerAt.suspends (h : m.MarkerAt o.isMarker at') : m.suspends o = true := by
  obtain ⟨c, hc, hmarker⟩ := h
  obtain ⟨b, hb, hi⟩ := Option.bind_eq_some_iff.1 hc
  refine any_eq_true.2 ⟨b, mem_of_getElem? hb, ?_⟩
  refine any_eq_true.2 ⟨_, mem_of_getElem? hi, ?_⟩
  simp [Instr.callee?, hmarker]

/-- One step of control stays in its block or goes to a block that the block leads to. -/
theorem Flow.block_cases {k q : Location} (h : m.Flow k q) :
    q.block = k.block ∨ q.block ∈ m.exits k.block := by
  cases h with
  | next hb _ => exact .inl rfl
  | jump hb hq =>
    refine .inr ?_
    simp only [exits, hb]
    exact mem_append_left _ hq
  | throw hb _ _ hh | raise hb _ hh =>
    refine .inr ?_
    simp only [exits, hb]
    exact mem_append_right _ hh

/-- **Control gets only to blocks that count as reachable.** -/
theorem Reaches.mem_reachable (h : m.Reaches at') : at'.block ∈ m.reachable := by
  induction h with
  | refl => exact m.mem_reachable_entry
  | tail _ hflow ih =>
    rcases hflow.block_cases with heq | hexit
    · exact heq ▸ ih
    · exact mem_reachable_exits ih hexit

end Method

namespace Graph

variable {m : Method} {isMarker : String → Bool} {r : IdSet} {at' : Location}

/-- The position lies in a node outside the set. -/
def Misses (g : Graph) (r : IdSet) (at' : Location) : Prop :=
  ∃ n ∈ g.nodes, n.Holds at' ∧ n.id ∉ r

/-- **Every position of a method lies in a node.** -/
theorem exists_holds (isMarker : String → Bool) (h : m.Sound) (hat : m.Names at') :
    ∃ n ∈ (ofMethod m isMarker).nodes, n.Holds at' := by
  obtain ⟨k, offset⟩ := at'
  obtain ⟨b, hb, hle⟩ := hat
  have hk : k < m.blocks.length := (List.getElem?_eq_some_iff.1 hb).1
  simp only at hb hle
  induction offset with
  | zero =>
    obtain ⟨n, hn, -, horigin, hstart⟩ := exists_head_mem isMarker h hk
    exact ⟨n, hn, horigin.symm, by simp [hstart], by simp⟩
  | succ offset ih =>
    obtain ⟨n, hn, hholds⟩ := ih (by omega)
    obtain ⟨horigin, hlow, hhigh⟩ := hholds
    simp only at horigin hlow hhigh
    subst horigin
    rcases Nat.lt_or_ge offset (n.start + n.instrs.length) with hlt | hge
    · exact ⟨n, hn, rfl, Nat.le_succ_of_le hlow, hlt⟩
    -- the node ends here, so a marker call does, and the next node begins behind it
    · obtain ⟨b', hb', hpiece⟩ := pieceOf h hn
      cases hb.symm.trans hb'
      cases hexit : n.exit with
      | leave t =>
        have hlength := (hpiece.of_leave hexit).2
        omega
      | suspend c resume =>
        obtain ⟨-, -, k, hk, -, horigin, hstart⟩ := hpiece.of_suspend hexit
        refine ⟨k, hk, horigin.symm, ?_, ?_⟩
        · simp only
          omega
        · simp only
          omega

theorem exitLocation_of_markerAt (h : m.Sound) {n : Node} (hn : n ∈ (ofMethod m isMarker).nodes)
    (hholds : n.Holds at') (hmarker : m.MarkerAt isMarker at') :
    n.isSuspend = true ∧ at' = n.exitLocation := by
  obtain ⟨j, hj, rfl⟩ := Node.holds_iff.1 hholds
  obtain ⟨c, hc, hname⟩ := hmarker
  rcases instr_cases h hn hj hc with hinstr | ⟨rfl, c', resume, hexit, -⟩
  · obtain ⟨b, hb, hpiece⟩ := pieceOf h hn
    have hplain := hpiece.plain _ (mem_of_getElem? hinstr)
    simp [Instr.callee?, hname] at hplain
  · exact ⟨by simp [Node.isSuspend, hexit], rfl⟩

theorem markerAt_exitLocation (h : m.Sound) {n : Node} (hn : n ∈ (ofMethod m isMarker).nodes)
    (hs : n.isSuspend = true) : m.MarkerAt isMarker n.exitLocation := by
  obtain ⟨b, hb, hpiece⟩ := pieceOf h hn
  cases hexit : n.exit with
  | leave t => simp [Node.isSuspend, hexit] at hs
  | suspend c resume =>
    obtain ⟨hname, hinvoke, -⟩ := hpiece.of_suspend hexit
    exact ⟨c, Option.bind_eq_some_iff.2 ⟨b, hb, hinvoke⟩, hname⟩

theorem misses_of_not_reachable (h : m.Sound) (hr : (ofMethod m isMarker).FlowSet r)
    (hat : m.Names at') (hdead : at'.block ∉ m.reachable) : (ofMethod m isMarker).Misses r at' := by
  obtain ⟨n, hn, hholds⟩ := exists_holds isMarker h hat
  refine ⟨n, hn, hholds, fun hnr => hdead ?_⟩
  have hreaches := reaches_of_mem h hr hn hnr (Nat.zero_le _)
  exact hholds.1 ▸ hreaches.mem_reachable

end Graph

/-! ### Markers that nothing enters -/

namespace Method

variable {m n : Method} {isMarker : String → Bool} {o : Options} {cls : String} {d : Defect}
  {r : IdSet} {levels : List (Option Level)}

/-- A marker in dead code is found at its position. -/
theorem markerAt_of_deadMarker (h : m.Sound) (hd : d ∈ m.deadMarkerDefects isMarker) :
    d.cause = .unreachableSuspension ∧ m.MarkerAt isMarker d.location ∧
      d.location.block ∉ m.reachable := by
  obtain ⟨b, hb, hd⟩ := mem_filterMap.1 hd
  split at hd
  · cases hd
  · rename_i hdead
    obtain ⟨o, ho, rfl⟩ := Option.map_eq_some_iff.1 hd
    obtain ⟨hlt, hcallee, -⟩ := findIdx?_eq_some_iff_getElem.1 ho
    obtain ⟨c, hc⟩ := Option.isSome_iff_exists.1 hcallee
    obtain ⟨hinvoke, hname⟩ := Instr.eq_invoke_of_callee? hc
    obtain ⟨i, hi⟩ := mem_iff_getElem?.1 hb
    refine ⟨rfl, ⟨c, Option.bind_eq_some_iff.2 ⟨b, ?_, ?_⟩, hname⟩, hdead⟩
    · rw [h.ids i b hi]
      exact hi
    · rw [List.getElem?_eq_getElem hlt, hinvoke]

/-- A marker that the flow does not enter is found at its position. -/
theorem markerAt_of_unentered {blocks : Nat} (h : m.Sound)
    (hd : d ∈ (Graph.ofMethod m isMarker).unenteredDefects r blocks) :
    d.cause = .unreachableSuspension ∧ m.MarkerAt isMarker d.location ∧
      (Graph.ofMethod m isMarker).Misses r d.location := by
  obtain ⟨n, hn, hd⟩ := mem_filterMap.1 hd
  split at hd
  · rename_i hcond
    cases hd
    exact ⟨rfl, Graph.markerAt_exitLocation h hn hcond.1, n, hn,
      n.holds_location (Nat.le_refl _), hcond.2.1⟩
  · cases hd

/-- **Markers outside the flow are defects.** -/
theorem not_misses_of_unentered (h : m.Sound)
    (hentered : (Graph.ofMethod m isMarker).unenteredDefects r m.blocks.length = [])
    {at' : Location} (hmarker : m.MarkerAt isMarker at') :
    ¬ (Graph.ofMethod m isMarker).Misses r at' := by
  rintro ⟨n, hn, hholds, hnr⟩
  obtain ⟨hsuspend, -⟩ := Graph.exitLocation_of_markerAt h hn hholds hmarker
  obtain ⟨b, hb, -⟩ := Graph.pieceOf h hn
  have horigin : n.origin < m.blocks.length := (List.getElem?_eq_some_iff.1 hb).1
  have hdefect := filterMap_eq_nil_iff.1 hentered n hn
  rw [if_pos ⟨hsuspend, hnr, horigin⟩] at hdefect
  cases hdefect

theorem eq_of_withoutCleanup (h : m.Sound) (hcleanup : m.hasCleanup = false)
    (hn : m.withoutCleanup = .ok n) : n = m := by
  rcases unfolds_of_withoutCleanup h hn with heq | ⟨htrue, -⟩
  · exact heq
  · rw [hcleanup] at htrue
    cases htrue

/-- A method without cleanup regions passes all checks apart from those for markers that nothing
enters; `n` is what the expansion makes of it. -/
structure PassesOthers (m : Method) (o : Options) (n : Method) (levels : List (Option Level)) :
    Prop where
  noCleanup : m.hasCleanup = false
  references : m.referenceDefects = []
  arity : m.arityDefects o.isMarker = []
  shape : m.shapeDefects = []
  expanded : m.withoutCleanup = .ok n
  balance : (Graph.ofMethod n o.isMarker).balance n.ret = .ok levels

namespace PassesOthers

variable (h : m.PassesOthers o n levels)
include h

theorem eq : n = m :=
  eq_of_withoutCleanup (referenceDefects_eq_nil_iff.1 h.references) h.noCleanup h.expanded

theorem mem_of_analyze_error (hd : m.analyze o = .error d) :
    d ∈ m.deadMarkerDefects o.isMarker ∨
      d ∈ (Graph.ofMethod n o.isMarker).unenteredDefects (Graph.reached levels)
        m.blocks.length := by
  rcases bind_eq_error hd with hd | ⟨-, -, hd⟩
  · simp only [check, h.references, h.arity, h.shape] at hd
    exact .inl (mem_of_report hd)
  · rcases bind_eq_error hd with hd | ⟨n', hn, hd⟩
    · rw [h.expanded] at hd
      cases hd
    · cases h.expanded.symm.trans hn
      rcases bind_eq_error hd with hd | ⟨levels', hlevels, hd⟩
      · rw [h.balance] at hd
        cases hd
      · cases h.balance.symm.trans hlevels
        rcases bind_eq_error hd with hd | ⟨-, -, hd⟩
        · exact .inr (mem_of_report hd)
        · cases hd

/-- **What a method is refused for** is a marker call outside the flow. -/
theorem misses_of_error {rej : Rejection} (hrej : m.convert cls o = .error rej) :
    rej.cause = .unreachableSuspension ∧ m.MarkerAt o.isMarker rej.location ∧
      (Graph.ofMethod n o.isMarker).Misses (Graph.reached levels) rej.location := by
  obtain rfl := h.eq
  have hsound := referenceDefects_eq_nil_iff.1 h.references
  rw [convert] at hrej
  split at hrej
  · split at hrej
    · cases hrej
    · rename_i d hd
      cases hrej
      rcases h.mem_of_analyze_error hd with hdead | hentered
      · obtain ⟨hcause, hmarker, hblock⟩ := markerAt_of_deadMarker hsound hdead
        have hflow := Graph.flowSet_reached hsound h.balance
        exact ⟨hcause, hmarker, Graph.misses_of_not_reachable hsound hflow hmarker.names hblock⟩
      · exact markerAt_of_unentered hsound hentered
  · cases hrej

/-- **A marker call outside the flow** is a reason to refuse a method. -/
theorem exists_error {at' : Location} (hmarker : m.MarkerAt o.isMarker at')
    (hmisses : (Graph.ofMethod n o.isMarker).Misses (Graph.reached levels) at') :
    ∃ rej, m.convert cls o = .error rej := by
  obtain rfl := h.eq
  cases ha : n.analyze o with
  | error d =>
    refine ⟨d.ofMethod (n.qualified cls), ?_⟩
    simp only [convert, hmarker.suspends, if_true, ha]
  | ok a =>
    obtain ⟨-, n', levels', hn, hlevels, hentered, -⟩ := analyze_eq_ok ha
    cases h.expanded.symm.trans hn
    cases h.balance.symm.trans hlevels
    have hsound := referenceDefects_eq_nil_iff.1 h.references
    exact absurd hmisses (not_misses_of_unentered hsound hentered hmarker)

end PassesOthers

end Method

/-! ### The points of a conversion -/

namespace Dispatcher.Plan.Made

variable {p : Plan} {isMarker : String → Bool} {r : IdSet} (h : p.Made isMarker r)
include h

/-- Points at one position are one point. -/
theorem location_inj {q q' : Suspension} (hq : q ∈ p.points) (hq' : q' ∈ p.points)
    (heq : q.location = q'.location) : q = q' := by
  obtain ⟨n, c, hn, -, hlocation, -⟩ := (h.isAt hq).node
  obtain ⟨n', c', hn', -, hlocation', -⟩ := (h.isAt hq').node
  rw [h.graph] at hn hn'
  have hholds : n'.Holds n.exitLocation := by
    rw [← hlocation, heq, hlocation']
    exact n'.holds_location (Nat.le_refl _)
  obtain rfl := Graph.node_unique h.sound (Graph.mem_of_node? hn) (Graph.mem_of_node? hn')
    (n.holds_location (Nat.le_refl _)) hholds
  have hnode : q.node = q'.node :=
    (Graph.node?_id h.sound hn).symm.trans (Graph.node?_id h.sound hn')
  have hpoint := h.pointAt?_node hq
  rw [hnode, h.pointAt?_node hq'] at hpoint
  exact (Option.some.inj hpoint).symm

/-- **The points are at the marker calls**, provided that the flow enters them all. -/
theorem locations (hentered : ∀ at', p.method.MarkerAt isMarker at' → ¬ p.graph.Misses r at') :
    (p.points.map (·.location)).Nodup ∧
      ∀ at', at' ∈ p.points.map (·.location) ↔ p.method.MarkerAt isMarker at' := by
  have hnodup : p.points.Nodup := by
    refine List.Nodup.of_map (·.node) ?_
    rw [h.points]
    exact Graph.nodup_node_suspensions
  refine ⟨List.Nodup.map_on (fun q hq q' hq' => h.location_inj hq hq') hnodup, fun at' => ?_⟩
  constructor
  · intro hat
    obtain ⟨q, hq, rfl⟩ := mem_map.1 hat
    obtain ⟨n, c, hn, hexit, hlocation, -⟩ := (h.isAt hq).node
    rw [h.graph] at hn
    rw [hlocation]
    have hsuspend : n.isSuspend = true := by simp [Node.isSuspend, hexit]
    exact Graph.markerAt_exitLocation h.sound (Graph.mem_of_node? hn) hsuspend
  · intro hmarker
    obtain ⟨n, hn, hholds⟩ := Graph.exists_holds isMarker h.sound hmarker.names
    obtain ⟨hsuspend, rfl⟩ := Graph.exitLocation_of_markerAt h.sound hn hholds hmarker
    have hreached : n.id ∈ r := by
      by_contra hnot
      refine hentered _ hmarker ⟨n, ?_, hholds, hnot⟩
      rw [h.graph]
      exact hn
    have hnode := Graph.node?_of_mem h.sound hn
    rw [← h.graph] at hnode
    obtain ⟨q, hq, hqn⟩ := h.exists_point hreached hnode hsuspend
    obtain ⟨n', c, hn', -, hlocation, -⟩ := (h.isAt hq).node
    rw [hqn, hnode] at hn'
    cases hn'
    exact mem_map.2 ⟨q, hq, hlocation⟩

end Dispatcher.Plan.Made

namespace Method

/-- **States and marker calls correspond.**  Let a method without instructions of the protocol be
converted.  Then its points are the marker calls that control gets to in the method without cleanup
regions, and they are the states of its dispatcher; if the method had no cleanup regions, they are
all its marker calls.  And where a method without cleanup regions passes all other checks, it is
refused exactly if control does not get to one of its marker calls, and for that reason. -/
theorem states_match_markers (m : Method) (cls : String) (o : Options) :
    (m.Plain → ∀ pair, m.convert cls o = .ok (.converted pair) →
      ∃ n levels, m.withoutCleanup = .ok n ∧
        (Graph.ofMethod n o.isMarker).balance n.ret = .ok levels ∧
        pair.Numbered (Graph.ofMethod n o.isMarker) (Graph.reached levels) ∧
        (m.hasCleanup = false → (pair.points.map (·.location)).Nodup ∧
          ∀ at', at' ∈ pair.points.map (·.location) ↔ m.MarkerAt o.isMarker at')) ∧
    ∀ n levels, m.PassesOthers o n levels →
      ((∃ rej, m.convert cls o = .error rej) ↔
        ∃ at', m.MarkerAt o.isMarker at' ∧
          (Graph.ofMethod n o.isMarker).Misses (Graph.reached levels) at') ∧
      ∀ rej, m.convert cls o = .error rej →
        rej.cause = .unreachableSuspension ∧ m.MarkerAt o.isMarker rej.location ∧
          (Graph.ofMethod n o.isMarker).Misses (Graph.reached levels) rej.location := by
  refine ⟨fun hplain pair hconvert => ?_, fun n levels h => ⟨⟨?_, ?_⟩, ?_⟩⟩
  · obtain ⟨a, n, ha, rfl, hn⟩ := m.exists_analysis hconvert
    obtain ⟨hcheck, hgrows, -, hmade⟩ := made_of_analyze ha hn (o.dispatcherName m.name)
    obtain ⟨-, n', levels, hn', hlevels, hentered, rfl⟩ := analyze_eq_ok ha
    cases hn.symm.trans hn'
    refine ⟨n, levels, hn, hlevels, hmade.numbered (hgrows.plain hplain) rfl rfl, ?_⟩
    intro hcleanup
    have hsound := referenceDefects_eq_nil_iff.1 (check_eq_ok hcheck).1
    obtain rfl := eq_of_withoutCleanup hsound hcleanup hn
    exact hmade.locations fun at' hmarker => not_misses_of_unentered hsound hentered hmarker
  · rintro ⟨rej, hrej⟩
    exact ⟨rej.location, (h.misses_of_error hrej).2⟩
  · rintro ⟨at', hmarker, hmisses⟩
    exact h.exists_error hmarker hmisses
  · exact fun rej hrej => h.misses_of_error hrej

end Method

/-- A wait in the handler of a region in which nothing can throw: control gets to the block of the
handler, as far as blocks go, but not to its node. -/
def waitsForNothing : Method where
  name := "quiet"
  params := [⟨0, some "f", .future, true⟩]
  ret := .int
  locals := [⟨0, some "f", .future, true⟩, ⟨1, some "x", .int, false⟩]
  blocks :=
    [⟨0, [], .goto 1⟩,
      ⟨1, [.push (.int 1), .store 1], .goto 2⟩,
      ⟨2, [.load 1], .ret⟩,
      ⟨3, [.pop, .load 0, .invoke ⟨"Await.await", 1, .int⟩], .ret⟩]
  entry := 0
  regions := [⟨0, IdSet.ofList [1], 3, .catchAll⟩]

/-- The levels of its blocks; the handler has none, nor what follows the wait. -/
def waitsForNothing.levels : List (Option Level) :=
  [some ⟨0, 0⟩, some ⟨0, 0⟩, some ⟨0, 0⟩, none, none]

/-- What the loop of waits is converted to. -/
def sumOfWaits.pair : Conversion.Pair :=
  match sumOfWaits.convert "C" {} with
  | .ok (.converted pair) => pair
  | _ => default

/-- The two waits of a loop and of its handler are its states; a wait that is never come to is what
a method is refused for. -/
theorem states_match_markers_sumOfWaits :
    sumOfWaits.Plain ∧ sumOfWaits.convert "C" {} = .ok (.converted sumOfWaits.pair) ∧
      sumOfWaits.pair.points.map (·.location) = [⟨2, 1⟩, ⟨4, 2⟩] ∧
      (∃ n levels, sumOfWaits.withoutCleanup = .ok n ∧
        (Graph.ofMethod n ({} : Options).isMarker).balance n.ret = .ok levels ∧
        sumOfWaits.pair.Numbered (Graph.ofMethod n ({} : Options).isMarker)
          (Graph.reached levels) ∧
        (sumOfWaits.hasCleanup = false → (sumOfWaits.pair.points.map (·.location)).Nodup ∧
          ∀ at', at' ∈ sumOfWaits.pair.points.map (·.location) ↔
            sumOfWaits.MarkerAt ({} : Options).isMarker at')) ∧
      waitsForNothing.PassesOthers {} waitsForNothing waitsForNothing.levels ∧
      waitsForNothing.convert "C" {} =
        .error ⟨"C.quiet", ⟨3, 2⟩, .unreachableSuspension⟩ ∧
      waitsForNothing.MarkerAt ({} : Options).isMarker ⟨3, 2⟩ ∧
      (Graph.ofMethod waitsForNothing ({} : Options).isMarker).Misses
        (Graph.reached waitsForNothing.levels) ⟨3, 2⟩ := by
  have hplain : sumOfWaits.Plain := by decide +kernel
  have hconvert : sumOfWaits.convert "C" {} = .ok (.converted sumOfWaits.pair) := by decide +kernel
  have hpasses : waitsForNothing.PassesOthers {} waitsForNothing waitsForNothing.levels := by
    constructor <;> decide +kernel
  have hrej : waitsForNothing.convert "C" {} =
      .error ⟨"C.quiet", ⟨3, 2⟩, .unreachableSuspension⟩ := by decide +kernel
  exact ⟨hplain, hconvert, by decide +kernel,
    (Method.states_match_markers sumOfWaits "C" {}).1 hplain _ hconvert, hpasses, hrej,
    (((Method.states_match_markers waitsForNothing "C" {}).2 _ _ hpasses).2 _ hrej).2⟩

end Resumable
