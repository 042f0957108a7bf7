/-
**What is saved at a marker suffices.**

At a marker a converted method saves those locals that are live where it goes on, or in a handler
there, and that some path may have defined.  Live locals are what the method needs of its locals in
the sense of `Method.Demand`.  So after the marker nothing depends on the locals that are not live:
not when the awaited future is fulfilled, and not when it is rejected, as the handlers count.  And a
local that no path defines is null when a run gets to the marker.  Therefore all locals that are not
saved can be replaced by null, and nobody sees a difference.

Main results:

* `Graph.liveAt_of_flow` — live locals go back along every step of control;
* `Machine.Started.visits` — **locals that no path assigns are null** in every run;
* `Liveness.suffices_of_balance` — **what is saved at a marker suffices**.
-/

import Resumable.Proofs.FlowSoundness
import Resumable.Proofs.LevelPaths
import Resumable.Proofs.NeededLocals
import Resumable.Proofs.Positions

set_option autoImplicit false

namespace Resumable

open Relation List

/-! ### Live locals are a demand -/

namespace Graph

variable {n : Method} {isMarker : String → Bool} {r : IdSet} {node : Node} {j l : Nat}
  {k q : Location} {params : List Nat}

/-- The local is live at a position of a node in the set. -/
def LiveAt (g : Graph) (a : Liveness) (r : IdSet) (k : Location) (l : Nat) : Prop :=
  ∃ node ∈ g.nodes, node.id ∈ r ∧ ∃ j ≤ node.instrs.length, k = node.location j ∧
    a.LiveFrom g node.id (node.instrs.drop j) l

section LiveAt

variable (h : n.Sound)
include h

theorem LiveAt.liveFrom
    (hl : (ofMethod n isMarker).LiveAt ((ofMethod n isMarker).liveness r params) r
      (node.location j) l) (hnode : node ∈ (ofMethod n isMarker).nodes)
    (hj : j ≤ node.instrs.length) :
    node.id ∈ r ∧ ((ofMethod n isMarker).liveness r params).LiveFrom (ofMethod n isMarker) node.id
      (node.instrs.drop j) l := by
  obtain ⟨node', hnode', hr, j', hj', hlocation, hlive⟩ := hl
  obtain rfl := node_unique h hnode' hnode (Node.holds_iff.2 ⟨j', hj', hlocation⟩)
    (Node.holds_iff.2 ⟨j, hj, rfl⟩)
  have hindex : j = j' := Nat.add_left_cancel (congrArg Location.offset hlocation)
  exact ⟨hr, hindex ▸ hlive⟩

theorem LiveAt.mem_liveIn
    (hl : (ofMethod n isMarker).LiveAt ((ofMethod n isMarker).liveness r params) r
      (node.location 0) l) (hnode : node ∈ (ofMethod n isMarker).nodes) :
    l ∈ ((ofMethod n isMarker).liveness r params).liveIn node.id := by
  obtain ⟨hr, hlive⟩ := hl.liveFrom h hnode (Nat.zero_le _)
  exact Liveness.mem_liveIn_of_liveFrom hr (node?_of_mem h hnode)
    (fun q hq => lt_size_of_mem_next h hq) hlive

theorem LiveAt.mem_liveIn_block {b : Nat}
    (hl : (ofMethod n isMarker).LiveAt ((ofMethod n isMarker).liveness r params) r ⟨b, 0⟩ l)
    (hb : b < n.blocks.length) : l ∈ ((ofMethod n isMarker).liveness r params).liveIn b := by
  obtain ⟨node, hnode, rfl, horigin, hstart⟩ := exists_head_mem isMarker h hb
  refine LiveAt.mem_liveIn h ?_ hnode
  rw [Node.location, horigin, hstart]
  exact hl

end LiveAt

theorem liveAt_exit {g : Graph} {a : Liveness} (hnode : node ∈ g.nodes) (hr : node.id ∈ r) {b : Nat}
    (hb : b ∈ g.next node.id) (hl : l ∈ a.liveIn b) : g.LiveAt a r node.exitLocation l := by
  refine ⟨node, hnode, hr, node.instrs.length, Nat.le_refl _, rfl, ?_⟩
  rw [drop_length]
  exact .exit hb hl

/-- An instruction reads what is live before it. -/
theorem liveAt_of_uses (h : n.Sound) (hnode : node ∈ (ofMethod n isMarker).nodes)
    (hr : node.id ∈ r) (hk : node.Holds k) {i : Instr} (hi : n.instrAt? k = some i)
    (hu : i.uses? = some l) :
    (ofMethod n isMarker).LiveAt ((ofMethod n isMarker).liveness r params) r k l := by
  obtain ⟨j, hj, rfl⟩ := Node.holds_iff.1 hk
  rcases instr_cases h hnode hj hi with hget | ⟨-, c, resume, -, rfl⟩
  · refine ⟨node, hnode, hr, j, hj, rfl, ?_⟩
    obtain ⟨hlt, rfl⟩ := List.getElem?_eq_some_iff.1 hget
    rw [drop_eq_getElem_cons hlt]
    exact .use hu
  · cases hu

/-- **What is live where control goes on**, and is not stored on the way, is live before. -/
theorem liveAt_of_flow (h : n.Sound) (hnode : node ∈ (ofMethod n isMarker).nodes)
    (hr : node.id ∈ r) (hk : node.Holds k) (hflow : n.Flow k q)
    (hl : (ofMethod n isMarker).LiveAt ((ofMethod n isMarker).liveness r params) r q l)
    (hstore : ∀ i, n.instrAt? k = some i → i.defines? ≠ some l) :
    (ofMethod n isMarker).LiveAt ((ofMethod n isMarker).liveness r params) r k l := by
  obtain ⟨j, hj, hlocation⟩ := Node.holds_iff.1 hk
  have hexit : ∀ {b : Nat}, j = node.instrs.length → b ∈ (ofMethod n isMarker).next node.id →
      l ∈ ((ofMethod n isMarker).liveness r params).liveIn b →
      (ofMethod n isMarker).LiveAt ((ofMethod n isMarker).liveness r params) r k l := by
    rintro b rfl hb hl
    exact hlocation ▸ liveAt_exit hnode hr hb hl
  have hhandlers := handlers_eq h hnode
  cases hflow with
  | @next b o block hblock ho =>
    have hi : n.instrAt? ⟨b, o⟩ = some block.instrs[o] :=
      Option.bind_eq_some_iff.2 ⟨block, hblock, List.getElem?_eq_getElem ho⟩
    have hdefines := hstore _ hi
    cases hlocation
    rcases instr_cases h hnode hj hi with hget | ⟨rfl, c, resume, hsuspend, -⟩
    · obtain ⟨hlt, hget⟩ := List.getElem?_eq_some_iff.1 hget
      refine ⟨node, hnode, hr, j, hj, rfl, ?_⟩
      rw [drop_eq_getElem_cons hlt, hget]
      exact .step hdefines (LiveAt.liveFrom h hl hnode hlt).2
    · obtain ⟨block', hblock', hpiece⟩ := pieceOf h hnode
      obtain ⟨-, -, node', hnode', rfl, horigin, hstart⟩ := hpiece.of_suspend hsuspend
      refine hexit rfl (mem_append_left _ ?_) (LiveAt.mem_liveIn h ?_ hnode')
      · simp [successors, node?_of_mem h hnode, Node.successors, hsuspend]
      · rw [Node.location, horigin, hstart]
        exact hl
  | @jump b target block hblock htarget =>
    cases congrArg Location.block hlocation
    obtain ⟨hlast, hleave⟩ := leave_of_end h hnode hj hblock
      (congrArg Location.offset hlocation).symm
    have hlt := (h.blocks block (mem_of_getElem? hblock)).targets target htarget
    refine hexit hlast (mem_append_left _ ?_) (LiveAt.mem_liveIn_block h hl hlt)
    simpa [successors, node?_of_mem h hnode, Node.successors, hleave] using htarget
  | @throw b o handler block i hblock hget hthrow hhandler =>
    have hi : n.instrAt? ⟨b, o⟩ = some i := Option.bind_eq_some_iff.2 ⟨block, hblock, hget⟩
    have hlive := LiveAt.mem_liveIn_block h hl (lt_of_mem_handlers h hhandler)
    cases hlocation
    rw [← hhandlers] at hhandler
    rcases instr_cases h hnode hj hi with hget | ⟨rfl, -⟩
    · obtain ⟨hlt, rfl⟩ := List.getElem?_eq_some_iff.1 hget
      refine ⟨node, hnode, hr, j, hj, rfl, ?_⟩
      rw [drop_eq_getElem_cons hlt]
      exact .throw hthrow hhandler hlive
    · exact hexit rfl (mem_append_right _ hhandler) hlive
  | @raise b handler block hblock hraise hhandler =>
    have hlive := LiveAt.mem_liveIn_block h hl (lt_of_mem_handlers h hhandler)
    cases congrArg Location.block hlocation
    obtain ⟨hlast, -⟩ := leave_of_end h hnode hj hblock (congrArg Location.offset hlocation).symm
    rw [← hhandlers] at hhandler
    exact hexit hlast (mem_append_right _ hhandler) hlive

/-- **Live locals are a demand** of the method, in the part that control gets to. -/
def demand (h : n.Sound) (hr : (ofMethod n isMarker).FlowSet r) (params : List Nat) :
    n.Demand where
  within k := ∃ node ∈ (ofMethod n isMarker).nodes, node.id ∈ r ∧ node.Holds k
  needs := (ofMethod n isMarker).LiveAt ((ofMethod n isMarker).liveness r params) r
  bound := by
    rintro k b ⟨node, hnode, -, hk⟩ hb
    obtain ⟨block, hblock, hle⟩ := names_of_holds h hnode hk
    cases hb.symm.trans hblock
    exact hle
  stays := by
    rintro k q ⟨node, hnode, hmem, hk⟩ hflow
    obtain ⟨node', hnode', hmem', hq, -⟩ := flow_holds h hr hnode hmem hk hflow
    exact ⟨node', hnode', hmem', hq⟩
  reads := by
    rintro k i l ⟨node, hnode, hmem, hk⟩ hi hu
    exact liveAt_of_uses h hnode hmem hk hi hu
  keeps := by
    rintro k q l ⟨node, hnode, hmem, hk⟩ hflow hl hstore
    exact liveAt_of_flow h hnode hmem hk hflow hl hstore

end Graph

/-! ### Locals that no path assigns -/

theorem Method.Reaches.offset_le {n : Method} {k : Location} (h : n.Reaches k) {b : Block}
    (hb : n.block? k.block = some b) : k.offset ≤ b.instrs.length := by
  rcases ReflTransGen.cases_tail h with rfl | ⟨j, -, hflow⟩
  · exact Nat.zero_le _
  · cases hflow with
    | next hblock ho =>
      cases hblock.symm.trans hb
      exact ho
    | jump _ _ => exact Nat.zero_le _
    | throw _ _ _ _ => exact Nat.zero_le _
    | raise _ _ _ => exact Nat.zero_le _

namespace Activation

variable {n : Method} {p : Program} {a b : Activation}

theorem Ends.location_eq {t : Terminator} (h : a.Ends t) (hreaches : a.method.Reaches a.location) :
    ∃ block, a.method.block? a.block = some block ∧ block.terminator = t ∧
      a.location = ⟨a.block, block.instrs.length⟩ := by
  obtain ⟨block, hblock, hnone, ht⟩ := h
  have hle := hreaches.offset_le hblock
  have hge := List.getElem?_eq_none_iff.1 hnone
  exact ⟨block, hblock, ht, congrArg (Location.mk a.block) (Nat.le_antisymm hle hge)⟩

/-- **A step of an activation is one of control.** -/
theorem Walks.flow (h : a.Walks p b) (hreaches : a.method.Reaches a.location) :
    a.method.Flow a.location b.location := by
  cases h with
  | next hi _ hb =>
    obtain ⟨block, hblock, hget⟩ := hi
    have hlocation : b.location = ⟨a.block, a.offset + 1⟩ := by rw [location, hb.block, hb.offset]
    exact hlocation ▸ .next hblock (List.getElem?_eq_some_iff.1 hget).1
  | caught hi _ hthrow hh =>
    obtain ⟨block, hblock, hget⟩ := hi
    exact .throw hblock hget hthrow (Program.mem_handlers_of_handler? hh)
  | @jump t target rest ht hjump =>
    obtain ⟨block, hblock, rfl, hend⟩ := ht.location_eq hreaches
    exact hend ▸ .jump hblock ((block.terminator.accurate a).jump hjump).1
  | raised ht hthrow hh =>
    obtain ⟨block, hblock, rfl, hend⟩ := ht.location_eq hreaches
    exact hend ▸ .raise hblock ((block.terminator.accurate a).throw hthrow).1
      (Program.mem_handlers_of_handler? hh)

/-- A step leaves a local as it is, or stores it. -/
theorem Walks.get_locals (h : a.Walks p b) (l : Nat) :
    b.locals.get l = a.locals.get l ∨ a.method.instrAt? a.location = some (.store l) := by
  cases h with
  | @next i b hi _ hb =>
    by_cases hdefines : i.defines? = some l
    · refine .inr ?_
      have hstore : i = .store l := by
        cases i <;> cases hdefines
        rfl
      obtain ⟨block, hblock, hget⟩ := hi
      exact hstore ▸ Option.bind_eq_some_iff.2 ⟨block, hblock, hget⟩
    · exact .inl (hb.locals l hdefines)
  | caught _ _ _ _ => exact .inl rfl
  | jump _ _ => exact .inl rfl
  | raised _ _ _ => exact .inl rfl

/-- **Locals that no path assigns stay null.** -/
theorem Walks.visits (h : a.Walks p b) (ha : a.method.Visits a.location a.locals) :
    b.method.Visits b.location b.locals := by
  have hflow := h.flow ha.reaches
  rw [h.method]
  refine ⟨ha.reaches.tail hflow, fun l hl => ?_⟩
  rcases h.get_locals l with heq | hstore
  · rw [heq]
    exact ha.unset l fun hassigned => hl (hassigned.flow hflow)
  · exact absurd (.inr ⟨a.location, ha.reaches, hstore, .single hflow⟩) hl

end Activation

/-- **Every activation is where control can be**, and its locals agree with the paths to it. -/
theorem Machine.Started.visits {p : Program} {m₀ m : Machine} (h : m₀.Started) (hm : m₀.Steps p m)
    {a : Activation} (ha : m.control = .exec a) : a.method.Visits a.location a.locals := by
  have hkept : Kept p fun a => a.method.Visits a.location a.locals :=
    ⟨fun n args depth => visits_start n args, fun ha hb => hb.visits ha⟩
  exact ((h.keeps _).steps hkept hm).running a ha

/-! ### Going on after a marker -/

/-- The locals with every one outside a list replaced by null. -/
def Locals.only (ls : Locals) (ids : List Nat) : Locals :=
  ⟨ls.cells.mapIdx fun l v => if l ∈ ids then v else .null⟩

theorem Locals.get_only (ls : Locals) (ids : List Nat) (l : Nat) :
    (ls.only ids).get l = if l ∈ ids then ls.get l else .null := by
  simp only [get, only, Array.getElem?_mapIdx]
  cases ls.cells[l]? <;> simp

/-- **The activation goes on after a marker**, at which it has waited with the given tasks below: it
gets the awaited value, unless there is none, or the exception. -/
def Activation.awaited (a : Activation) (c : Callee) (s : Store) (ts : List Task) :
    Outcome Value → Machine
  | .fulfilled v => ⟨s, .answer v, .caller a (!c.ret.isVoid) :: ts⟩
  | .rejected e => ⟨s, .unwind (.throw e), .caller a (!c.ret.isVoid) :: ts⟩

/-- The activation is at the marker that ends a node. -/
structure Activation.AtMarker (n : Method) (isMarker : String → Bool) (node : Node) (c : Callee)
    (resume : Nat) (a : Activation) : Prop where
  method : a.method = n
  mem : node ∈ (Graph.ofMethod n isMarker).nodes
  exit : node.exit = .suspend c resume
  location : a.location = node.exitLocation

/-- In a run that the host started, the activation is about to do its next step. -/
def Machine.Reaches (p : Program) (m : Machine) (a : Activation) : Prop :=
  m.control = .exec a ∧ ∃ m₀ : Machine, m₀.Started ∧ m₀.Steps p m

/-- **What is saved at a marker suffices.** -/
structure Liveness.Suffices (live : Liveness) (n : Method) (isMarker : String → Bool) (r : IdSet) :
    Prop where
  /-- After the marker of a node in the set, only those locals matter that are live where the method
  goes on, or in a handler there. -/
  agree : ∀ {a b : Activation} {node : Node} {c : Callee} {resume : Nat},
    a.AtMarker n isMarker node c resume → node.id ∈ r → b = { a with locals := b.locals } →
    (∀ l ∈ live.liveIn resume, b.locals.get l = a.locals.get l) →
    (∀ h ∈ (Graph.ofMethod n isMarker).handlers resume, ∀ l ∈ live.liveIn h,
      b.locals.get l = a.locals.get l) →
    ∀ (p : Program) (s : Store) (ts : List Task) (o : Outcome Value),
      (a.awaited c s ts o).LooksLike p (b.awaited c s ts o)
  /-- A run gets to no other marker, and there every local that is not defined is null. -/
  unset : ∀ {p : Program} {m : Machine} {a : Activation} {node : Node} {c : Callee} {resume : Nat},
    m.Reaches p a → a.AtMarker n isMarker node c resume →
    node.id ∈ r ∧ ∀ l, l ∉ live.definedOut (Graph.ofMethod n isMarker) r node.id →
      a.locals.get l = .null
  /-- The call of the marker, and what the method does after it, look the same with null for every
  local that is not saved. -/
  saved : ∀ {p : Program} {m : Machine} {a : Activation} {node : Node} {c : Callee} {resume : Nat},
    m.Reaches p a → a.AtMarker n isMarker node c resume →
    ∀ ls, ls = a.locals.only
        ((live.across (Graph.ofMethod n isMarker) n r node.id resume).map (·.1)) →
      m.LooksLike p { m with control := .exec { a with locals := ls } } ∧
      ∀ (stack : List Value) (s : Store) (ts : List Task) (o : Outcome Value),
        ({ a with stack := stack }.awaited c s ts o).LooksLike p
          ({ a with stack := stack, locals := ls }.awaited c s ts o)

section Suffices

variable {n : Method} {isMarker : String → Bool} {r : IdSet} {node : Node} {c : Callee}
  {resume l : Nat} {a : Activation} {ls : Locals} {params : List Nat}

theorem Graph.handlers_resume (h : n.Sound) (hnode : node ∈ (ofMethod n isMarker).nodes)
    (hexit : node.exit = .suspend c resume) :
    (ofMethod n isMarker).handlers resume = (ofMethod n isMarker).handlers node.id := by
  obtain ⟨block, -, hpiece⟩ := pieceOf h hnode
  obtain ⟨-, -, node', hnode', rfl, horigin, -⟩ := hpiece.of_suspend hexit
  rw [handlers_eq h hnode, handlers_eq h hnode', horigin]

/-- What is live at a marker is needed after it. -/
theorem Graph.LiveAt.mem_needed (h : n.Sound) (hnode : node ∈ (ofMethod n isMarker).nodes)
    (hexit : node.exit = .suspend c resume)
    (hl : (ofMethod n isMarker).LiveAt ((ofMethod n isMarker).liveness r params) r
      node.exitLocation l) :
    l ∈ ((ofMethod n isMarker).liveness r params).needed (ofMethod n isMarker) resume := by
  obtain ⟨-, hlive⟩ := hl.liveFrom h hnode (Nat.le_refl _)
  rw [drop_length] at hlive
  cases hlive with
  | @exit l q hq hl =>
    rw [Liveness.mem_needed, handlers_resume h hnode hexit]
    rcases mem_append.1 hq with hq | hq
    · have hq : q = resume := by
        simpa [successors, node?_of_mem h hnode, Node.successors, hexit] using hq
      exact .inl (hq ▸ hl)
    · exact .inr ⟨q, hq, hl⟩

/-- Locals that agree on what is needed after a marker. -/
theorem Activation.AtMarker.waits (ha : a.AtMarker n isMarker node c resume) (h : n.Sound)
    (hr : (Graph.ofMethod n isMarker).FlowSet r) (hnode : node.id ∈ r) (ls : Locals)
    (hls : ∀ l ∈ ((Graph.ofMethod n isMarker).liveness r (n.params.map (·.id))).needed
      (Graph.ofMethod n isMarker) resume, ls.get l = a.locals.get l) :
    (Graph.demand h hr (n.params.map (·.id))).Waits a ls where
  method := ha.method
  within := by
    rw [ha.location]
    exact ⟨node, ha.mem, hnode, Node.holds_iff.2 ⟨_, Nat.le_refl _, rfl⟩⟩
  locals l hl := by
    rw [ha.location] at hl
    exact hls l (Graph.LiveAt.mem_needed h ha.mem ha.exit hl)
  mayThrow := by
    obtain ⟨block, hblock, hpiece⟩ := Graph.pieceOf h ha.mem
    rw [ha.location]
    exact ⟨.invoke c, Option.bind_eq_some_iff.2 ⟨block, hblock, (hpiece.of_suspend ha.exit).2.1⟩,
      rfl⟩

theorem Method.Demand.Waits.awaited {D : n.Demand} (h : D.Waits a ls) (p : Program) (c : Callee)
    (s : Store) (ts : List Task) (o : Outcome Value) :
    (a.awaited c s ts o).LooksLike p ({ a with locals := ls }.awaited c s ts o) := by
  cases o with
  | fulfilled v => exact (InStep.waits (m := ⟨s, .answer v, []⟩) h).looksLike p
  | rejected e => exact (InStep.waits (m := ⟨s, .unwind (.throw e), []⟩) h).looksLike p

/-- The node of a marker that a run gets to is one that control gets to, and what is not defined
there is null. -/
theorem Activation.AtMarker.unset (ha : a.AtMarker n isMarker node c resume) (h : n.Sound)
    (hr : (Graph.ofMethod n isMarker).FlowSet r) (hvisits : a.method.Visits a.location a.locals) :
    node.id ∈ r ∧ ∀ l, l ∉ ((Graph.ofMethod n isMarker).liveness r (n.params.map (·.id))).definedOut
      (Graph.ofMethod n isMarker) r node.id → a.locals.get l = .null := by
  rw [ha.method, ha.location] at hvisits
  have hholds : node.Holds node.exitLocation := Node.holds_iff.2 ⟨_, Nat.le_refl _, rfl⟩
  obtain ⟨node', hnode', hmem, hholds'⟩ := Graph.exists_node_of_reaches h hr hvisits.reaches
  obtain rfl := Graph.node_unique h hnode' ha.mem hholds' hholds
  exact ⟨hmem, fun l hl => hvisits.unset l fun hassigned =>
    hl (Graph.mem_definedOut_of_assigned h hr hnode' hholds hassigned)⟩

/-- Locals with null for every one that is not saved: what is needed and not saved is not defined,
so it was null before. -/
theorem Activation.AtMarker.waits_only (ha : a.AtMarker n isMarker node c resume) (h : n.Sound)
    (hr : (Graph.ofMethod n isMarker).FlowSet r) (hvisits : a.method.Visits a.location a.locals) :
    (Graph.demand h hr (n.params.map (·.id))).Waits a (a.locals.only
      ((((Graph.ofMethod n isMarker).liveness r (n.params.map (·.id))).across
        (Graph.ofMethod n isMarker) n r node.id resume).map (·.1))) := by
  obtain ⟨hnode, hnull⟩ := ha.unset h hr hvisits
  refine ha.waits h hr hnode _ fun l hl => ?_
  rw [Locals.get_only]
  split
  · rfl
  · rename_i hacross
    exact (hnull l fun hdefined => hacross (Liveness.mem_across.2 ⟨hl, hdefined⟩)).symm

/-- **What is saved at a marker suffices**, in every method that passes the checks. -/
theorem Liveness.suffices_of_balance {m n : Method} {isMarker : String → Bool}
    {levels : List (Option Level)} (h : m.referenceDefects = []) (hn : m.withoutCleanup = .ok n)
    (hbalance : (Graph.ofMethod n isMarker).balance n.ret = .ok levels) :
    ((Graph.ofMethod n isMarker).liveness (Graph.reached levels) (n.params.map (·.id))).Suffices n
      isMarker (Graph.reached levels) := by
  have hsound : n.Sound :=
    (Method.grows_withoutCleanup (m.referenceDefects_eq_nil_iff.1 h) hn).sound
  have hflow := Graph.flowSet_reached hsound hbalance
  refine ⟨?_, ?_, ?_⟩
  · intro a b node c resume ha hnode hb hlive hhandlers p s ts o
    rw [hb]
    refine (ha.waits hsound hflow hnode b.locals fun l hl => ?_).awaited p c s ts o
    rcases Liveness.mem_needed.1 hl with hl | ⟨q, hq, hl⟩
    · exact hlive l hl
    · exact hhandlers q hq l hl
  · rintro p m a node c resume ⟨ha, m₀, hstart, hm⟩ hat
    exact hat.unset hsound hflow (hstart.visits hm ha)
  · rintro p ⟨s, control, ts⟩ a node c resume ⟨ha, m₀, hstart, hm⟩ hat ls rfl
    have hwaits := hat.waits_only hsound hflow (hstart.visits hm ha)
    cases ha
    refine ⟨(Method.Demand.InStep.runs hwaits.toAgree).looksLike p, fun stack s ts o => ?_⟩
    exact (hwaits.withStack stack).awaited p c s ts o

end Suffices

/-- The wait in the loop needs all three locals, and the wait in the handler none. -/
theorem suffices_of_balance_sumOfWaits :
    let g := Graph.ofMethod sumOfWaits ({} : Options).isMarker
    let r := Graph.reached sumOfWaits.levels
    let live := g.liveness r (sumOfWaits.params.map (·.id))
    (live.across g sumOfWaits r 2 5).map (·.1) = [0, 1, 2] ∧
      (live.across g sumOfWaits r 4 6).map (·.1) = [] ∧
      live.Suffices sumOfWaits ({} : Options).isMarker r := by
  have hself : sumOfWaits.withoutCleanup = .ok sumOfWaits := by decide +kernel
  exact ⟨by decide +kernel, by decide +kernel,
    Liveness.suffices_of_balance (by decide +kernel) hself (by decide +kernel)⟩

end Resumable
