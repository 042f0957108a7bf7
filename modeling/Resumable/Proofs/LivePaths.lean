/-
**Live locals along paths.**

The searches for live locals and for locals that may be defined are about paths: a local is live at
the start of a node if some path from there uses it before it stores it, and it may be defined at
the end of a node if it is a parameter or some path from the entry stores it.  A path goes past
instructions, to a handler before each instruction that may throw, and from the end of a node to its
successors and handlers; all this inside the nodes that control gets to.

What is live at one site follows from the entries of a table with a set of locals for each node, by
going backwards through the node.  A table whose entries come from paths is not too large, and a
table that contains what follows from it is not too small.

Main results:

* `Graph.usedFrom_of_mem_liveAt`, `Graph.mem_of_usedFrom` — tables that are not too large, not too
  small;
* `Liveness.mem_liveIn_iff`, `Liveness.mem_definedOut_iff` — **the searches find exactly the
  paths**.
-/

import Mathlib.Data.Nat.Init
import Resumable.Proofs.LiveLocals

set_option autoImplicit false

namespace Resumable

open Relation List

/-! ### Paths -/

/-- Where a path is: in a node, before the instruction with an index or behind the last one. -/
structure Site where
  node : Nat
  index : Nat

namespace Graph

/-- **One step of a path that does not store `l`**, inside a set of nodes: past an instruction, or
to a handler before an instruction that may throw, or from the end of a node to a successor or to a
handler. -/
inductive Passes (g : Graph) (r : IdSet) (l : Nat) : Site → Site → Prop where
  | instr {n k : Nat} {node : Node} {i : Instr} : g.node? n = some node →
      node.instrs[k]? = some i → i.defines? ≠ some l → g.Passes r l ⟨n, k⟩ ⟨n, k + 1⟩
  | thrown {n k q : Nat} {node : Node} {i : Instr} : g.node? n = some node →
      node.instrs[k]? = some i → i.mayThrow = true → q ∈ g.handlers n → q ∈ r →
      g.Passes r l ⟨n, k⟩ ⟨q, 0⟩
  | left {n q : Nat} {node : Node} : g.node? n = some node → q ∈ node.successors → q ∈ r →
      g.Passes r l ⟨n, node.instrs.length⟩ ⟨q, 0⟩
  | caught {n q : Nat} {node : Node} : g.node? n = some node → q ∈ g.handlers n → q ∈ r →
      g.Passes r l ⟨n, node.instrs.length⟩ ⟨q, 0⟩

/-- **Some path uses `l`** before it stores it. -/
def UsedFrom (g : Graph) (r : IdSet) (l : Nat) (s : Site) : Prop :=
  ∃ t node i, ReflTransGen (g.Passes r l) s t ∧ g.node? t.node = some node ∧
    node.instrs[t.index]? = some i ∧ i.uses? = some l

/-- Control can go from a node to another one in the set. -/
def NextIn (g : Graph) (r : IdSet) (n k : Nat) : Prop := k ∈ g.next n ∧ k ∈ r

/-- **Some path from the entry to the node stores `l`**, the node itself included. -/
def StoredUpTo (g : Graph) (r : IdSet) (l n : Nat) : Prop :=
  ∃ p node, ReflTransGen (g.NextIn r) g.entry p ∧ ReflTransGen (g.NextIn r) p n ∧
    g.node? p = some node ∧ l ∈ node.stored

theorem UsedFrom.of_path {g : Graph} {r : IdSet} {l : Nat} {s t : Site} (h : g.UsedFrom r l t)
    (hpath : ReflTransGen (g.Passes r l) s t) : g.UsedFrom r l s := by
  obtain ⟨u, node, i, hu, huse⟩ := h
  exact ⟨u, node, i, hpath.trans hu, huse⟩

end Graph

/-! ### Backwards through a node -/

/-- A set of locals for every node. -/
abbrev Table := Nat → IdSet

/-- The set with the entries of some nodes added. -/
def Table.join (t : Table) (ns : List Nat) (s : IdSet) : IdSet :=
  ns.foldl (fun s n => s.union (t n)) s

variable {l : Nat}

theorem Table.mem_join {t : Table} {ns : List Nat} {s : IdSet} :
    l ∈ t.join ns s ↔ l ∈ s ∨ ∃ n ∈ ns, l ∈ t n := by
  induction ns generalizing s with
  | nil => simp [join]
  | cons n ns ih =>
    have h : t.join (n :: ns) s = t.join ns (s.union (t n)) := rfl
    rw [h, ih, IdSet.mem_union]
    simp [or_assoc]

/-- The locals that are live before an instruction: what it stores is dropped, what a handler needs
is added if it may throw, and so is what it uses. -/
def Instr.liveBefore (caught : IdSet) (i : Instr) (after : IdSet) : IdSet :=
  let kept := after.filter (i.defines? ≠ some ·)
  let thrown := if i.mayThrow then kept.union caught else kept
  thrown.insertMany i.uses?.toList

theorem Instr.mem_liveBefore {caught after : IdSet} {i : Instr} :
    l ∈ i.liveBefore caught after ↔
      i.uses? = some l ∨ (i.mayThrow = true ∧ l ∈ caught) ∨ (i.defines? ≠ some l ∧ l ∈ after) := by
  by_cases h : i.mayThrow = true
  · simp [liveBefore, h, and_comm, or_comm]
  · simp [liveBefore, h, and_comm]

namespace Graph

/-- The locals that are live before some instructions of a node, by the entries of the nodes that
control can go to. -/
def liveBefore (g : Graph) (t : Table) (n : Nat) (node : Node) (is : List Instr) : IdSet :=
  let caught := t.join (g.handlers n) ∅
  is.foldr (·.liveBefore caught) (t.join node.successors caught)

/-- The locals that are live at a site, by the entries of the nodes that control can go to. -/
def liveAt (g : Graph) (t : Table) (s : Site) : IdSet :=
  match g.node? s.node with
  | some node => g.liveBefore t s.node node (node.instrs.drop s.index)
  | none => ∅

variable {g : Graph} {r : IdSet} {t : Table} {l n : Nat} {node : Node}

theorem mem_liveBefore_nil : l ∈ g.liveBefore t n node [] ↔
    ∃ q, (q ∈ node.successors ∨ q ∈ g.handlers n) ∧ l ∈ t q := by
  simp only [liveBefore, foldr_nil, Table.mem_join, IdSet.not_mem_empty, false_or]
  constructor
  · rintro (⟨q, hq, hl⟩ | ⟨q, hq, hl⟩)
    · exact ⟨q, .inr hq, hl⟩
    · exact ⟨q, .inl hq, hl⟩
  · rintro ⟨q, hq | hq, hl⟩
    · exact .inr ⟨q, hq, hl⟩
    · exact .inl ⟨q, hq, hl⟩

theorem mem_liveBefore_cons {i : Instr} {is : List Instr} :
    l ∈ g.liveBefore t n node (i :: is) ↔
      i.uses? = some l ∨ (i.mayThrow = true ∧ ∃ q ∈ g.handlers n, l ∈ t q) ∨
        (i.defines? ≠ some l ∧ l ∈ g.liveBefore t n node is) := by
  have h : g.liveBefore t n node (i :: is) =
      i.liveBefore (t.join (g.handlers n) ∅) (g.liveBefore t n node is) := rfl
  rw [h, Instr.mem_liveBefore, Table.mem_join]
  simp

variable {k : Nat}

theorem liveAt_eq (hnode : g.node? n = some node) :
    g.liveAt t ⟨n, k⟩ = g.liveBefore t n node (node.instrs.drop k) := by
  simp only [liveAt, hnode]

theorem mem_liveAt_of_getElem? {i : Instr} (hnode : g.node? n = some node)
    (hi : node.instrs[k]? = some i) :
    l ∈ g.liveAt t ⟨n, k⟩ ↔
      i.uses? = some l ∨ (i.mayThrow = true ∧ ∃ q ∈ g.handlers n, l ∈ t q) ∨
        (i.defines? ≠ some l ∧ l ∈ g.liveAt t ⟨n, k + 1⟩) := by
  rw [liveAt_eq hnode, liveAt_eq hnode, drop_eq_getElem?_toList_append, hi]
  exact mem_liveBefore_cons

theorem mem_liveAt_length (hnode : g.node? n = some node) :
    l ∈ g.liveAt t ⟨n, node.instrs.length⟩ ↔
      ∃ q, (q ∈ node.successors ∨ q ∈ g.handlers n) ∧ l ∈ t q := by
  rw [liveAt_eq hnode, drop_length]
  exact mem_liveBefore_nil

/-- **The entries come from paths**: if those of other nodes do, so does what is live at a site. -/
theorem usedFrom_of_mem_liveAt (ht : ∀ q l, l ∈ t q → q ∈ r ∧ g.UsedFrom r l ⟨q, 0⟩)
    (hnode : g.node? n = some node) (hk : k ≤ node.instrs.length) (h : l ∈ g.liveAt t ⟨n, k⟩) :
    g.UsedFrom r l ⟨n, k⟩ := by
  -- from the end of the node to its start
  induction hk using Nat.decreasingInduction with
  | self =>
    obtain ⟨q, hq, hl⟩ := (mem_liveAt_length hnode).1 h
    obtain ⟨hr, hused⟩ := ht q l hl
    rcases hq with hq | hq
    · exact hused.of_path (.single (.left hnode hq hr))
    · exact hused.of_path (.single (.caught hnode hq hr))
  | of_succ k hlt ih =>
    have hi : node.instrs[k]? = some node.instrs[k] := List.getElem?_eq_getElem hlt
    rcases (mem_liveAt_of_getElem? hnode hi).1 h with hu | ⟨hmay, q, hq, hl⟩ | ⟨hd, hl⟩
    · exact ⟨⟨n, k⟩, node, _, .refl, hnode, hi, hu⟩
    · obtain ⟨hr, hused⟩ := ht q l hl
      exact hused.of_path (.single (.thrown hnode hi hmay hq hr))
    · exact (ih hl).of_path (.single (.instr hnode hi hd))

/-- **One step of a path**: what is live where it leads to is live where it comes from. -/
theorem mem_liveAt_of_passes (ht : ∀ q ∈ r, ∀ l ∈ g.liveAt t ⟨q, 0⟩, l ∈ t q) {s s' : Site}
    (hstep : g.Passes r l s s') (h : l ∈ g.liveAt t s') : l ∈ g.liveAt t s := by
  cases hstep with
  | instr hnode hi hd => exact (mem_liveAt_of_getElem? hnode hi).2 (.inr (.inr ⟨hd, h⟩))
  | thrown hnode hi hmay hq hr =>
    exact (mem_liveAt_of_getElem? hnode hi).2 (.inr (.inl ⟨hmay, _, hq, ht _ hr l h⟩))
  | left hnode hq hr => exact (mem_liveAt_length hnode).2 ⟨_, .inl hq, ht _ hr l h⟩
  | caught hnode hq hr => exact (mem_liveAt_length hnode).2 ⟨_, .inr hq, ht _ hr l h⟩

/-- **A table that is closed has all paths**: what a path uses is in the entry of the node where it
starts. -/
theorem mem_of_usedFrom (ht : ∀ q ∈ r, ∀ l ∈ g.liveAt t ⟨q, 0⟩, l ∈ t q) (hn : n ∈ r)
    (h : g.UsedFrom r l ⟨n, 0⟩) : l ∈ t n := by
  obtain ⟨s, node, i, hpath, hnode, hi, hu⟩ := h
  have hlast : l ∈ g.liveAt t s := (mem_liveAt_of_getElem? hnode hi).2 (.inl hu)
  refine ht n hn l ?_
  generalize (⟨n, 0⟩ : Site) = first at hpath ⊢
  induction hpath using ReflTransGen.head_induction_on with
  | refl => exact hlast
  | head hstep _ ih => exact mem_liveAt_of_passes ht hstep ih

end Graph

/-! ### The searches -/

theorem beforeStore_any {is : List Instr} {p : Instr → Bool} (h : (beforeStore l is).any p = true) :
    ∃ (k : Nat) (i : Instr), is[k]? = some i ∧ p i = true ∧
      ∀ j < k, ∀ i' : Instr, is[j]? = some i' → i'.defines? ≠ some l := by
  induction is with
  | nil => simp [beforeStore] at h
  | cons i is ih =>
    by_cases hd : i.defines? = some l
    · simp [beforeStore, hd] at h
    · rw [beforeStore_cons is hd, any_cons, Bool.or_eq_true] at h
      rcases h with hi | his
      · exact ⟨0, i, rfl, hi, by simp⟩
      · obtain ⟨k, i', hk, hp, hbefore⟩ := ih his
        refine ⟨k + 1, i', hk, hp, fun j hj i'' hi'' => ?_⟩
        cases j with
        | zero =>
          cases hi''
          exact hd
        | succ j => exact hbefore j (Nat.lt_of_succ_lt_succ hj) i'' hi''

namespace Graph

variable {g : Graph} {r : IdSet} {l n q : Nat} {node : Node}

theorem passes_along {k : Nat} (hnode : g.node? n = some node) (hk : k ≤ node.instrs.length)
    (h : ∀ j < k, ∀ i, node.instrs[j]? = some i → i.defines? ≠ some l) :
    ReflTransGen (g.Passes r l) ⟨n, 0⟩ ⟨n, k⟩ := by
  induction k with
  | zero => exact .refl
  | succ k ih =>
    have hfirst := ih (Nat.le_of_succ_le hk) fun j hj => h j (Nat.lt_succ_of_lt hj)
    have hi : node.instrs[k]? = some node.instrs[k] := List.getElem?_eq_getElem hk
    exact hfirst.tail (.instr hnode hi (h k (Nat.lt_succ_self k) _ hi))

theorem usedFrom_of_exposes (hnode : g.node? n = some node) (h : node.exposes l = true) :
    g.UsedFrom r l ⟨n, 0⟩ := by
  obtain ⟨k, i, hi, hu, hbefore⟩ := beforeStore_any h
  have hk := Nat.le_of_lt (List.getElem?_eq_some_iff.1 hi).1
  exact ⟨⟨n, k⟩, node, i, passes_along hnode hk hbefore, hnode, hi, by simpa using hu⟩

/-- Where a node carries the value of a local, a path goes. -/
theorem passes_of_carries (h : g.carries l n q = true) (hq : q ∈ r) :
    ReflTransGen (g.Passes r l) ⟨n, 0⟩ ⟨q, 0⟩ := by
  unfold carries at h
  split at h
  · rename_i node hnode
    have hend (hpass : node.passes l = true) :
        ReflTransGen (g.Passes r l) ⟨n, 0⟩ ⟨n, node.instrs.length⟩ :=
      passes_along hnode (Nat.le_refl _) fun j _ i hi => by
        simpa using all_eq_true.1 hpass i (mem_of_getElem? hi)
    simp only [Bool.or_eq_true, Bool.and_eq_true, decide_eq_true_eq, Node.passesThrow] at h
    rcases h with ⟨hpass, hsucc⟩ | ⟨hpass | hthrow, hhandler⟩
    · exact (hend hpass).tail (.left hnode hsucc hq)
    · exact (hend hpass).tail (.caught hnode hhandler hq)
    · obtain ⟨k, i, hi, hmay, hbefore⟩ := beforeStore_any hthrow
      have hk := Nat.le_of_lt (List.getElem?_eq_some_iff.1 hi).1
      exact (passes_along hnode hk hbefore).tail (.thrown hnode hi hmay hhandler hq)
  · cases h

/-- What the search finds is on a path. -/
theorem usedFrom_of_mem_liveNodes (h : n ∈ g.liveNodes r l) :
    n ∈ r ∧ g.UsedFrom r l ⟨n, 0⟩ := by
  obtain ⟨s, hs, hreach⟩ := Search.mem_preorder_iff.1 h
  obtain ⟨hmem, hexposes⟩ := mem_filter.1 hs
  have hstart : s ∈ r ∧ g.UsedFrom r l ⟨s, 0⟩ := by
    refine ⟨hmem, ?_⟩
    cases hnode : g.node? s with
    | none => simp [hnode] at hexposes
    | some node => exact usedFrom_of_exposes hnode (by simpa [hnode] using hexposes)
  clear hs hmem hexposes h
  induction hreach with
  | refl => exact hstart
  | step _ hb _ ih =>
    obtain ⟨hmem, hcarries⟩ := mem_filter.1 hb
    exact ih ⟨hmem, hstart.2.of_path (passes_of_carries hcarries hstart.1)⟩

variable {p : Nat}

theorem mem_of_nextIn (hp : p ∈ r) (h : ReflTransGen (g.NextIn r) p n) : n ∈ r := by
  cases h with
  | refl => exact hp
  | tail _ hstep => exact hstep.2

/-- The backward search finds the nodes from which paths lead to the node. -/
theorem mem_ancestors_iff (hbound : ∀ k ∈ r, k < g.size) (hn : n ∈ r) :
    p ∈ g.ancestors r n ↔ p ∈ r ∧ ReflTransGen (g.NextIn r) p n := by
  rw [ancestors, Search.mem_preorder_iff]
  simp only [mem_singleton, exists_eq_left]
  constructor
  · intro h
    induction h with
    | refl a => exact ⟨hn, .refl⟩
    | step _ hb _ ih =>
      obtain ⟨hb, hnext⟩ := mem_filter.1 hb
      obtain ⟨hp, hpath⟩ := ih hb
      exact ⟨hp, hpath.tail ⟨by simpa using hnext, hn⟩⟩
  · rintro ⟨hp, hpath⟩
    clear hn
    induction hpath with
    | refl => exact .refl p
    | tail hpath hstep ih =>
      have hb := mem_of_nextIn hp hpath
      exact .step (hbound _ hstep.2) (mem_filter.2 ⟨hb, by simpa using hstep.1⟩) ih

theorem FlowSet.path_nextIn (h : g.FlowSet r) (hp : p ∈ r) : ReflTransGen (g.NextIn r) g.entry p :=
  (h.path p hp).lift id fun _ _ hab => ⟨hab.1.mem_next, hab.2⟩

end Graph

namespace Liveness

variable {g : Graph} {r : IdSet} {params : List Nat} {l n : Nat}

theorem liveFrom_of_mem_liveBefore {a : Liveness} {node : Node} {is : List Instr}
    (hnode : g.node? n = some node) (h : l ∈ g.liveBefore a.liveIn n node is) :
    a.LiveFrom g n is l := by
  induction is with
  | nil =>
    obtain ⟨q, hq, hl⟩ := Graph.mem_liveBefore_nil.1 h
    refine .exit (mem_append.2 (hq.imp_left fun hq => ?_)) hl
    simpa only [Graph.successors, hnode] using hq
  | cons i is ih =>
    rcases Graph.mem_liveBefore_cons.1 h with hu | ⟨hmay, q, hq, hl⟩ | ⟨hd, hl⟩
    · exact .use hu
    · exact .throw hmay hq hl
    · exact .step hd (ih hl)

/-- **A local is live at the start of a node** exactly if some path from there uses it before it
stores it. -/
theorem mem_liveIn_iff (hnext : ∀ n q, q ∈ g.next n → q < g.size) :
    l ∈ (g.liveness r params).liveIn n ↔ n ∈ r ∧ g.UsedFrom r l ⟨n, 0⟩ := by
  constructor
  · exact fun h => Graph.usedFrom_of_mem_liveNodes (mem_liveIn.1 h).2
  · rintro ⟨hn, hused⟩
    refine Graph.mem_of_usedFrom (fun q hq l hl => ?_) hn hused
    cases hnode : g.node? q with
    | none => simp [Graph.liveAt, hnode] at hl
    | some node =>
      rw [Graph.liveAt_eq hnode] at hl
      exact mem_liveIn_of_liveFrom hq hnode (hnext q) (liveFrom_of_mem_liveBefore hnode hl)

/-- **A local may be defined at the end of a node** exactly if it is a parameter or some path from
the entry to the node stores it. -/
theorem mem_definedOut_iff {a : Liveness} (hflow : g.FlowSet r) (hn : n ∈ r) :
    l ∈ a.definedOut g r n ↔ l ∈ a.params ∨ g.StoredUpTo r l n := by
  simp only [definedOut, IdSet.mem_ofList, mem_append, mem_flatMap,
    Graph.mem_ancestors_iff hflow.bound hn]
  refine or_congr_right ⟨?_, ?_⟩
  · rintro ⟨p, ⟨hp, hpath⟩, hstored⟩
    cases hnode : g.node? p with
    | none => simp [hnode] at hstored
    | some node =>
      exact ⟨p, node, hflow.path_nextIn hp, hpath, hnode, by simpa [hnode] using hstored⟩
  · rintro ⟨p, node, hfirst, hpath, hnode, hstored⟩
    exact ⟨p, ⟨Graph.mem_of_nextIn hflow.entry hfirst, hpath⟩, by simpa [hnode] using hstored⟩

end Liveness

end Resumable
