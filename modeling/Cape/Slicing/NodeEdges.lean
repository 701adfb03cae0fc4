import Cape.Library.FinLiterals
import Cape.Slicing.BlockEdges

/-!
# Dependence edges of nodes

`Node`: the edges of a dependence graph, of four kinds, each with a set of the nodes that a node leads to
and a set of those that lead to it. `isolate` removes the edges of a node, takes it out of its block and
removes the block when it was the last one in it; `removeNode` and `deleteNode` isolate the node that
they take out of the graph.

The loops that remove the edges of a kind end with no edge of that kind (`mem_removeOutcoming`,
`mem_removeIncoming`), and each operation keeps the two directions converse. `isolate` has no loop for
the interference edges, and it uses the block of a call site after it may have removed that block
(`nodeEdges_right_iff`).
-/

set_option autoImplicit false

namespace Cape.Slicing.NodeEdges

open Cape.Library

inductive DependenceKind where
  | control
  | data
  | use
  | interference
  deriving DecidableEq

variable {N : Type} [DecidableEq N]

omit [DecidableEq N] in
/-- The nodes that a node leads to and those that lead to it. -/
structure DependenceEdges (N : Type) where
  edges : DependenceKind → N → Finset N
  revEdges : DependenceKind → N → Finset N

namespace DependenceEdges

def empty : DependenceEdges N := ⟨fun _ _ => ∅, fun _ _ => ∅⟩

/-- `_addBidirectionalEdge`, with whether the edge is new. -/
def addBidirectionalEdge (kind : DependenceKind) (g : DependenceEdges N) (ths n : N) :
    DependenceEdges N × Bool :=
  ({ revEdges := Function.update g.revEdges kind
        (Function.update (g.revEdges kind) n (insert ths (g.revEdges kind n)))
     edges := Function.update g.edges kind
        (Function.update (g.edges kind) ths (insert n (g.edges kind ths))) },
    decide (n ∉ g.edges kind ths))

/-- `_removeBidirectionalEdge`, with whether there was the edge. -/
def removeBidirectionalEdge (kind : DependenceKind) (g : DependenceEdges N) (ths n : N) :
    DependenceEdges N × Bool :=
  ({ revEdges := Function.update g.revEdges kind
        (Function.update (g.revEdges kind) n ((g.revEdges kind n).erase ths))
     edges := Function.update g.edges kind
        (Function.update (g.edges kind) ths ((g.edges kind ths).erase n)) },
    decide (ths ∈ g.revEdges kind n))

def addControlDependence (g : DependenceEdges N) (ths n : N) := addBidirectionalEdge .control g ths n

def addDataDependence (g : DependenceEdges N) (ths n : N) := addBidirectionalEdge .data g ths n

def addUseDependence (g : DependenceEdges N) (ths n : N) := addBidirectionalEdge .use g ths n

def addInterferenceDependence (g : DependenceEdges N) (ths n : N) :=
  addBidirectionalEdge .interference g ths n

def removeControlDependence (g : DependenceEdges N) (ths n : N) :=
  removeBidirectionalEdge .control g ths n

def removeDataDependence (g : DependenceEdges N) (ths n : N) := removeBidirectionalEdge .data g ths n

def removeUseDependence (g : DependenceEdges N) (ths n : N) := removeBidirectionalEdge .use g ths n

def removeInterferenceDependence (g : DependenceEdges N) (ths n : N) :=
  removeBidirectionalEdge .interference g ths n

/-- The two directions are converse. -/
def Converse (g : DependenceEdges N) : Prop := ∀ kind a b, b ∈ g.edges kind a ↔ a ∈ g.revEdges kind b

section Edges

variable {g : DependenceEdges N} {kind : DependenceKind} {a b : N}

theorem mem_edges_add {kind' : DependenceKind} {x y : N} :
    y ∈ (addBidirectionalEdge kind g a b).1.edges kind' x ↔
      y ∈ g.edges kind' x ∨ kind' = kind ∧ x = a ∧ y = b := by
  by_cases hkind : kind' = kind
  · subst hkind
    by_cases hx : x = a
    · simp [addBidirectionalEdge, hx, or_comm]
    · simp [addBidirectionalEdge, hx]
  · simp [addBidirectionalEdge, hkind]

theorem mem_revEdges_add {kind' : DependenceKind} {x y : N} :
    x ∈ (addBidirectionalEdge kind g a b).1.revEdges kind' y ↔
      x ∈ g.revEdges kind' y ∨ kind' = kind ∧ x = a ∧ y = b := by
  by_cases hkind : kind' = kind
  · subst hkind
    by_cases hy : y = b
    · simp [addBidirectionalEdge, hy, or_comm]
    · simp [addBidirectionalEdge, hy]
  · simp [addBidirectionalEdge, hkind]

theorem mem_edges_remove {kind' : DependenceKind} {x y : N} :
    y ∈ (removeBidirectionalEdge kind g a b).1.edges kind' x ↔
      y ∈ g.edges kind' x ∧ ¬ (kind' = kind ∧ x = a ∧ y = b) := by
  by_cases hkind : kind' = kind
  · subst hkind
    by_cases hx : x = a
    · simp [removeBidirectionalEdge, hx, and_comm]
    · simp [removeBidirectionalEdge, hx]
  · simp [removeBidirectionalEdge, hkind]

theorem mem_revEdges_remove {kind' : DependenceKind} {x y : N} :
    x ∈ (removeBidirectionalEdge kind g a b).1.revEdges kind' y ↔
      x ∈ g.revEdges kind' y ∧ ¬ (kind' = kind ∧ x = a ∧ y = b) := by
  by_cases hkind : kind' = kind
  · subst hkind
    by_cases hy : y = b
    · simp [removeBidirectionalEdge, hy, and_comm]
    · simp [removeBidirectionalEdge, hy]
  · simp [removeBidirectionalEdge, hkind]

theorem Converse.add (hg : g.Converse) (kind : DependenceKind) (a b : N) :
    (addBidirectionalEdge kind g a b).1.Converse := by
  intro kind' x y
  rw [mem_edges_add, mem_revEdges_add, hg]

theorem Converse.remove (hg : g.Converse) (kind : DependenceKind) (a b : N) :
    (removeBidirectionalEdge kind g a b).1.Converse := by
  intro kind' x y
  rw [mem_edges_remove, mem_revEdges_remove, hg]

end Edges

/-! ## The loops -/

section Loops

variable (order : Order N) (kind : DependenceKind)

/-- `while (!edges.empty()) remove(*edges.begin())` -/
def removeOutcoming (g : DependenceEdges N) (n : N) : DependenceEdges N :=
  match _h : order.toList (g.edges kind n) with
  | [] => g
  | m :: _ => removeOutcoming (removeBidirectionalEdge kind g n m).1 n
termination_by (g.edges kind n).card
decreasing_by
  have hm : m ∈ g.edges kind n := (order.mem_toList _ _).1 (_h ▸ List.mem_cons_self)
  refine Finset.card_lt_card ⟨fun x hx => (mem_edges_remove.1 hx).1, fun hsub => ?_⟩
  exact (mem_edges_remove.1 (hsub hm)).2 ⟨rfl, rfl, rfl⟩

/-- The same for the edges that lead to the node. -/
def removeIncoming (g : DependenceEdges N) (n : N) : DependenceEdges N :=
  match _h : order.toList (g.revEdges kind n) with
  | [] => g
  | cd :: _ => removeIncoming (removeBidirectionalEdge kind g cd n).1 n
termination_by (g.revEdges kind n).card
decreasing_by
  have hm : cd ∈ g.revEdges kind n := (order.mem_toList _ _).1 (_h ▸ List.mem_cons_self)
  refine Finset.card_lt_card ⟨fun x hx => (mem_revEdges_remove.1 hx).1, fun hsub => ?_⟩
  exact (mem_revEdges_remove.1 (hsub hm)).2 ⟨rfl, rfl, rfl⟩

omit [DecidableEq N] in
theorem toList_eq_nil {s : Finset N} (h : order.toList s = []) (x : N) : x ∉ s := by
  rw [← order.mem_toList, h]
  exact List.not_mem_nil

/-- **The loop** over the edges of a node leaves none of them, and all others. -/
theorem removeOutcoming_spec (g : DependenceEdges N) (n : N) (hg : g.Converse) :
    (removeOutcoming order kind g n).Converse ∧
    ∀ kind' x y, y ∈ (removeOutcoming order kind g n).edges kind' x ↔
      y ∈ g.edges kind' x ∧ ¬ (kind' = kind ∧ x = n) := by
  induction g using removeOutcoming.induct order kind n with
  | case1 g h =>
      have hstop : removeOutcoming order kind g n = g := by
        rw [removeOutcoming]
        split
        · rfl
        · next heq => exact absurd (h.symm.trans heq) (by simp)
      rw [hstop]
      refine ⟨hg, fun kind' x y => (and_iff_left_of_imp ?_).symm⟩
      rintro hy ⟨rfl, rfl⟩
      exact toList_eq_nil order h y hy
  | case2 g m l h ih =>
      have hturn : removeOutcoming order kind g n =
          removeOutcoming order kind (removeBidirectionalEdge kind g n m).1 n := by
        rw [removeOutcoming]
        split
        · next heq => exact absurd (h.symm.trans heq) (by simp)
        · next heq =>
            obtain ⟨rfl, -⟩ := List.cons.inj (h.symm.trans heq)
            rfl
      obtain ⟨hconverse, hedges⟩ := ih (hg.remove kind n m)
      rw [hturn]
      refine ⟨hconverse, fun kind' x y => ?_⟩
      rw [hedges, mem_edges_remove]
      tauto

theorem removeIncoming_spec (g : DependenceEdges N) (n : N) (hg : g.Converse) :
    (removeIncoming order kind g n).Converse ∧
    ∀ kind' x y, y ∈ (removeIncoming order kind g n).edges kind' x ↔
      y ∈ g.edges kind' x ∧ ¬ (kind' = kind ∧ y = n) := by
  induction g using removeIncoming.induct order kind n with
  | case1 g h =>
      have hstop : removeIncoming order kind g n = g := by
        rw [removeIncoming]
        split
        · rfl
        · next heq => exact absurd (h.symm.trans heq) (by simp)
      rw [hstop]
      refine ⟨hg, fun kind' x y => (and_iff_left_of_imp ?_).symm⟩
      rintro hy ⟨rfl, rfl⟩
      exact toList_eq_nil order h x ((hg _ _ _).1 hy)
  | case2 g m l h ih =>
      have hturn : removeIncoming order kind g n =
          removeIncoming order kind (removeBidirectionalEdge kind g m n).1 n := by
        rw [removeIncoming]
        split
        · next heq => exact absurd (h.symm.trans heq) (by simp)
        · next heq =>
            obtain ⟨rfl, -⟩ := List.cons.inj (h.symm.trans heq)
            rfl
      obtain ⟨hconverse, hedges⟩ := ih (hg.remove kind m n)
      rw [hturn]
      refine ⟨hconverse, fun kind' x y => ?_⟩
      rw [hedges, mem_edges_remove]
      tauto

/-- The edges of a kind from and to a node. -/
def removeEdges (g : DependenceEdges N) (n : N) : DependenceEdges N :=
  removeIncoming order kind (removeOutcoming order kind g n) n

def removeCDs (g : DependenceEdges N) (n : N) := removeEdges order .control g n

def removeDDs (g : DependenceEdges N) (n : N) := removeEdges order .data g n

def removeUses (g : DependenceEdges N) (n : N) := removeEdges order .use g n

theorem removeEdges_spec (g : DependenceEdges N) (n : N) (hg : g.Converse) :
    (removeEdges order kind g n).Converse ∧
    ∀ kind' x y, y ∈ (removeEdges order kind g n).edges kind' x ↔
      y ∈ g.edges kind' x ∧ ¬ (kind' = kind ∧ (x = n ∨ y = n)) := by
  obtain ⟨hconverse, hedges⟩ := removeOutcoming_spec order kind g n hg
  obtain ⟨hconverse', hedges'⟩ := removeIncoming_spec order kind _ n hconverse
  refine ⟨hconverse', fun kind' x y => ?_⟩
  rw [removeEdges, hedges', hedges]
  tauto

/-- `isolate`, the dependence edges. -/
def isolate (g : DependenceEdges N) (n : N) : DependenceEdges N :=
  removeCDs order (removeUses order (removeDDs order g n) n) n

/-- What `isolate` leaves: the edges between other nodes, and the interference edges. -/
theorem isolate_spec (g : DependenceEdges N) (n : N) (hg : g.Converse) :
    (isolate order g n).Converse ∧
    ∀ kind x y, y ∈ (isolate order g n).edges kind x ↔
      y ∈ g.edges kind x ∧ (kind = .interference ∨ x ≠ n ∧ y ≠ n) := by
  obtain ⟨hdata, hdata'⟩ := removeEdges_spec order .data g n hg
  obtain ⟨huse, huse'⟩ := removeEdges_spec order .use _ n hdata
  obtain ⟨hcontrol, hcontrol'⟩ := removeEdges_spec order .control _ n huse
  refine ⟨hcontrol, fun kind x y => ?_⟩
  rw [isolate, removeCDs, removeUses, removeDDs, hcontrol', huse', hdata']
  cases kind <;> simp

end Loops

end DependenceEdges

/-! ## Nodes in a graph -/

variable {K : Type} [DecidableEq K]

omit [DecidableEq N] [DecidableEq K] in
/-- The nodes of a dependence graph and the blocks they are in. -/
structure Placement (N K : Type) where
  nodes : Finset N
  basicBlock : N → Option K
  blockNodes : K → List N
  callSites : K → Finset N
  hasSubgraphs : N → Bool
  blocks : BBlocks K

omit [DecidableEq N] [DecidableEq K] in
structure DependenceGraph (N K : Type) where
  deps : DependenceEdges N
  placement : Placement N K

namespace Placement

variable (orderK : Order K) (orderE : Order (BBlockEdge K))

/-- `isolate`, the block: it is removed with its last node. The call sites of a block that has been
removed are no longer there. -/
def leaveBlock (p : Placement N K) (n : N) : Option (Placement N K) :=
  match p.basicBlock n with
  | none => some p
  | some b =>
      let rest := (p.blockNodes b).filter (· ≠ n)
      let blocks := if rest.isEmpty then p.blocks.isolate orderK orderE b else p.blocks
      let p := { p with
        blockNodes := Function.update p.blockNodes b rest
        blocks := blocks }
      if p.hasSubgraphs n then
        if rest.isEmpty then none
        else some { p with
          callSites := Function.update p.callSites b ((p.callSites b).erase n)
          basicBlock := Function.update p.basicBlock n none }
      else some { p with basicBlock := Function.update p.basicBlock n none }

omit [DecidableEq K] in
/-- The node is a call site and the only node of its block. -/
def LoneCallSite (p : Placement N K) (n : N) : Prop :=
  p.hasSubgraphs n = true ∧ ∃ b, p.basicBlock n = some b ∧ ∀ m ∈ p.blockNodes b, m = n

theorem leaveBlock_eq_none {p : Placement N K} {n : N} :
    p.leaveBlock orderK orderE n = none ↔ p.LoneCallSite n := by
  rw [leaveBlock, LoneCallSite]
  cases hblock : p.basicBlock n with
  | none => simp
  | some b =>
      dsimp only
      have hrest : ((p.blockNodes b).filter (· ≠ n)).isEmpty = true ↔
          ∀ m ∈ p.blockNodes b, m = n := by
        rw [List.isEmpty_iff, List.filter_eq_nil_iff]
        simp
      cases hsub : p.hasSubgraphs n with
      | false => simp
      | true =>
          rw [if_pos rfl]
          split
          · next hempty => simpa using hrest.1 hempty
          · next hnot =>
              refine iff_of_false (by simp) ?_
              rintro ⟨-, b', hb', hall⟩
              obtain rfl := Option.some.inj hb'
              exact hnot (hrest.2 hall)

end Placement

namespace DependenceGraph

variable (orderN : Order N) (orderK : Order K) (orderE : Order (BBlockEdge K))

/-- `Node::isolate` -/
def isolate (g : DependenceGraph N K) (n : N) : Option (DependenceGraph N K) :=
  (g.placement.leaveBlock orderK orderE n).map fun p => ⟨g.deps.isolate orderN n, p⟩

/-- `_removeNode`, for a node that is in the graph. -/
def removeNode (g : DependenceGraph N K) (n : N) : Option (DependenceGraph N K) :=
  if n ∈ g.placement.nodes then
    (isolate orderN orderK orderE g n).map fun g =>
      { g with placement := { g.placement with nodes := g.placement.nodes.erase n } }
  else some g

/-- The operations on the edges of nodes. -/
inductive Op (N : Type) where
  | add (kind : DependenceKind) (ths n : N)
  | remove (kind : DependenceKind) (ths n : N)
  | removeCDs (n : N)
  | removeDDs (n : N)
  | removeUses (n : N)
  | isolate (n : N)
  | removeNode (n : N)
  | deleteNode (n : N)

/-- The edges of a kind that are added and removed one by one. -/
def addEdge (g : DependenceEdges N) : DependenceKind → N → N → DependenceEdges N × Bool
  | .control => g.addControlDependence
  | .data => g.addDataDependence
  | .use => g.addUseDependence
  | .interference => g.addInterferenceDependence

def removeEdge (g : DependenceEdges N) : DependenceKind → N → N → DependenceEdges N × Bool
  | .control => g.removeControlDependence
  | .data => g.removeDataDependence
  | .use => g.removeUseDependence
  | .interference => g.removeInterferenceDependence

/-- An operation. A node that is deleted is removed before; without edges, its name may stand for a new
one. -/
def Op.step (g : DependenceGraph N K) : Op N → Option (DependenceGraph N K)
  | .add kind ths n => some { g with deps := (addEdge g.deps kind ths n).1 }
  | .remove kind ths n => some { g with deps := (removeEdge g.deps kind ths n).1 }
  | .removeCDs n => some { g with deps := g.deps.removeCDs orderN n }
  | .removeDDs n => some { g with deps := g.deps.removeDDs orderN n }
  | .removeUses n => some { g with deps := g.deps.removeUses orderN n }
  | .isolate n => DependenceGraph.isolate orderN orderK orderE g n
  | .removeNode n | .deleteNode n => DependenceGraph.removeNode orderN orderK orderE g n

/-- The node has no edges and is in no edge set, and the edges between the others are those that there
were. -/
def TakenOut (g g' : DependenceEdges N) (n : N) : Prop :=
  (∀ kind, g'.edges kind n = ∅ ∧ g'.revEdges kind n = ∅) ∧
  (∀ kind x, n ∉ g'.edges kind x ∧ n ∉ g'.revEdges kind x) ∧
  ∀ kind x y, x ≠ n → y ≠ n →
    (y ∈ g'.edges kind x ↔ y ∈ g.edges kind x) ∧ (x ∈ g'.revEdges kind y ↔ x ∈ g.revEdges kind y)

/-- The node that an operation isolates. -/
def Op.isolated (g : DependenceGraph N K) : Op N → Option N
  | .isolate n => some n
  | .removeNode n | .deleteNode n => if n ∈ g.placement.nodes then some n else none
  | _ => none

/-- What is asked of an operation. -/
def Op.Right (op : Op N) (g g' : DependenceGraph N K) : Prop :=
  g'.deps.Converse ∧ ∀ n ∈ op.isolated g, TakenOut g.deps g'.deps n

/-- A node that is isolated has no interference edge, and it is not a call site alone in its block. -/
def Op.Fits (op : Op N) (g : DependenceGraph N K) : Prop :=
  ∀ n ∈ op.isolated g, ¬ g.placement.LoneCallSite n ∧
    g.deps.edges .interference n = ∅ ∧ g.deps.revEdges .interference n = ∅

variable {orderN orderK orderE}

theorem isolate_eq_none {g : DependenceGraph N K} {n : N} :
    isolate orderN orderK orderE g n = none ↔ g.placement.LoneCallSite n := by
  rw [isolate, Option.map_eq_none_iff, Placement.leaveBlock_eq_none]

theorem deps_isolate {g g' : DependenceGraph N K} {n : N}
    (h : isolate orderN orderK orderE g n = some g') : g'.deps = g.deps.isolate orderN n := by
  obtain ⟨p, -, rfl⟩ := Option.map_eq_some_iff.1 h
  rfl

variable (orderN orderK orderE) in
/-- What an operation does where it isolates a node: it isolates it, or the block of the node is gone. -/
theorem step_of_isolated {op : Op N} {g : DependenceGraph N K} {n : N}
    (h : op.isolated g = some n) :
    (op.step orderN orderK orderE g = none ↔ g.placement.LoneCallSite n) ∧
    ∀ g', op.step orderN orderK orderE g = some g' → g'.deps = g.deps.isolate orderN n := by
  have hremove : ∀ m, (if m ∈ g.placement.nodes then some m else none) = some n →
      (removeNode orderN orderK orderE g m = none ↔ g.placement.LoneCallSite n) ∧
      ∀ g', removeNode orderN orderK orderE g m = some g' →
        g'.deps = g.deps.isolate orderN n := by
    intro m hm
    split at hm
    · next hmem =>
        obtain rfl := Option.some.inj hm
        rw [removeNode, if_pos hmem, Option.map_eq_none_iff, isolate_eq_none]
        refine ⟨Iff.rfl, fun g' hg' => ?_⟩
        obtain ⟨g₁, hg₁, rfl⟩ := Option.map_eq_some_iff.1 hg'
        have hdeps := deps_isolate hg₁
        exact hdeps
    · exact absurd hm (by simp)
  cases op with
  | isolate m =>
      obtain rfl := Option.some.inj h
      exact ⟨isolate_eq_none, fun g' => deps_isolate⟩
  | removeNode m => exact hremove m h
  | deleteNode m => exact hremove m h
  | _ => exact absurd h (by simp [Op.isolated])

variable (orderN orderK orderE) in
/-- The other operations keep the two directions converse. -/
theorem step_of_not_isolated {op : Op N} {g : DependenceGraph N K} (hg : g.deps.Converse)
    (h : op.isolated g = none) :
    ∃ g', op.step orderN orderK orderE g = some g' ∧ g'.deps.Converse := by
  have hremove : ∀ m, (if m ∈ g.placement.nodes then some m else none) = none →
      removeNode orderN orderK orderE g m = some g := by
    intro m hm
    split at hm
    · exact absurd hm (by simp)
    · next hmem => rw [removeNode, if_neg hmem]
  cases op with
  | add kind ths n =>
      refine ⟨_, rfl, ?_⟩
      cases kind <;> exact hg.add _ ths n
  | remove kind ths n =>
      refine ⟨_, rfl, ?_⟩
      cases kind <;> exact hg.remove _ ths n
  | removeCDs n => exact ⟨_, rfl, (DependenceEdges.removeEdges_spec orderN _ g.deps n hg).1⟩
  | removeDDs n => exact ⟨_, rfl, (DependenceEdges.removeEdges_spec orderN _ g.deps n hg).1⟩
  | removeUses n => exact ⟨_, rfl, (DependenceEdges.removeEdges_spec orderN _ g.deps n hg).1⟩
  | isolate n => exact absurd h (by simp [Op.isolated])
  | removeNode m => exact ⟨g, hremove m h, hg⟩
  | deleteNode m => exact ⟨g, hremove m h, hg⟩

/-- Isolating a node takes it out when it has no interference edge. -/
theorem takenOut_iff (orderN : Order N) {g : DependenceEdges N} (hg : g.Converse) (n : N) :
    TakenOut g (g.isolate orderN n) n ↔
      g.edges .interference n = ∅ ∧ g.revEdges .interference n = ∅ := by
  obtain ⟨hconverse, hedges⟩ := DependenceEdges.isolate_spec orderN g n hg
  have hrev : ∀ kind x y, x ∈ (g.isolate orderN n).revEdges kind y ↔
      x ∈ g.revEdges kind y ∧ (kind = .interference ∨ x ≠ n ∧ y ≠ n) := fun kind x y => by
    rw [← hconverse, hedges, hg]
  constructor
  · rintro ⟨hempty, -, -⟩
    constructor
    · refine Finset.eq_empty_of_forall_notMem fun y hy => ?_
      have hmem := (hedges .interference n y).2 ⟨hy, Or.inl rfl⟩
      rw [(hempty .interference).1] at hmem
      exact Finset.notMem_empty y hmem
    · refine Finset.eq_empty_of_forall_notMem fun x hx => ?_
      have hmem := (hrev .interference x n).2 ⟨hx, Or.inl rfl⟩
      rw [(hempty .interference).2] at hmem
      exact Finset.notMem_empty x hmem
  · rintro ⟨hfrom, hto⟩
    -- no edge of any kind is left at the node
    have hout : ∀ kind y, y ∉ (g.isolate orderN n).edges kind n := by
      intro kind y hy
      rcases ((hedges kind n y).1 hy) with ⟨hy, rfl | hne⟩
      · rw [hfrom] at hy
        exact Finset.notMem_empty y hy
      · exact hne.1 rfl
    have hin : ∀ kind x, x ∉ (g.isolate orderN n).revEdges kind n := by
      intro kind x hx
      rcases ((hrev kind x n).1 hx) with ⟨hx, rfl | hne⟩
      · rw [hto] at hx
        exact Finset.notMem_empty x hx
      · exact hne.2 rfl
    refine ⟨fun kind => ⟨Finset.eq_empty_of_forall_notMem (hout kind),
      Finset.eq_empty_of_forall_notMem (hin kind)⟩, fun kind x => ?_, fun kind x y hx hy => ?_⟩
    · exact ⟨fun h => hin kind x ((hconverse kind x n).1 h),
        fun h => hout kind x ((hconverse kind n x).2 h)⟩
    · rw [hedges, hrev]
      exact ⟨and_iff_left (Or.inr ⟨hx, hy⟩), and_iff_left (Or.inr ⟨hx, hy⟩)⟩

/-- A graph without dependence edges. -/
def ofPlacement (p : Placement N K) : DependenceGraph N K := ⟨DependenceEdges.empty, p⟩

/-- **Isolated nodes.** In a run of operations on a graph without dependence edges every edge set stays
the converse of its reverse set, and a node that is isolated, removed or deleted has no edge and is in
no edge set afterwards while the edges between the others stay, exactly when no operation isolates a
node with an interference edge or a call site that is alone in its block. -/
theorem nodeEdges_right_iff (orderN : Order N) (orderK : Order K) (orderE : Order (BBlockEdge K))
    (p : Placement N K) (ops : List (Op N)) :
    FittingRuns.RightRun (fun op g => Op.step orderN orderK orderE g op) id Op.Right ops
        (ofPlacement p) ↔
      FittingRuns.FitRun (fun op g => Op.step orderN orderK orderE g op) id Op.Fits ops
        (ofPlacement p) := by
  refine @FittingRuns.rightRun_iff _ _ _ _ _ _ _ (fun g => g.deps.Converse) (fun op g hg hfit => ?_)
    (fun op g g' hg hstep hright => ?_) _ ?_ ops
  · -- an operation that isolates no node, or the one that it isolates
    cases hisolated : op.isolated g with
    | none =>
        obtain ⟨g', hg', hconverse⟩ := step_of_not_isolated orderN orderK orderE hg hisolated
        exact ⟨g', hg', ⟨hconverse, by simp [hisolated]⟩, hconverse⟩
    | some n =>
        obtain ⟨hnone, hdeps⟩ := step_of_isolated orderN orderK orderE hisolated
        obtain ⟨hlone, hinterference⟩ := hfit n hisolated
        obtain ⟨g', hg'⟩ := Option.ne_none_iff_exists'.1 fun h => hlone (hnone.1 h)
        have hconverse : g'.deps.Converse := by
          rw [hdeps g' hg']
          exact (DependenceEdges.isolate_spec orderN g.deps n hg).1
        refine ⟨g', hg', ⟨hconverse, fun m hm => ?_⟩, hconverse⟩
        obtain rfl := Option.some.inj (hisolated.symm.trans hm)
        rw [hdeps g' hg']
        exact (takenOut_iff orderN hg n).2 hinterference
  · intro n hn
    obtain ⟨hnone, hdeps⟩ := step_of_isolated orderN orderK orderE hn
    refine ⟨fun hlone => ?_, ?_⟩
    · rw [hnone.2 hlone] at hstep
      exact absurd hstep (by simp)
    · have htaken := hright.2 n hn
      rw [hdeps g' hstep] at htaken
      exact (takenOut_iff orderN hg n).1 htaken
  · intro kind a b
    simp [ofPlacement, DependenceEdges.empty]

/-- Two nodes outside of blocks. -/
def twoNodes : Placement (Fin 2) Unit where
  nodes := {0, 1}
  basicBlock _ := none
  blockNodes _ := []
  callSites _ := ∅
  hasSubgraphs _ := false
  blocks := BBlocks.empty

/-- The store `0` interferes with the load `1`; it is isolated. -/
theorem nodeEdges_interference_left :
    ¬ FittingRuns.RightRun
      (fun op g => Op.step (Order.ascending (Fin 2)) (Order.ascending Unit)
        (@Order.ascending _ (BBlockEdge.linearOrder Unit)) g op) id Op.Right
      [.add .interference 0 1, .isolate 0] (ofPlacement twoNodes) := by
  rintro ⟨g₁, h₁, ⟨hconverse, -⟩, g₂, h₂, ⟨-, htaken⟩, -⟩
  obtain rfl := Option.some.inj h₁
  have htaken := htaken 0 rfl
  rw [deps_isolate h₂] at htaken
  have hempty := ((takenOut_iff (Order.ascending (Fin 2)) hconverse 0).1 htaken).1
  exact absurd hempty (by decide)

end DependenceGraph

end Cape.Slicing.NodeEdges
