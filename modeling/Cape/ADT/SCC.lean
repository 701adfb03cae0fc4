import Cape.Library.Tarjan
import Mathlib.Data.Fintype.Card

/-!
# Components and their condensation

`SCC` is a search from one vertex; every vertex it visits remembers the number of its component. The
condensation has a vertex for every component. `scc_exact`: the search ends for every finite graph,
its components are the classes of vertices that reach one another, edges lead to the same component
or to one with a smaller number, and the condensation has the edges of the graph between components.
-/

set_option autoImplicit false

namespace Cape

open Library Library.Tarjan

universe u

variable {α : Type u} [DecidableEq α]

namespace SCC

/-- `compute`, with the fuel for its recursion. -/
def compute (successors : α → List α) (fuel : Nat) (start : α) : Option (State α) :=
  Tarjan.compute successors fuel .init start

/-- `getSCCId`: zero, unless it was set. -/
def getSCCId (s : State α) (n : α) : Nat := (s.component n).getD 0

end SCC

/-- `SCCCondensation::Node`. -/
structure SCCCondensation.Node (α : Type u) where
  component : List α
  successors : Finset Nat

namespace SCCCondensation

/-- The edges of one vertex that leave its component. -/
def addSuccessors (getSCCId : α → Nat) (idx : Nat) (succs : List α) (S : Finset Nat) : Finset Nat :=
  succs.foldl (fun S succ => if getSCCId succ ≠ idx then insert (getSCCId succ) S else S) S

/-- `compute`. -/
def compute (successors : α → List α) (getSCCId : α → Nat) (scc : List (List α)) : List (Node α) :=
  scc.mapIdx fun idx comp =>
    ⟨comp, comp.foldl (fun S node => addSuccessors getSCCId idx (successors node) S) ∅⟩

omit [DecidableEq α] in
theorem mem_addSuccessors {getSCCId : α → Nat} {idx j : Nat} {succs : List α} {S : Finset Nat} :
    j ∈ addSuccessors getSCCId idx succs S ↔
      j ∈ S ∨ ∃ y ∈ succs, getSCCId y = j ∧ j ≠ idx := by
  rw [addSuccessors]
  induction succs generalizing S with
  | nil => simp
  | cons y succs ih =>
      rw [List.foldl_cons, ih, List.exists_mem_cons_iff, ← or_assoc]
      refine or_congr_left ?_
      split
      · next hne =>
          rw [Finset.mem_insert, or_comm]
          refine or_congr_right ⟨?_, fun h => h.1.symm⟩
          rintro rfl
          exact ⟨rfl, hne⟩
      · next heq =>
          refine (or_iff_left ?_).symm
          rintro ⟨rfl, hne⟩
          exact heq hne

omit [DecidableEq α] in
theorem mem_foldl_addSuccessors {successors : α → List α} {getSCCId : α → Nat} {idx j : Nat}
    {comp : List α} {S : Finset Nat} :
    j ∈ comp.foldl (fun S node => addSuccessors getSCCId idx (successors node) S) S ↔
      j ∈ S ∨ ∃ x ∈ comp, ∃ y ∈ successors x, getSCCId y = j ∧ j ≠ idx := by
  induction comp generalizing S with
  | nil => simp
  | cons x comp ih => rw [List.foldl_cons, ih, mem_addSuccessors, List.exists_mem_cons_iff, or_assoc]

omit [DecidableEq α] in
/-- A vertex of the condensation. -/
theorem getElem?_compute (successors : α → List α) (getSCCId : α → Nat) {scc : List (List α)}
    {i : Nat} {C : List α} (h : scc[i]? = some C) :
    ∃ node, (compute successors getSCCId scc)[i]? = some node ∧ node.component = C ∧
      ∀ j, j ∈ node.successors ↔ j ≠ i ∧ ∃ x ∈ C, ∃ y ∈ successors x, getSCCId y = j := by
  refine ⟨_, by rw [compute, List.getElem?_mapIdx, h]; rfl, rfl, fun j => ?_⟩
  show j ∈ C.foldl _ ∅ ↔ _
  rw [mem_foldl_addSuccessors]
  constructor
  · rintro (hnone | ⟨x, hx, y, hy, hid, hne⟩)
    · exact absurd hnone (Finset.notMem_empty j)
    · exact ⟨hne, x, hx, y, hy, hid⟩
  · rintro ⟨hne, x, hx, y, hy, hid⟩
    exact Or.inr ⟨x, hx, y, hy, hid, hne⟩

end SCCCondensation

/-! ## What is computed -/

/-- What the search from a vertex has found. -/
structure SCC.Exact (successors : α → List α) (start : α) (s : State α) : Prop where
  /-- The assertion at the end. -/
  stack : s.stack = []
  /-- Two vertices are in one component if they reach one another. -/
  classes : ∀ x y, Reach successors start x → Reach successors start y →
    ((∃ C ∈ s.components, x ∈ C ∧ y ∈ C) ↔ Reach successors x y ∧ Reach successors y x)
  /-- The components have the vertices that are reached, each of them once. -/
  unique : ∀ x, Reach successors start x →
    ∃! i : Nat, ∃ C : List α, s.components[i]? = some C ∧ x ∈ C
  nodup : ∀ C ∈ s.components, C.Nodup
  reached : ∀ C ∈ s.components, ∀ x ∈ C, Reach successors start x
  getSCCId : ∀ (i : Nat) (C : List α), s.components[i]? = some C → ∀ x ∈ C, SCC.getSCCId s x = i
  /-- Edges lead to the same component or to one that came before. -/
  topological : ∀ x y, Reach successors start x → y ∈ successors x →
    SCC.getSCCId s y ≤ SCC.getSCCId s x
  /-- The condensation has the edges between different components. -/
  condensation : ∀ (i : Nat) (C : List α), s.components[i]? = some C → ∃ node,
    (SCCCondensation.compute successors (SCC.getSCCId s) s.components)[i]? = some node ∧
    node.component = C ∧ ∀ j, j ∈ node.successors ↔
      j ≠ i ∧ ∃ D, s.components[j]? = some D ∧ ∃ x ∈ C, ∃ y ∈ D, y ∈ successors x

variable {successors : α → List α} {start : α} {s : State α}

omit [DecidableEq α] in
theorem getSCCId_of_component {x : α} {i : Nat} (h : s.component x = some i) :
    SCC.getSCCId s x = i := by
  rw [SCC.getSCCId, h, Option.getD_some]

omit [DecidableEq α] in
/-- The numbers of the components go down along a path. -/
theorem component_le_of_reach (h : Components successors start s) {x y : α} {i : Nat}
    (hx : s.component x = some i) (hxy : Reach successors x y) :
    ∃ j ≤ i, s.component y = some j := by
  induction hxy with
  | refl => exact ⟨i, le_refl i, hx⟩
  | tail _ hedge ih =>
      rcases ih with ⟨j, hj, hy⟩
      rcases h.invariant.closed _ j hy _ hedge with ⟨k, hk, hz⟩
      exact ⟨k, hk.trans hj, hz⟩

omit [DecidableEq α] in
theorem classes_of_components (h : Components successors start s) {x y : α}
    (hx : Reach successors start x) :
    (∃ C ∈ s.components, x ∈ C ∧ y ∈ C) ↔ Reach successors x y ∧ Reach successors y x := by
  constructor
  · rintro ⟨C, hC, hxC, hyC⟩
    rcases h.invariant.strong C hC with ⟨r, -, hr⟩
    exact ⟨(hr x hxC).1.trans (hr y hyC).2, (hr y hyC).1.trans (hr x hxC).2⟩
  · rintro ⟨hxy, hyx⟩
    rcases (h.reachable x).2 hx with ⟨i, hi⟩
    -- the numbers of both are at most the other's
    rcases component_le_of_reach h hi hxy with ⟨j, hj, hy⟩
    rcases component_le_of_reach h hy hyx with ⟨i', hi', hx'⟩
    rw [hi] at hx'
    obtain rfl := Option.some.inj hx'
    obtain rfl := Nat.le_antisymm hj hi'
    rcases (h.invariant.members x j).1 hi with ⟨C, hC, hxC⟩
    rcases (h.invariant.members y j).1 hy with ⟨D, hD, hyD⟩
    rw [hC] at hD
    obtain rfl := Option.some.inj hD
    exact ⟨C, List.mem_of_getElem? hC, hxC, hyD⟩

omit [DecidableEq α] in
/-- What the search keeps says that its components are exact. -/
theorem exact_of_components (h : Components successors start s) : SCC.Exact successors start s := by
  have hmember : ∀ {i : Nat} {C : List α} {x : α}, s.components[i]? = some C → x ∈ C →
      s.component x = some i := fun hC hx => (h.invariant.members _ _).2 ⟨_, hC, hx⟩
  constructor
  case stack => exact h.stack
  case classes => exact fun x y hx _ => classes_of_components h hx
  case unique =>
    intro x hx
    rcases (h.reachable x).2 hx with ⟨i, hi⟩
    refine ⟨i, (h.invariant.members x i).1 hi, ?_⟩
    rintro j ⟨C, hC, hxC⟩
    have hj := hmember hC hxC
    rw [hi] at hj
    exact (Option.some.inj hj).symm
  case nodup => exact h.invariant.nodup
  case reached =>
    intro C hC x hx
    rcases List.getElem?_of_mem hC with ⟨i, hi⟩
    exact (h.reachable x).1 ⟨i, hmember hi hx⟩
  case getSCCId => exact fun i C hC x hx => getSCCId_of_component (hmember hC hx)
  case topological =>
    intro x y hx hxy
    rcases (h.reachable x).2 hx with ⟨i, hi⟩
    rcases h.invariant.closed x i hi y hxy with ⟨j, hj, hy⟩
    rw [getSCCId_of_component hi, getSCCId_of_component hy]
    exact hj
  case condensation =>
    intro i C hC
    rcases SCCCondensation.getElem?_compute successors (SCC.getSCCId s) hC with
      ⟨node, hnode, hcomponent, hsuccs⟩
    refine ⟨node, hnode, hcomponent, fun j => (hsuccs j).trans (and_congr_right fun _ => ?_)⟩
    constructor
    · rintro ⟨x, hx, y, hy, hid⟩
      -- the successor has a component too
      rcases h.invariant.closed x i (hmember hC hx) y hy with ⟨k, -, hk⟩
      rw [getSCCId_of_component hk] at hid
      obtain rfl := hid
      rcases (h.invariant.members y k).1 hk with ⟨D, hD, hyD⟩
      exact ⟨D, hD, x, hx, y, hyD, hy⟩
    · rintro ⟨D, hD, x, hx, y, hyD, hy⟩
      exact ⟨x, hx, y, hy, getSCCId_of_component (hmember hD hyD)⟩

/-- **The components are exact**, for every finite graph and every start. -/
theorem scc_exact [Fintype α] (successors : α → List α) (start : α) (extra : Nat) :
    ∃ s, SCC.compute successors (Fintype.card α + extra) start = some s ∧
      SCC.Exact successors start s := by
  have hfuel : (Finset.univ : Finset α).card ≤ Fintype.card α + extra := Nat.le_add_right _ _
  have hclosed : ∀ x ∈ (Finset.univ : Finset α), ∀ y ∈ successors x, y ∈ Finset.univ :=
    fun _ _ y _ => Finset.mem_univ y
  rcases exists_components hclosed (Finset.mem_univ start) hfuel with ⟨s, hs, hcomponents⟩
  exact ⟨s, hs, exact_of_components hcomponents⟩

end Cape
