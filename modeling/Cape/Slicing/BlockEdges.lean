import Cape.Library.Elimination
import Cape.Library.FallibleLoop
import Cape.Library.FinLiterals
import Cape.Library.FittingRuns
import Mathlib.Data.Finset.Card
import Mathlib.Data.Finset.Union
import Mathlib.Data.Prod.Lex

/-!
# Edges of basic blocks

`BBlock`: an edge of the control flow graph has a target and a label, so that several edges may lead to
one block, while the predecessors of a block are a plain set. `isolate` takes a block out of the graph;
its predecessors get edges to its successors, with the labels they had on their edges to it.

What the operations do to the edges is said by `mem_nextBBs_isolate` and its like. The two directions
stay consistent under the operations unless one of them forgets that an edge has a label
(`blockEdges_right_iff`): `removeSuccessor` takes the block out of the predecessors of a target that
has another edge from it, `removeSuccessorsTarget` does not take it out, and `removePredecessors`
takes away edges with the label 0 only.
-/

set_option autoImplicit false

namespace Cape.Slicing

open Cape.Library Relation

abbrev Label := Fin 256

instance neZeroLabels : @NeZero Nat Zero.ofOfNat0 256 := ⟨Nat.succ_ne_zero 255⟩

/-- `BBlockEdge` -/
structure BBlockEdge (B : Type) where
  target : B
  label : Label
  deriving DecidableEq

/-- `operator<` -/
abbrev BBlockEdge.linearOrder (B : Type) [LinearOrder B] : LinearOrder (BBlockEdge B) :=
  LinearOrder.lift' (fun e : BBlockEdge B => toLex (e.target, e.label)) fun e e' h => by
    obtain ⟨htarget, hlabel⟩ := Prod.mk.inj (toLex.injective h)
    cases e
    cases e'
    exact congrArg₂ BBlockEdge.mk htarget hlabel

variable {B : Type} [DecidableEq B]

omit [DecidableEq B] in
/-- The edges and the control dependences of the blocks. -/
structure BBlocks (B : Type) where
  nextBBs : B → Finset (BBlockEdge B)
  prevBBs : B → Finset B
  controlDeps : B → Finset B
  revControlDeps : B → Finset B

namespace BBlocks

/-- Blocks without edges. -/
def empty : BBlocks B := ⟨fun _ => ∅, fun _ => ∅, fun _ => ∅, fun _ => ∅⟩

def setNext (g : BBlocks B) (b : B) (next : Finset (BBlockEdge B)) : BBlocks B :=
  { g with nextBBs := Function.update g.nextBBs b next }

def setPrev (g : BBlocks B) (b : B) (prev : Finset B) : BBlocks B :=
  { g with prevBBs := Function.update g.prevBBs b prev }

/-- `addSuccessor`, with whether the edge is new. -/
def addSuccessor (g : BBlocks B) (b : B) (edge : BBlockEdge B) : BBlocks B × Bool :=
  ((g.setNext b (insert edge (g.nextBBs b))).setPrev edge.target
    (insert b (g.prevBBs edge.target)), decide (edge ∉ g.nextBBs b))

/-- `removeSuccessors` -/
def removeSuccessors (g : BBlocks B) (b : B) : BBlocks B :=
  { g with
    prevBBs := fun c =>
      if ∃ succ ∈ g.nextBBs b, succ.target = c then (g.prevBBs c).erase b else g.prevBBs c
    nextBBs := Function.update g.nextBBs b ∅ }

/-- `removeSuccessor` -/
def removeSuccessor (g : BBlocks B) (b : B) (succ : BBlockEdge B) : BBlocks B :=
  (g.setPrev succ.target ((g.prevBBs succ.target).erase b)).setNext b ((g.nextBBs b).erase succ)

/-- `removeSuccessorsTarget`, with the number of edges removed. -/
def removeSuccessorsTarget (g : BBlocks B) (b target : B) : BBlocks B × ℕ :=
  (g.setNext b ((g.nextBBs b).filter (·.target ≠ target)),
    ((g.nextBBs b).filter (·.target = target)).card)

/-- `removePredecessors`: `erase(this)` makes an edge with the label 0 of the block. -/
def removePredecessors (g : BBlocks B) (b : B) : BBlocks B :=
  { g with
    nextBBs := fun p => if p ∈ g.prevBBs b then (g.nextBBs p).erase ⟨b, 0⟩ else g.nextBBs p
    prevBBs := Function.update g.prevBBs b ∅ }

/-- `addControlDependence`, with whether it is new. -/
def addControlDependence (g : BBlocks B) (b c : B) : BBlocks B × Bool :=
  ({ g with
    controlDeps := Function.update g.controlDeps b (insert c (g.controlDeps b))
    revControlDeps := Function.update g.revControlDeps c (insert b (g.revControlDeps c)) },
    decide (c ∉ g.controlDeps b))

/-- The edges that a predecessor gets: one to every successor for every edge to the block, with the
label of the latter. -/
def newEdges (g : BBlocks B) (b pred : B) : Finset (BBlockEdge B) :=
  ((g.nextBBs pred).filter (·.target = b)).biUnion fun cur =>
    ((g.nextBBs b).filter (·.target ≠ b)).image fun succ => ⟨succ.target, cur.label⟩

/-- `isolate`, for one predecessor: its edges to the block make room for the new ones. -/
def isolatePred (order : Order (BBlockEdge B)) (b : B) (g : BBlocks B) (pred : B) : BBlocks B :=
  (order.toList (g.newEdges b pred)).foldl (fun g edge => (g.addSuccessor pred edge).1)
    (g.setNext pred ((g.nextBBs pred).filter (·.target ≠ b)))

/-- `isolate`, the control dependences. -/
def clearControlDependences (g : BBlocks B) (b : B) : BBlocks B :=
  { g with
    revControlDeps := fun c =>
      if c = b then ∅ else if c ∈ g.controlDeps b then (g.revControlDeps c).erase b
      else g.revControlDeps c
    controlDeps := fun c =>
      if c = b then ∅ else if c ∈ g.revControlDeps b then (g.controlDeps c).erase b
      else g.controlDeps c }

/-- `isolate`. The sets are ordered by addresses, so that the loops may go in any order. -/
def isolate (orderB : Order B) (order : Order (BBlockEdge B)) (g : BBlocks B) (b : B) : BBlocks B :=
  let g := (orderB.toList (g.prevBBs b)).foldl (isolatePred order b) g
  let g := (g.removeSuccessors b).setPrev b ∅
  g.clearControlDependences b

/-- There is an edge, whatever its label. -/
def Edge (g : BBlocks B) (a b : B) : Prop := ∃ label, ⟨b, label⟩ ∈ g.nextBBs a

/-- The predecessors are the blocks with an edge. -/
def Consistent (g : BBlocks B) : Prop := ∀ a b, g.Edge a b ↔ a ∈ g.prevBBs b

/-! ## What the operations do to the edges -/

section Edges

variable {g : BBlocks B} {b : B}

@[simp] theorem nextBBs_setNext (next : Finset (BBlockEdge B)) (x : B) :
    (g.setNext b next).nextBBs x = if x = b then next else g.nextBBs x := by
  simp [setNext, Function.update_apply]

@[simp] theorem prevBBs_setNext (next : Finset (BBlockEdge B)) :
    (g.setNext b next).prevBBs = g.prevBBs := rfl

@[simp] theorem nextBBs_setPrev (prev : Finset B) : (g.setPrev b prev).nextBBs = g.nextBBs := rfl

@[simp] theorem prevBBs_setPrev (prev : Finset B) (x : B) :
    (g.setPrev b prev).prevBBs x = if x = b then prev else g.prevBBs x := by
  simp [setPrev, Function.update_apply]

theorem mem_nextBBs_addSuccessor {edge e : BBlockEdge B} {x : B} :
    e ∈ (g.addSuccessor b edge).1.nextBBs x ↔ e ∈ g.nextBBs x ∨ x = b ∧ e = edge := by
  rw [addSuccessor, nextBBs_setPrev, nextBBs_setNext]
  split
  · next hx => simp [hx, or_comm]
  · next hx => simp [hx]

theorem mem_prevBBs_addSuccessor {edge : BBlockEdge B} {p x : B} :
    p ∈ (g.addSuccessor b edge).1.prevBBs x ↔ p ∈ g.prevBBs x ∨ x = edge.target ∧ p = b := by
  rw [addSuccessor, prevBBs_setPrev, prevBBs_setNext]
  split
  · next hx => simp [hx, or_comm]
  · next hx => simp [hx]

/-- Edges added one after the other. -/
theorem addSuccessors_spec (l : List (BBlockEdge B)) (g : BBlocks B) :
    (∀ x e, e ∈ (l.foldl (fun g edge => (g.addSuccessor b edge).1) g).nextBBs x ↔
      e ∈ g.nextBBs x ∨ x = b ∧ e ∈ l) ∧
    ∀ x p, p ∈ (l.foldl (fun g edge => (g.addSuccessor b edge).1) g).prevBBs x ↔
      p ∈ g.prevBBs x ∨ p = b ∧ ∃ e ∈ l, e.target = x := by
  induction l generalizing g with
  | nil => simp
  | cons edge l ih =>
      obtain ⟨hnext, hprev⟩ := ih (g.addSuccessor b edge).1
      constructor
      · intro x e
        rw [List.foldl_cons, hnext, mem_nextBBs_addSuccessor, List.mem_cons]
        tauto
      · intro x p
        rw [List.foldl_cons, hprev, mem_prevBBs_addSuccessor, List.exists_mem_cons_iff,
          eq_comm (a := x)]
        tauto

omit [DecidableEq B] in
theorem edge_iff {x y : B} : g.Edge x y ↔ ∃ e ∈ g.nextBBs x, e.target = y :=
  ⟨fun ⟨_, hl⟩ => ⟨_, hl, rfl⟩, fun ⟨e, he, h⟩ => ⟨e.label, h ▸ he⟩⟩

theorem mem_newEdges {pred : B} {e : BBlockEdge B} :
    e ∈ g.newEdges b pred ↔
      e.target ≠ b ∧ ⟨b, e.label⟩ ∈ g.nextBBs pred ∧ g.Edge b e.target := by
  simp only [newEdges, Finset.mem_biUnion, Finset.mem_filter, Finset.mem_image, edge_iff]
  constructor
  · rintro ⟨cur, ⟨hcur, rfl⟩, succ, ⟨hsucc, hne⟩, rfl⟩
    exact ⟨hne, hcur, succ, hsucc, rfl⟩
  · rintro ⟨hne, hcur, succ, hsucc, htarget⟩
    exact ⟨_, ⟨hcur, rfl⟩, succ, ⟨hsucc, htarget ▸ hne⟩, by rw [htarget]⟩

/-- One predecessor: its edges to the block have become edges around it. -/
theorem isolatePred_spec (order : Order (BBlockEdge B)) (g : BBlocks B) (b pred : B) :
    (∀ x e, e ∈ (g.isolatePred order b pred).nextBBs x ↔
      if x = pred then e.target ≠ b ∧ (e ∈ g.nextBBs x ∨
        ⟨b, e.label⟩ ∈ g.nextBBs x ∧ g.Edge b e.target) else e ∈ g.nextBBs x) ∧
    ∀ x p, p ∈ (g.isolatePred order b pred).prevBBs x ↔
      p ∈ g.prevBBs x ∨ p = pred ∧ x ≠ b ∧ g.Edge pred b ∧ g.Edge b x := by
  obtain ⟨hnext, hprev⟩ := addSuccessors_spec (b := pred) (order.toList (g.newEdges b pred))
    (g.setNext pred ((g.nextBBs pred).filter (·.target ≠ b)))
  constructor
  · intro x e
    rw [isolatePred, hnext, order.mem_toList, mem_newEdges, nextBBs_setNext]
    split
    · next hx =>
        subst hx
        simp only [Finset.mem_filter, true_and]
        tauto
    · next hx => simp [hx]
  · intro x p
    rw [isolatePred, hprev, prevBBs_setNext]
    refine or_congr_right (and_congr_right fun _ => ?_)
    simp only [order.mem_toList, mem_newEdges]
    constructor
    · rintro ⟨e, ⟨hne, hpred, hb⟩, rfl⟩
      exact ⟨hne, ⟨_, hpred⟩, hb⟩
    · rintro ⟨hne, ⟨l, hl⟩, hb⟩
      exact ⟨⟨x, l⟩, ⟨hne, hl, hb⟩, rfl⟩

theorem edge_isolatePred (order : Order (BBlockEdge B)) (g : BBlocks B) (b pred : B) {x y : B} :
    (g.isolatePred order b pred).Edge x y ↔
      if x = pred then y ≠ b ∧ (g.Edge x y ∨ g.Edge x b ∧ g.Edge b y) else g.Edge x y := by
  simp only [Edge, (isolatePred_spec order g b pred).1]
  split
  · next hx =>
      constructor
      · rintro ⟨l, hne, h | ⟨h, hb⟩⟩
        · exact ⟨hne, Or.inl ⟨l, h⟩⟩
        · exact ⟨hne, Or.inr ⟨⟨l, h⟩, hb⟩⟩
      · rintro ⟨hne, ⟨l, h⟩ | ⟨⟨l, h⟩, hb⟩⟩
        · exact ⟨l, hne, Or.inl h⟩
        · exact ⟨l, hne, Or.inr ⟨h, hb⟩⟩
  · exact Iff.rfl

/-- The predecessors one after the other: those done have their edges around the block. -/
theorem isolatePreds_spec (order : Order (BBlockEdge B)) (l : List B) (g : BBlocks B) (b : B) :
    (∀ x e, e ∈ (l.foldl (isolatePred order b) g).nextBBs x ↔
      if x ∈ l then e.target ≠ b ∧ (e ∈ g.nextBBs x ∨
        ⟨b, e.label⟩ ∈ g.nextBBs x ∧ g.Edge b e.target) else e ∈ g.nextBBs x) ∧
    ∀ x p, p ∈ (l.foldl (isolatePred order b) g).prevBBs x ↔
      p ∈ g.prevBBs x ∨ p ∈ l ∧ x ≠ b ∧ g.Edge p b ∧ g.Edge b x := by
  induction l generalizing g with
  | nil => simp
  | cons pred l ih =>
      obtain ⟨hnext, hprev⟩ := ih (g.isolatePred order b pred)
      have hstep := isolatePred_spec order g b pred
      have hedge := fun x y => edge_isolatePred order g b pred (x := x) (y := y)
      -- the successors of the block are the same, also when it is its own predecessor
      have hsucc : ∀ y, y ≠ b → ((g.isolatePred order b pred).Edge b y ↔ g.Edge b y) := by
        intro y hy
        rw [hedge]
        split
        · exact ⟨fun h => h.2.elim id And.right, fun h => ⟨hy, Or.inl h⟩⟩
        · exact Iff.rfl
      constructor
      · intro x e
        rw [List.foldl_cons, hnext]
        by_cases hx : x = pred
        · subst hx
          rw [if_pos List.mem_cons_self]
          simp only [hstep.1, if_true]
          split
          · by_cases he : e.target = b
            · simp [he]
            · simp [he]
          · exact Iff.rfl
        · simp only [List.mem_cons, hx, false_or, hstep.1, if_false]
          split
          · refine and_congr_right fun he => or_congr_right (and_congr_right fun _ => ?_)
            exact hsucc e.target he
          · exact Iff.rfl
      · intro x p
        rw [List.foldl_cons, hprev, hstep.2, List.mem_cons]
        by_cases hx : x = b
        · simp [hx]
        · rw [hsucc x hx, hedge]
          by_cases hp : p = pred
          · simp [hp]
          · simp [hp]

/-- **`isolate`**: the edges to the block have become edges around it, with their labels. -/
theorem mem_nextBBs_isolate {orderB : Order B} {order : Order (BBlockEdge B)}
    (hg : g.Consistent) {x : B} {e : BBlockEdge B} :
    e ∈ (g.isolate orderB order b).nextBBs x ↔ x ≠ b ∧ e.target ≠ b ∧
      (e ∈ g.nextBBs x ∨ ⟨b, e.label⟩ ∈ g.nextBBs x ∧ g.Edge b e.target) := by
  obtain ⟨hnext, -⟩ := isolatePreds_spec order (orderB.toList (g.prevBBs b)) g b
  simp only [isolate, clearControlDependences, nextBBs_setPrev, removeSuccessors,
    Function.update_apply]
  by_cases hx : x = b
  · simp [hx]
  · rw [if_neg hx, hnext]
    simp only [hx, ne_eq, not_false_eq_true, true_and]
    split
    · exact Iff.rfl
    · next hnot =>
        -- no edge leads from there to the block
        have hno : ∀ l, ⟨b, l⟩ ∉ g.nextBBs x := fun l hl =>
          hnot ((orderB.mem_toList _ _).2 ((hg x b).1 ⟨l, hl⟩))
        constructor
        · refine fun he => ⟨?_, Or.inl he⟩
          rintro rfl
          exact hno e.label he
        · rintro ⟨-, he | ⟨he, -⟩⟩
          · exact he
          · exact absurd he (hno e.label)

theorem edge_isolate {orderB : Order B} {order : Order (BBlockEdge B)} (hg : g.Consistent)
    {x y : B} : (g.isolate orderB order b).Edge x y ↔ Elimination.Without g.Edge b x y := by
  simp only [Edge, mem_nextBBs_isolate hg]
  constructor
  · rintro ⟨l, hx, hy, h | ⟨h, hb⟩⟩
    · exact ⟨hx, hy, Or.inl ⟨l, h⟩⟩
    · exact ⟨hx, hy, Or.inr ⟨⟨l, h⟩, hb⟩⟩
  · rintro ⟨hx, hy, ⟨l, h⟩ | ⟨⟨l, h⟩, hb⟩⟩
    · exact ⟨l, hx, hy, Or.inl h⟩
    · exact ⟨l, hx, hy, Or.inr ⟨h, hb⟩⟩

theorem mem_prevBBs_isolate {orderB : Order B} {order : Order (BBlockEdge B)} (hg : g.Consistent)
    {p x : B} :
    p ∈ (g.isolate orderB order b).prevBBs x ↔ Elimination.Without g.Edge b p x := by
  obtain ⟨hnext, hprev⟩ := isolatePreds_spec order (orderB.toList (g.prevBBs b)) g b
  simp only [orderB.mem_toList, ← hg _ b] at hprev
  simp only [isolate, clearControlDependences, prevBBs_setPrev]
  by_cases hx : x = b
  · simp [hx, Elimination.Without]
  · rw [if_neg hx, removeSuccessors]
    dsimp only
    have hpath : p ∈ ((orderB.toList (g.prevBBs b)).foldl (isolatePred order b) g).prevBBs x ↔
        g.Edge p x ∨ g.Edge p b ∧ g.Edge b x := by
      rw [hprev, ← hg]
      refine or_congr_right ⟨fun h => h.2.2, fun h => ⟨h.1, hx, h⟩⟩
    split
    · rw [Finset.mem_erase, hpath]
      exact ⟨fun h => ⟨h.1, hx, h.2⟩, fun h => ⟨h.1, h.2.2⟩⟩
    · next hnot =>
        -- the block itself is no predecessor then
        have hb : ¬ g.Edge b x := by
          rintro ⟨l, hl⟩
          refine hnot ⟨⟨x, l⟩, (hnext b _).2 ?_, rfl⟩
          split
          · exact ⟨hx, Or.inl hl⟩
          · exact hl
        rw [hpath]
        constructor
        · rintro (h | h)
          · exact ⟨fun heq => hb (heq ▸ h), hx, Or.inl h⟩
          · exact absurd h.2 hb
        · exact fun h => h.2.2

/-- The other operations. -/
theorem edge_addSuccessor {e : BBlockEdge B} {x y : B} :
    (g.addSuccessor b e).1.Edge x y ↔ g.Edge x y ∨ x = b ∧ y = e.target := by
  simp only [Edge, mem_nextBBs_addSuccessor, exists_or]
  refine or_congr_right ⟨?_, ?_⟩
  · rintro ⟨l, rfl, rfl⟩
    exact ⟨rfl, rfl⟩
  · rintro ⟨rfl, rfl⟩
    exact ⟨e.label, rfl, rfl⟩

theorem edge_removeSuccessors {x y : B} :
    (g.removeSuccessors b).Edge x y ↔ x ≠ b ∧ g.Edge x y := by
  by_cases hx : x = b
  · simp [Edge, removeSuccessors, hx]
  · simp [Edge, removeSuccessors, hx]

theorem edge_removeSuccessor {succ : BBlockEdge B} {x y : B} :
    (g.removeSuccessor b succ).Edge x y ↔
      ∃ l, ⟨y, l⟩ ∈ g.nextBBs x ∧ ¬ (x = b ∧ (⟨y, l⟩ : BBlockEdge B) = succ) := by
  simp only [Edge, removeSuccessor, nextBBs_setNext, nextBBs_setPrev]
  refine exists_congr fun l => ?_
  split
  · next hx => simp [hx, and_comm]
  · next hx => simp [hx]

theorem edge_removeSuccessorsTarget {target x y : B} :
    (g.removeSuccessorsTarget b target).1.Edge x y ↔ g.Edge x y ∧ ¬ (x = b ∧ y = target) := by
  simp only [Edge, removeSuccessorsTarget, nextBBs_setNext]
  by_cases hx : x = b
  · simp [hx]
  · simp [hx]

theorem edge_removePredecessors {x y : B} :
    (g.removePredecessors b).Edge x y ↔
      ∃ l, ⟨y, l⟩ ∈ g.nextBBs x ∧ ¬ (x ∈ g.prevBBs b ∧ y = b ∧ l = 0) := by
  simp only [Edge, removePredecessors]
  refine exists_congr fun l => ?_
  split
  · next hx => simp [hx, and_comm]
  · next hx => simp [hx]

end Edges

/-! ## Consistency -/

omit [DecidableEq B] in
theorem consistent_empty : (empty : BBlocks B).Consistent := by
  intro a b
  simp [Edge, empty]

theorem Consistent.addSuccessor {g : BBlocks B} (hg : g.Consistent) (b : B) (e : BBlockEdge B) :
    (g.addSuccessor b e).1.Consistent := by
  intro x y
  rw [edge_addSuccessor, mem_prevBBs_addSuccessor, hg]
  tauto

theorem Consistent.removeSuccessors {g : BBlocks B} (hg : g.Consistent) (b : B) :
    (g.removeSuccessors b).Consistent := by
  intro x y
  rw [edge_removeSuccessors, BBlocks.removeSuccessors]
  dsimp only
  rw [hg]
  split
  · rw [Finset.mem_erase]
  · next hnot =>
      refine and_iff_right_of_imp ?_
      rintro hx rfl
      exact hnot (edge_iff.1 ((hg x y).2 hx))

theorem Consistent.isolate {g : BBlocks B} (hg : g.Consistent) (orderB : Order B)
    (order : Order (BBlockEdge B)) (b : B) : (g.isolate orderB order b).Consistent := by
  intro x y
  rw [edge_isolate hg, mem_prevBBs_isolate hg]

/-- An edge of a block is removed: the target has no other edge from it. -/
theorem consistent_removeSuccessor_iff {g : BBlocks B} (hg : g.Consistent) {b : B}
    {succ : BBlockEdge B} :
    (g.removeSuccessor b succ).Consistent ↔
      ∀ l, ⟨succ.target, l⟩ ∈ g.nextBBs b → l = succ.label := by
  have hprev : ∀ x y, x ∈ (g.removeSuccessor b succ).prevBBs y ↔
      g.Edge x y ∧ ¬ (x = b ∧ y = succ.target) := by
    intro x y
    simp only [removeSuccessor, prevBBs_setNext, prevBBs_setPrev, hg x y]
    split
    · next hy => simp [hy, and_comm]
    · next hy => simp [hy]
  constructor
  · intro h l hl
    by_contra hne
    -- the other edge stays while the block is no predecessor any more
    have hedge : (g.removeSuccessor b succ).Edge b succ.target := by
      refine edge_removeSuccessor.2 ⟨l, hl, ?_⟩
      rintro ⟨-, heq⟩
      exact hne (congrArg BBlockEdge.label heq)
    exact ((hprev _ _).1 ((h b succ.target).1 hedge)).2 ⟨rfl, rfl⟩
  · intro h x y
    rw [hprev, edge_removeSuccessor]
    constructor
    · rintro ⟨l, hl, hnot⟩
      refine ⟨⟨l, hl⟩, ?_⟩
      rintro ⟨rfl, rfl⟩
      exact hnot ⟨rfl, by rw [h l hl]⟩
    · rintro ⟨⟨l, hl⟩, hnot⟩
      exact ⟨l, hl, fun heq => hnot ⟨heq.1, congrArg BBlockEdge.target heq.2⟩⟩

/-- The edges to a target are removed: there were none. -/
theorem consistent_removeSuccessorsTarget_iff {g : BBlocks B} (hg : g.Consistent) {b target : B} :
    (g.removeSuccessorsTarget b target).1.Consistent ↔ ¬ g.Edge b target := by
  have hprev : ∀ x y, x ∈ (g.removeSuccessorsTarget b target).1.prevBBs y ↔ g.Edge x y :=
    fun x y => (hg x y).symm
  constructor
  · intro h hedge
    have hboth := h b target
    rw [hprev, edge_removeSuccessorsTarget] at hboth
    exact (hboth.2 hedge).2 ⟨rfl, rfl⟩
  · intro h x y
    rw [hprev, edge_removeSuccessorsTarget]
    refine and_iff_left_of_imp ?_
    rintro hxy ⟨rfl, rfl⟩
    exact h hxy

/-- The predecessors are removed: their edges have the label 0. -/
theorem consistent_removePredecessors_iff {g : BBlocks B} (hg : g.Consistent) {b : B} :
    (g.removePredecessors b).Consistent ↔ ∀ p l, ⟨b, l⟩ ∈ g.nextBBs p → l = 0 := by
  have hprev : ∀ x y, x ∈ (g.removePredecessors b).prevBBs y ↔ y ≠ b ∧ g.Edge x y := by
    intro x y
    rw [hg, removePredecessors]
    by_cases hy : y = b
    · simp [hy]
    · simp [hy]
  constructor
  · -- an edge with another label is left, but its block is no predecessor any more
    intro h p l hl
    by_contra hne
    have hedge : (g.removePredecessors b).Edge p b :=
      edge_removePredecessors.2 ⟨l, hl, fun h => hne h.2.2⟩
    exact ((hprev _ _).1 ((h p b).1 hedge)).1 rfl
  · intro h x y
    rw [hprev, edge_removePredecessors]
    constructor
    · rintro ⟨l, hl, hnot⟩
      refine ⟨?_, l, hl⟩
      rintro rfl
      exact hnot ⟨(hg x y).1 ⟨l, hl⟩, rfl, h x l hl⟩
    · rintro ⟨hne, l, hl⟩
      exact ⟨l, hl, fun heq => hne heq.2.1⟩

/-! ## Runs -/

/-- The operations on the edges. -/
inductive Op (B : Type) where
  | addSuccessor (b : B) (edge : BBlockEdge B)
  | removeSuccessor (b : B) (edge : BBlockEdge B)
  | removeSuccessorsTarget (b target : B)
  | removeSuccessors (b : B)
  | removePredecessors (b : B)
  | addControlDependence (b c : B)
  | isolate (b : B)
  | remove (b : B)

/-- An operation. A block that is removed is isolated and deleted; without edges, its name may stand
for a new one. -/
def Op.step (orderB : Order B) (order : Order (BBlockEdge B)) (g : BBlocks B) : Op B → BBlocks B
  | .addSuccessor b edge => (g.addSuccessor b edge).1
  | .removeSuccessor b edge => g.removeSuccessor b edge
  | .removeSuccessorsTarget b target => (g.removeSuccessorsTarget b target).1
  | .removeSuccessors b => g.removeSuccessors b
  | .removePredecessors b => g.removePredecessors b
  | .addControlDependence b c => (g.addControlDependence b c).1
  | .isolate b | .remove b => g.isolate orderB order b

/-- The block is without edges, and the paths between the others are those that there were. -/
def TakenOut (g g' : BBlocks B) (b : B) : Prop :=
  (∀ x, ¬ g'.Edge x b ∧ ¬ g'.Edge b x) ∧
  ∀ x y, x ≠ b → y ≠ b → (TransGen g'.Edge x y ↔ TransGen g.Edge x y)

/-- What is asked of an operation. -/
def Op.Right (op : Op B) (g g' : BBlocks B) : Prop :=
  g'.Consistent ∧
  match op with
  | .isolate b | .remove b => TakenOut g g' b
  | _ => True

/-- No edge with another label is forgotten. -/
def Op.Fits (op : Op B) (g : BBlocks B) : Prop :=
  match op with
  | .removeSuccessor b edge => ∀ l, ⟨edge.target, l⟩ ∈ g.nextBBs b → l = edge.label
  | .removeSuccessorsTarget b target => ∀ l, ⟨target, l⟩ ∉ g.nextBBs b
  | .removePredecessors b => ∀ p l, ⟨b, l⟩ ∈ g.nextBBs p → l = 0
  | _ => True

theorem takenOut_isolate {g : BBlocks B} (hg : g.Consistent) (orderB : Order B)
    (order : Order (BBlockEdge B)) (b : B) : TakenOut g (g.isolate orderB order b) b := by
  have hedge : (g.isolate orderB order b).Edge = Elimination.Without g.Edge b := by
    funext x y
    exact propext (edge_isolate hg)
  refine ⟨fun x => ?_, fun x y hx hy => ?_⟩
  · rw [hedge]
    exact ⟨fun h => h.2.1 rfl, fun h => h.1 rfl⟩
  · rw [hedge]
    exact Elimination.transGen_without hx hy

theorem right_iff_fits {g : BBlocks B} (hg : g.Consistent) (orderB : Order B)
    (order : Order (BBlockEdge B)) (op : Op B) :
    op.Right g (op.step orderB order g) ↔ op.Fits g := by
  cases op with
  | addSuccessor b edge => exact iff_of_true ⟨hg.addSuccessor b edge, trivial⟩ trivial
  | removeSuccessor b edge => exact (and_iff_left trivial).trans (consistent_removeSuccessor_iff hg)
  | removeSuccessorsTarget b target =>
      refine (and_iff_left trivial).trans ((consistent_removeSuccessorsTarget_iff hg).trans ?_)
      exact not_exists
  | removeSuccessors b => exact iff_of_true ⟨hg.removeSuccessors b, trivial⟩ trivial
  | removePredecessors b => exact (and_iff_left trivial).trans (consistent_removePredecessors_iff hg)
  | addControlDependence b c => exact iff_of_true ⟨hg, trivial⟩ trivial
  | isolate b | remove b =>
      exact iff_of_true ⟨hg.isolate orderB order b, takenOut_isolate hg orderB order b⟩ trivial

/-- Every operation of a run on blocks without edges is right. -/
abbrev RunsRight (orderB : Order B) (order : Order (BBlockEdge B)) (ops : List (Op B)) : Prop :=
  FittingRuns.RightRun (fun (op : Op B) g => some (op.step orderB order g)) id Op.Right ops empty

/-- Every operation of the run fits the edges before it. -/
abbrev RunsFitting (orderB : Order B) (order : Order (BBlockEdge B)) (ops : List (Op B)) : Prop :=
  FittingRuns.FitRun (fun (op : Op B) g => some (op.step orderB order g)) id Op.Fits ops empty

/-- **The edges of blocks.** In a run of operations on blocks without edges the two directions are
consistent after every operation, and isolating or removing a block takes it out and keeps the paths
between the others, exactly when no `removeSuccessor` meets a second edge to its target, no
`removeSuccessorsTarget` an edge to its target, and no `removePredecessors` an edge to the block with
a label other than 0. -/
theorem blockEdges_right_iff (orderB : Order B) (order : Order (BBlockEdge B)) (ops : List (Op B)) :
    RunsRight orderB order ops ↔ RunsFitting orderB order ops := by
  refine @FittingRuns.rightRun_iff _ _ _ _ _ _ _ (fun g => g.Consistent) (fun op g hg hfit => ?_)
    (fun op g g' hg hstep hright => ?_) _ consistent_empty ops
  · have hright := (right_iff_fits hg orderB order op).2 hfit
    exact ⟨_, rfl, hright, hright.1⟩
  · obtain rfl := Option.some.inj hstep
    exact (right_iff_fits hg orderB order op).1 hright

/-- One of two edges to a block is removed: the block loses the predecessor that it still has. -/
theorem blockEdges_label_forgotten :
    ¬ RunsRight (Order.ascending (Fin 2)) (@Order.ascending _ (BBlockEdge.linearOrder (Fin 2)))
      [.addSuccessor 0 ⟨1, 0⟩, .addSuccessor 0 ⟨1, 1⟩, .removeSuccessor 0 ⟨1, 0⟩] := by
  rw [RunsRight, FittingRuns.RightRun]
  rintro ⟨g₁, h₁, -, g₂, h₂, -, g₃, h₃, ⟨hconsistent, -⟩, -⟩
  obtain rfl := Option.some.inj h₁
  obtain rfl := Option.some.inj h₂
  obtain rfl := Option.some.inj h₃
  -- the edge with the label 1 is there, the predecessor is not
  have hprev := (hconsistent 0 1).1 ⟨1, by decide⟩
  exact absurd hprev (by decide)

end BBlocks

end Cape.Slicing
