import Cape.Library.Elimination
import Cape.Library.FallibleLoop
import Cape.Library.FinLiterals
import Cape.Library.FittingRuns
import Mathlib.Data.List.Count
import Mathlib.Data.List.ProdSigma

/-!
# Nodes of subgraphs

`SubgraphNode`: the successors, predecessors, operands and users of the nodes of a graph, each a vector
that the operations edit by hand. An edge stands once in the successors and once in the predecessors,
as many times as there are parallel edges.

`Converse` says so of the edges, `UsersConverse` that the users of a node are those that have it as an
operand. The operations on the edges keep the first and those on the operands the second, apart from
`isolate` of a node that has an edge to itself and another successor: it adds successors to the node
while it goes over them (`subgraphNode_right_iff`).
-/

set_option autoImplicit false

namespace Cape.PointerAnalysis

open Cape.Library Relation

variable {N : Type} [DecidableEq N]

omit [DecidableEq N] in
/-- The vectors of the nodes. -/
structure SubgraphNodes (N : Type) where
  successors : N → List N
  predecessors : N → List N
  operands : N → List N
  users : N → List N

namespace SubgraphNodes

/-- Nodes that are in no graph. -/
def empty : SubgraphNodes N := ⟨fun _ => [], fun _ => [], fun _ => [], fun _ => []⟩

def setSuccessors (g : SubgraphNodes N) (n : N) (l : List N) : SubgraphNodes N :=
  { g with successors := Function.update g.successors n l }

def setPredecessors (g : SubgraphNodes N) (n : N) (l : List N) : SubgraphNodes N :=
  { g with predecessors := Function.update g.predecessors n l }

def setOperands (g : SubgraphNodes N) (n : N) (l : List N) : SubgraphNodes N :=
  { g with operands := Function.update g.operands n l }

def setUsers (g : SubgraphNodes N) (n : N) (l : List N) : SubgraphNodes N :=
  { g with users := Function.update g.users n l }

/-! ## Edges -/

def addSuccessor (g : SubgraphNodes N) (n succ : N) : SubgraphNodes N :=
  (g.setSuccessors n (g.successors n ++ [succ])).setPredecessors succ (g.predecessors succ ++ [n])

/-- `removeSingleSuccessor`, for a node with one successor. -/
def removeSingleSuccessor (g : SubgraphNodes N) (n : N) : SubgraphNodes N :=
  match g.successors n with
  | [] => g
  | succ :: _ =>
      (g.setPredecessors succ ((g.predecessors succ).filter (· ≠ n))).setSuccessors n []

def replaceSingleSuccessor (g : SubgraphNodes N) (n succ : N) : SubgraphNodes N :=
  (g.removeSingleSuccessor n).addSuccessor n succ

def swapSuccessors (g : SubgraphNodes N) (a b : N) : SubgraphNodes N :=
  (g.setSuccessors a (g.successors b)).setSuccessors b (g.successors a)

def swapPredecessors (g : SubgraphNodes N) (a b : N) : SubgraphNodes N :=
  (g.setPredecessors a (g.predecessors b)).setPredecessors b (g.predecessors a)

/-- In the predecessors of the nodes of a list, `n` is replaced by `this`. -/
def redirectPredecessors (g : SubgraphNodes N) (n this : N) (l : List N) : SubgraphNodes N :=
  l.foldl
    (fun g succ => g.setPredecessors succ
      ((g.predecessors succ).map fun p => if p = n then this else p)) g

/-- In the successors of the nodes of a list, `n` is replaced by `this`. -/
def redirectSuccessors (g : SubgraphNodes N) (n this : N) (l : List N) : SubgraphNodes N :=
  l.foldl
    (fun g pred => g.setSuccessors pred
      ((g.successors pred).map fun s => if s = n then this else s)) g

def insertAfter (g : SubgraphNodes N) (this n : N) : SubgraphNodes N :=
  let g := g.swapSuccessors this n
  let g := g.addSuccessor n this
  g.redirectPredecessors n this (g.successors this)

def insertBefore (g : SubgraphNodes N) (this n : N) : SubgraphNodes N :=
  let g := g.swapPredecessors this n
  let g := g.addSuccessor this n
  g.redirectSuccessors n this (g.predecessors this)

/-- `insertSequenceBefore`: the sequence from `first` to `second` comes before `this`. -/
def insertSequenceBefore (g : SubgraphNodes N) (this first second : N) : SubgraphNodes N :=
  let g := g.swapPredecessors this first
  let g := g.redirectSuccessors this first (g.predecessors first)
  g.addSuccessor second this

/-- `isolate`: the node is removed from the successors of its predecessors. -/
def leavePredecessors (g : SubgraphNodes N) (this : N) : SubgraphNodes N :=
  (g.predecessors this).foldl
    (fun g pred => g.setSuccessors pred ((g.successors pred).filter (· ≠ this))) g

/-- `isolate`: the node is removed from the predecessors of its successors. -/
def leaveSuccessors (g : SubgraphNodes N) (this : N) : SubgraphNodes N :=
  (g.successors this).foldl
    (fun g succ => g.setPredecessors succ ((g.predecessors succ).filter (· ≠ this))) g

/-- `isolate`: every predecessor is connected to every successor. A vector of the node itself is not
extended while the loop goes over it. -/
def connectAround (g : SubgraphNodes N) (this : N) : Option (SubgraphNodes N) :=
  ((g.predecessors this).product (g.successors this)).foldlM
    (fun g e => if e.1 = this ∨ e.2 = this then none else some (g.addSuccessor e.1 e.2)) g

def isolate (g : SubgraphNodes N) (this : N) : Option (SubgraphNodes N) :=
  (((g.leavePredecessors this).leaveSuccessors this).connectAround this).map fun g =>
    (g.setSuccessors this []).setPredecessors this []

/-! ## Operands -/

def addUser (g : SubgraphNodes N) (n nd : N) : SubgraphNodes N :=
  if nd ∈ g.users n then g else g.setUsers n (g.users n ++ [nd])

def removeUser (g : SubgraphNodes N) (n node : N) : SubgraphNodes N :=
  g.setUsers n ((g.users n).erase node)

def addOperand (g : SubgraphNodes N) (this n : N) : SubgraphNodes N :=
  (g.setOperands this (g.operands this ++ [n])).addUser n this

def removeAllOperands (g : SubgraphNodes N) (this : N) : SubgraphNodes N :=
  ((g.operands this).foldl (fun g o => g.removeUser o this) g).setOperands this []

variable (order : Order N)

/-- `removeDuplicitOperands`: the operands come back from a set that is sorted by addresses. -/
def removeDuplicitOperands (g : SubgraphNodes N) (this : N) : SubgraphNodes N :=
  if (g.operands this).Nodup then g
  else g.setOperands this (order.toList (g.operands this).toFinset)

/-- The operands `this` of a user are replaced by `nd`, of which it is a user then. -/
def replaceInUser (this nd : N) (removeDupl : Bool) (g : SubgraphNodes N) (user : N) :
    SubgraphNodes N :=
  let g :=
    if this ∈ g.operands user then
      (g.setOperands user ((g.operands user).map fun o => if o = this then nd else o)).addUser nd user
    else g
  if removeDupl then g.removeDuplicitOperands order user else g

def replaceAllUsesWith (g : SubgraphNodes N) (this nd : N) (removeDupl : Bool) : SubgraphNodes N :=
  ((g.users this).foldl (replaceInUser order this nd removeDupl) g).setUsers this []

/-! ## What stays consistent -/

/-- An edge stands as often in the successors as in the predecessors. -/
def Converse (g : SubgraphNodes N) : Prop :=
  ∀ n s, (g.successors n).count s = (g.predecessors s).count n

/-- The users of a node are the nodes that have it as an operand. -/
def UsersConverse (g : SubgraphNodes N) : Prop := ∀ n o, n ∈ g.users o ↔ o ∈ g.operands n

/-- There is an edge. -/
def Edge (g : SubgraphNodes N) (n s : N) : Prop := s ∈ g.successors n

theorem Converse.mem_iff {g : SubgraphNodes N} (hg : g.Converse) {n s : N} :
    s ∈ g.successors n ↔ n ∈ g.predecessors s := by
  rw [← List.count_pos_iff, hg, List.count_pos_iff]

section Fields

variable (g : SubgraphNodes N) (n : N) (l : List N)

@[simp] theorem successors_setSuccessors (x : N) :
    (g.setSuccessors n l).successors x = if x = n then l else g.successors x := by
  simp [setSuccessors, Function.update_apply]

@[simp] theorem predecessors_setSuccessors :
    (g.setSuccessors n l).predecessors = g.predecessors := rfl

@[simp] theorem successors_setPredecessors :
    (g.setPredecessors n l).successors = g.successors := rfl

@[simp] theorem predecessors_setPredecessors (x : N) :
    (g.setPredecessors n l).predecessors x = if x = n then l else g.predecessors x := by
  simp [setPredecessors, Function.update_apply]

@[simp] theorem operands_setOperands (x : N) :
    (g.setOperands n l).operands x = if x = n then l else g.operands x := by
  simp [setOperands, Function.update_apply]

@[simp] theorem users_setOperands : (g.setOperands n l).users = g.users := rfl

@[simp] theorem operands_setUsers : (g.setUsers n l).operands = g.operands := rfl

@[simp] theorem users_setUsers (x : N) :
    (g.setUsers n l).users x = if x = n then l else g.users x := by
  simp [setUsers, Function.update_apply]

end Fields

section Edges

variable {g : SubgraphNodes N}

theorem count_successors_addSuccessor (g : SubgraphNodes N) (a b n s : N) :
    ((g.addSuccessor a b).successors n).count s =
      (g.successors n).count s + if n = a ∧ s = b then 1 else 0 := by
  simp only [addSuccessor, successors_setPredecessors, successors_setSuccessors]
  by_cases hn : n = a
  · by_cases hs : s = b
    · simp [hn, hs]
    · simp [hn, hs, Ne.symm hs]
  · simp [hn]

theorem count_predecessors_addSuccessor (g : SubgraphNodes N) (a b n s : N) :
    ((g.addSuccessor a b).predecessors s).count n =
      (g.predecessors s).count n + if n = a ∧ s = b then 1 else 0 := by
  simp only [addSuccessor, predecessors_setPredecessors, predecessors_setSuccessors]
  by_cases hs : s = b
  · by_cases hn : n = a
    · simp [hn, hs]
    · simp [hn, hs, Ne.symm hn]
  · simp [hs]

theorem Converse.addSuccessor (hg : g.Converse) (a b : N) : (g.addSuccessor a b).Converse := by
  intro n s
  rw [count_successors_addSuccessor, count_predecessors_addSuccessor, hg]

theorem Converse.replaceSingleSuccessor (hg : g.Converse) {n : N}
    (hone : (g.successors n).length = 1) (succ : N) : (g.replaceSingleSuccessor n succ).Converse := by
  rw [SubgraphNodes.replaceSingleSuccessor, removeSingleSuccessor]
  obtain ⟨old, hold⟩ := List.length_eq_one_iff.1 hone
  rw [hold]
  refine Converse.addSuccessor (fun x s => ?_) n succ
  simp only [successors_setSuccessors, predecessors_setSuccessors, successors_setPredecessors,
    predecessors_setPredecessors]
  by_cases hx : x = n
  · -- the node has lost its one edge, and no other node had one from it
    subst hx
    rw [if_pos rfl, List.count_nil]
    split
    · exact (List.count_eq_zero.2 (by simp)).symm
    · next hs =>
        rw [← hg, hold]
        simp [Ne.symm hs]
  · rw [if_neg hx, hg]
    split
    · next hs => rw [hs, List.count_filter (by simpa using hx)]
    · rfl

/-- How often a node is there when `n` is replaced by another node. -/
theorem count_replace {n this : N} (hne : this ≠ n) (l : List N) (x : N) :
    (l.map fun p => if p = n then this else p).count x =
      if x = n then 0 else if x = this then l.count this + l.count n else l.count x := by
  induction l with
  | nil => simp
  | cons p l ih =>
      rw [List.map_cons, List.count_cons, ih]
      by_cases hp : p = n
      · -- one more that is replaced
        subst hp
        by_cases hx : x = p
        · simp [hx, hne]
        · by_cases hxt : x = this
          · subst hxt
            simp [hx, Ne.symm hx]
            omega
          · simp [hx, hxt, Ne.symm hxt, Ne.symm hx]
      · by_cases hx : x = n
        · simp [hx, hp]
        · by_cases hxt : x = this
          · subst hxt
            simp [hx, hp, List.count_cons]
            omega
          · simp [hx, hp, hxt, List.count_cons]

theorem predecessors_redirect (g : SubgraphNodes N) (n this : N) (l : List N) (s : N) :
    (g.redirectPredecessors n this l).predecessors s =
      if s ∈ l then (g.predecessors s).map fun p => if p = n then this else p
      else g.predecessors s := by
  induction l generalizing g with
  | nil => rfl
  | cons a l ih =>
      rw [redirectPredecessors, List.foldl_cons, ← redirectPredecessors, ih]
      by_cases hs : s = a
      · -- replacing twice is replacing once
        have htwice : ∀ p : N, (if (if p = n then this else p) = n then this
            else if p = n then this else p) = if p = n then this else p := by
          intro p
          by_cases hp : p = n
          · simp [hp]
          · simp [hp]
        subst hs
        rw [predecessors_setPredecessors, if_pos rfl, List.map_map, if_pos List.mem_cons_self]
        split
        · exact List.map_congr_left fun p _ => htwice p
        · rfl
      · simp [hs]

@[simp] theorem successors_redirect (g : SubgraphNodes N) (n this : N) (l : List N) :
    (g.redirectPredecessors n this l).successors = g.successors := by
  induction l generalizing g with
  | nil => rfl
  | cons a l ih =>
      rw [redirectPredecessors, List.foldl_cons, ← redirectPredecessors, ih]
      rfl

/-- **`insertAfter`**, for a node without edges. -/
theorem Converse.insertAfter (hg : g.Converse) {this n : N} (hpred : g.predecessors this = [])
    (hsucc : g.successors this = []) : (g.insertAfter this n).Converse := by
  have hnone : ∀ x, (g.successors x).count this = 0 := fun x => by rw [hg, hpred, List.count_nil]
  have hnone' : ∀ s, (g.predecessors s).count this = 0 := fun s => by
    rw [← hg, hsucc, List.count_nil]
  intro a s
  by_cases hne : this = n
  · -- the node gets an edge to itself
    subst hne
    have hswap : ∀ x, (g.swapSuccessors this this).successors x = g.successors x := fun x => by
      by_cases hx : x = this
      · simp [swapSuccessors, hx]
      · simp [swapSuccessors, hx]
    have hself : (fun p : N => if p = this then this else p) = id := by
      funext p
      exact ite_eq_right_iff.2 Eq.symm
    rw [SubgraphNodes.insertAfter, successors_redirect, predecessors_redirect, hself, List.map_id,
      ite_self, count_successors_addSuccessor, count_predecessors_addSuccessor, hswap, hg]
    rfl
  · have hsuccessors : ∀ x, (g.insertAfter this n).successors x =
        if x = n then [this] else if x = this then g.successors n else g.successors x := by
      intro x
      rw [SubgraphNodes.insertAfter, successors_redirect]
      by_cases hx : x = n
      · simp [SubgraphNodes.addSuccessor, swapSuccessors, hx, hsucc]
      · simp [SubgraphNodes.addSuccessor, swapSuccessors, hx]
    have hpredecessors : ∀ y, (g.insertAfter this n).predecessors y =
        if y ∈ g.successors n then (g.predecessors y).map fun p => if p = n then this else p
        else if y = this then [n] else g.predecessors y := by
      intro y
      have hthis : ((g.swapSuccessors this n).addSuccessor n this).successors this =
          g.successors n := by
        simp [SubgraphNodes.addSuccessor, swapSuccessors, hne]
      rw [SubgraphNodes.insertAfter, predecessors_redirect, hthis]
      by_cases hy : y = this
      · have hnot : this ∉ g.successors n := List.count_eq_zero.1 (hnone n)
        simp [SubgraphNodes.addSuccessor, swapSuccessors, hy, hnot, hpred]
      · simp [SubgraphNodes.addSuccessor, swapSuccessors, hy]
    rw [hsuccessors, hpredecessors]
    have hn : s ∉ g.successors n → (g.predecessors s).count n = 0 := fun h => by
      rw [← hg, List.count_eq_zero.2 h]
    by_cases ha : a = n
    · -- the only edge of `n` leads to the node
      subst ha
      rw [if_pos rfl]
      split
      · next hs =>
          rw [count_replace hne, if_pos rfl]
          have hnot : s ≠ this := fun heq => List.count_eq_zero.1 (hnone a) (heq ▸ hs)
          simp [Ne.symm hnot]
      · next hs =>
          split
          · next heq => simp [heq]
          · next heq => rw [hn hs]; simp [Ne.symm heq]
    · rw [if_neg ha]
      by_cases hat : a = this
      · -- the edges of `n` are those of the node now
        subst hat
        rw [if_pos rfl]
        split
        · rw [count_replace hne, if_neg ha, if_pos rfl, hnone', hg, Nat.zero_add]
        · next hs =>
            rw [List.count_eq_zero.2 hs]
            split
            · simp [Ne.symm ha]
            · rw [hnone']
      · rw [if_neg hat]
        split
        · rw [count_replace hne, if_neg ha, if_neg hat, hg]
        · split
          · next heq =>
              rw [heq, hnone]
              simp [Ne.symm ha]
          · rw [hg]

/-- The graph with its edges turned around. -/
def reverse (g : SubgraphNodes N) : SubgraphNodes N :=
  { g with
    successors := g.predecessors
    predecessors := g.successors }

omit [DecidableEq N] in
@[simp] theorem reverse_reverse (g : SubgraphNodes N) : g.reverse.reverse = g := rfl

theorem converse_reverse : g.reverse.Converse ↔ g.Converse :=
  ⟨fun h n s => (h s n).symm, fun h n s => (h s n).symm⟩

theorem redirectPredecessors_reverse (g : SubgraphNodes N) (n this : N) (l : List N) :
    g.reverse.redirectPredecessors n this l = (g.redirectSuccessors n this l).reverse := by
  induction l generalizing g with
  | nil => rfl
  | cons a l ih =>
      rw [redirectPredecessors, List.foldl_cons, redirectSuccessors, List.foldl_cons]
      exact ih (g.setSuccessors a ((g.successors a).map fun s => if s = n then this else s))

/-- `insertBefore` is `insertAfter` in the other direction. -/
theorem insertBefore_eq (g : SubgraphNodes N) (this n : N) :
    g.insertBefore this n = (g.reverse.insertAfter this n).reverse := by
  have hredirect := redirectPredecessors_reverse ((g.swapPredecessors this n).addSuccessor this n)
    n this (((g.swapPredecessors this n).addSuccessor this n).predecessors this)
  rw [insertBefore, insertAfter]
  exact congrArg reverse hredirect.symm

theorem Converse.insertBefore (hg : g.Converse) {this n : N} (hpred : g.predecessors this = [])
    (hsucc : g.successors this = []) : (g.insertBefore this n).Converse := by
  rw [insertBefore_eq, converse_reverse]
  exact (converse_reverse.2 hg).insertAfter hsucc hpred

theorem successors_redirectSuccessors (g : SubgraphNodes N) (n this : N) (l : List N) (x : N) :
    (g.redirectSuccessors n this l).successors x =
      if x ∈ l then (g.successors x).map fun p => if p = n then this else p
      else g.successors x := by
  have h := predecessors_redirect g.reverse n this l x
  rw [redirectPredecessors_reverse] at h
  exact h

theorem predecessors_redirectSuccessors (g : SubgraphNodes N) (n this : N) (l : List N) :
    (g.redirectSuccessors n this l).predecessors = g.predecessors := by
  have h := successors_redirect g.reverse n this l
  rw [redirectPredecessors_reverse] at h
  exact h

/-- **`insertSequenceBefore`**: the first node of the sequence takes over the predecessors. -/
theorem Converse.insertSequenceBefore (hg : g.Converse) {this first second : N}
    (hpred : g.predecessors first = []) : (g.insertSequenceBefore this first second).Converse := by
  have hnone : ∀ x, (g.successors x).count first = 0 := fun x => by rw [hg, hpred, List.count_nil]
  rw [SubgraphNodes.insertSequenceBefore]
  refine Converse.addSuccessor (fun a s => ?_) second this
  rw [successors_redirectSuccessors, predecessors_redirectSuccessors]
  by_cases hne : first = this
  · -- the vectors are swapped with themselves
    subst hne
    simp only [swapPredecessors, predecessors_setPredecessors, successors_setPredecessors, hpred]
    by_cases hs : s = first
    · simp [hs, hnone]
    · simp [hs, hg a s]
  · simp only [swapPredecessors, predecessors_setPredecessors, successors_setPredecessors,
      if_neg hne, if_true, hpred]
    have ha : a ∉ g.predecessors this → (g.successors a).count this = 0 := fun h => by
      rw [hg, List.count_eq_zero.2 h]
    -- the predecessors of `this` are now those of `first`, and their entries are rewritten
    split
    · rw [count_replace hne]
      by_cases hs : s = this
      · simp [hs, Ne.symm hne]
      · by_cases hsf : s = first
        · subst hsf
          rw [if_neg hs, if_pos rfl, if_pos rfl, hnone, hg, Nat.zero_add]
        · rw [if_neg hs, if_neg hsf, if_neg hsf, if_neg hs, hg]
    · next hmem =>
        by_cases hs : s = this
        · rw [hs, ha hmem, if_neg (Ne.symm hne), if_pos rfl, List.count_nil]
        · by_cases hsf : s = first
          · subst hsf
            rw [hnone, if_pos rfl, List.count_eq_zero.2 hmem]
          · rw [if_neg hsf, if_neg hs, hg]

/-! ## Isolation -/

/-- The node is removed from the successors of the nodes of a list. -/
theorem successors_leave (this : N) (l : List N) (g : SubgraphNodes N) (x : N) :
    (l.foldl (fun g pred =>
      g.setSuccessors pred ((g.successors pred).filter (· ≠ this))) g).successors x =
        (if x ∈ l then (g.successors x).filter (· ≠ this) else g.successors x) ∧
    (l.foldl (fun g pred =>
      g.setSuccessors pred ((g.successors pred).filter (· ≠ this))) g).predecessors =
        g.predecessors := by
  induction l generalizing g with
  | nil => simp
  | cons a l ih =>
      obtain ⟨hsucc, hpred⟩ := ih (g.setSuccessors a ((g.successors a).filter (· ≠ this)))
      rw [List.foldl_cons]
      refine ⟨hsucc.trans ?_, hpred⟩
      by_cases hx : x = a
      · simp [hx, List.filter_filter]
      · simp [hx]

theorem predecessors_leave (this : N) (l : List N) (g : SubgraphNodes N) (x : N) :
    (l.foldl (fun g succ =>
      g.setPredecessors succ ((g.predecessors succ).filter (· ≠ this))) g).predecessors x =
        (if x ∈ l then (g.predecessors x).filter (· ≠ this) else g.predecessors x) ∧
    (l.foldl (fun g succ =>
      g.setPredecessors succ ((g.predecessors succ).filter (· ≠ this))) g).successors =
        g.successors := by
  -- it is the loop over the predecessors in the reversed graph
  have hreverse : ∀ (l : List N) (g : SubgraphNodes N),
      l.foldl (fun g succ => g.setPredecessors succ ((g.predecessors succ).filter (· ≠ this))) g =
        (l.foldl (fun g pred => g.setSuccessors pred ((g.successors pred).filter (· ≠ this)))
          g.reverse).reverse := by
    intro l
    induction l with
    | nil => exact fun _ => rfl
    | cons a l ih =>
        intro g
        exact ih (g.setPredecessors a ((g.predecessors a).filter (· ≠ this)))
  rw [hreverse]
  exact successors_leave this l g.reverse x

/-- Before the connections the node is gone from all other nodes; its own predecessors are the same. -/
theorem leave_spec (hg : g.Converse) (this : N) :
    (∀ x, ((g.leavePredecessors this).leaveSuccessors this).successors x =
      (g.successors x).filter (· ≠ this)) ∧
    ((g.leavePredecessors this).leaveSuccessors this).predecessors this = g.predecessors this ∧
    ∀ x, x ≠ this → ((g.leavePredecessors this).leaveSuccessors this).predecessors x =
      (g.predecessors x).filter (· ≠ this) := by
  have hsucc : ∀ x, (g.leavePredecessors this).successors x =
      (g.successors x).filter (· ≠ this) := by
    intro x
    refine (successors_leave this (g.predecessors this) g x).1.trans ?_
    split
    · rfl
    · next hmem =>
        -- what is no predecessor does not have the node among its successors
        rw [← hg.mem_iff] at hmem
        refine (List.filter_eq_self.2 fun y hy => ?_).symm
        exact decide_eq_true fun heq => hmem (heq ▸ hy)
  have hpred : (g.leavePredecessors this).predecessors = g.predecessors :=
    (successors_leave this (g.predecessors this) g this).2
  have hleave := predecessors_leave this ((g.leavePredecessors this).successors this)
    (g.leavePredecessors this)
  rw [hsucc this, hpred] at hleave
  refine ⟨fun x => ?_, ?_, fun x hx => ?_⟩
  · rw [leaveSuccessors, hsucc this, (hleave x).2, hsucc x]
  · rw [leaveSuccessors, hsucc this, (hleave this).1, if_neg (by simp)]
  · rw [leaveSuccessors, hsucc this, (hleave x).1]
    split
    · rfl
    · next hmem =>
        rw [List.mem_filter, hg.mem_iff, not_and] at hmem
        refine (List.filter_eq_self.2 fun y hy => ?_).symm
        exact decide_eq_true fun heq => hmem (heq ▸ hy) (decide_eq_true hx)

/-- Edges that are added for a list of pairs. -/
theorem count_addSuccessors (l : List (N × N)) (g : SubgraphNodes N) (n s : N) :
    ((l.foldl (fun g e => g.addSuccessor e.1 e.2) g).successors n).count s =
      (g.successors n).count s + l.count (n, s) ∧
    ((l.foldl (fun g e => g.addSuccessor e.1 e.2) g).predecessors s).count n =
      (g.predecessors s).count n + l.count (n, s) := by
  induction l generalizing g with
  | nil => simp
  | cons e l ih =>
      obtain ⟨hsucc, hpred⟩ := ih (g.addSuccessor e.1 e.2)
      have hcount : (e :: l).count (n, s) = l.count (n, s) +
          if n = e.1 ∧ s = e.2 then 1 else 0 := by
        by_cases he : e = (n, s)
        · simp [he]
        · rw [List.count_cons_of_ne he, if_neg, Nat.add_zero]
          rintro ⟨rfl, rfl⟩
          exact he rfl
      rw [List.foldl_cons, hsucc, hpred, count_successors_addSuccessor,
        count_predecessors_addSuccessor, hcount]
      constructor <;> omega

/-- A node with an edge to itself has another successor. -/
def LoopWithSuccessor (g : SubgraphNodes N) (this : N) : Prop :=
  this ∈ g.successors this ∧ ∃ s ∈ g.successors this, s ≠ this

/-- The edges of the isolated node are those around it. -/
def aroundEdges (g : SubgraphNodes N) (this : N) : List (N × N) :=
  (g.predecessors this).product ((g.successors this).filter (· ≠ this))

theorem mem_aroundEdges {this n s : N} :
    (n, s) ∈ g.aroundEdges this ↔ n ∈ g.predecessors this ∧ s ∈ g.successors this ∧ s ≠ this := by
  simp [aroundEdges]

theorem guarded_foldlM (this : N) (l : List (N × N)) (g : SubgraphNodes N) :
    l.foldlM (fun g e => if e.1 = this ∨ e.2 = this then none else some (g.addSuccessor e.1 e.2)) g =
      if ∀ e ∈ l, e.1 ≠ this ∧ e.2 ≠ this then
        some (l.foldl (fun g e => g.addSuccessor e.1 e.2) g)
      else none := by
  induction l generalizing g with
  | nil => simp
  | cons e l ih =>
      rw [List.foldlM_cons]
      by_cases he : e.1 = this ∨ e.2 = this
      · rw [if_pos he, if_neg]
        · rfl
        · exact fun h => he.elim (h e List.mem_cons_self).1 (h e List.mem_cons_self).2
      · rw [if_neg he]
        refine (ih (g.addSuccessor e.1 e.2)).trans ?_
        rw [not_or] at he
        by_cases hrest : ∀ e ∈ l, e.1 ≠ this ∧ e.2 ≠ this
        · have hall : ∀ e' ∈ e :: l, e'.1 ≠ this ∧ e'.2 ≠ this :=
            List.forall_mem_cons.2 ⟨he, hrest⟩
          rw [if_pos hrest, if_pos hall, List.foldl_cons]
        · rw [if_neg hrest, if_neg fun h => hrest fun e' he' => h e' (List.mem_cons_of_mem e he')]

theorem connectAround_leave (hg : g.Converse) (this : N) :
    ((g.leavePredecessors this).leaveSuccessors this).connectAround this =
      if ∀ e ∈ g.aroundEdges this, e.1 ≠ this ∧ e.2 ≠ this then
        some ((g.aroundEdges this).foldl (fun g e => g.addSuccessor e.1 e.2)
          ((g.leavePredecessors this).leaveSuccessors this))
      else none := by
  obtain ⟨hsucc, hown, -⟩ := leave_spec hg this
  rw [connectAround, guarded_foldlM, hown, hsucc]
  rfl

/-- An edge around the node has an end there when the node has an edge to itself. -/
theorem not_aroundEdges_ne_iff (hg : g.Converse) (this : N) :
    (¬ ∀ e ∈ g.aroundEdges this, e.1 ≠ this ∧ e.2 ≠ this) ↔ g.LoopWithSuccessor this := by
  rw [LoopWithSuccessor, hg.mem_iff]
  constructor
  · intro h
    by_contra hnot
    refine h fun e he => ?_
    obtain ⟨hn, hs, hne⟩ := mem_aroundEdges.1 he
    exact ⟨fun heq => hnot ⟨heq ▸ hn, e.2, hs, hne⟩, hne⟩
  · rintro ⟨hmem, s, hs, hne⟩ h
    exact (h (this, s) (mem_aroundEdges.2 ⟨hmem, hs, hne⟩)).1 rfl

theorem count_filter_ne (this : N) (l : List N) (x : N) :
    (l.filter (· ≠ this)).count x = if x = this then 0 else l.count x := by
  split
  · next hx => exact List.count_eq_zero.2 (by simp [hx])
  · next hx => exact List.count_filter (by simpa using hx)

/-- **`isolate`**: it extends a vector it goes over, or the edges have become edges around the node. -/
theorem isolate_spec (hg : g.Converse) (this : N) :
    (g.isolate this = none ↔ g.LoopWithSuccessor this) ∧
    ∀ g', g.isolate this = some g' →
      (∀ n s, (g'.successors n).count s = if n = this ∨ s = this then 0 else
        (g.successors n).count s + (g.aroundEdges this).count (n, s)) ∧
      ∀ n s, (g'.predecessors s).count n = if n = this ∨ s = this then 0 else
        (g.predecessors s).count n + (g.aroundEdges this).count (n, s) := by
  obtain ⟨hsucc, -, hpred⟩ := leave_spec hg this
  constructor
  · rw [isolate, connectAround_leave hg, ← not_aroundEdges_ne_iff hg, Option.map_eq_none_iff]
    simp
  · intro g' hg'
    rw [isolate, connectAround_leave hg] at hg'
    obtain ⟨g₁, hg₁, rfl⟩ := Option.map_eq_some_iff.1 hg'
    split at hg₁
    · next hall =>
        obtain rfl := Option.some.inj hg₁
        constructor
        · intro n s
          simp only [successors_setPredecessors, successors_setSuccessors]
          by_cases hn : n = this
          · simp [hn]
          · rw [if_neg hn, (count_addSuccessors _ _ n s).1, hsucc, count_filter_ne]
            by_cases hs : s = this
            · -- no edge goes around the node to the node
              have hzero : (g.aroundEdges this).count (n, s) = 0 :=
                List.count_eq_zero.2 fun h => (mem_aroundEdges.1 h).2.2 hs
              simp [hs] at hzero ⊢
              exact hzero
            · simp [hn, hs]
        · intro n s
          simp only [predecessors_setPredecessors, predecessors_setSuccessors]
          by_cases hs : s = this
          · simp [hs]
          · rw [if_neg hs, (count_addSuccessors _ _ n s).2, hpred s hs, count_filter_ne]
            by_cases hn : n = this
            · have hzero : (g.aroundEdges this).count (n, s) = 0 :=
                List.count_eq_zero.2 fun h => (hall _ h).1 hn
              simp [hn] at hzero ⊢
              exact hzero
            · simp [hn, hs]
    · exact absurd hg₁ (by simp)

theorem converse_isolate (hg : g.Converse) {this : N} {g' : SubgraphNodes N}
    (h : g.isolate this = some g') : g'.Converse := by
  obtain ⟨hsucc, hpred⟩ := (isolate_spec hg this).2 g' h
  intro n s
  rw [hsucc, hpred, hg]

/-- The edges around the isolated node. -/
theorem edge_isolate (hg : g.Converse) {this : N} {g' : SubgraphNodes N}
    (h : g.isolate this = some g') (n s : N) :
    g'.Edge n s ↔ Elimination.Without g.Edge this n s := by
  obtain ⟨hsucc, -⟩ := (isolate_spec hg this).2 g' h
  rw [Edge, ← List.count_pos_iff, hsucc, Elimination.Without]
  by_cases hn : n = this
  · simp [hn]
  · by_cases hs : s = this
    · simp [hs]
    · rw [if_neg (by simp [hn, hs]), Nat.add_pos_iff_pos_or_pos, List.count_pos_iff,
        List.count_pos_iff, mem_aroundEdges, ← hg.mem_iff]
      exact ⟨fun h => ⟨hn, hs, h.imp id fun h => ⟨h.1, h.2.1⟩⟩,
        fun h => h.2.2.imp id fun h => ⟨h.1, h.2, hs⟩⟩

end Edges

/-! ## What the operations on edges do not touch -/

/-- The operands and users are the same. -/
def SameUses (g g' : SubgraphNodes N) : Prop := g'.operands = g.operands ∧ g'.users = g.users

omit [DecidableEq N] in
theorem sameUses_foldl {α : Type} {f : SubgraphNodes N → α → SubgraphNodes N}
    (hf : ∀ g a, SameUses g (f g a)) (l : List α) (g : SubgraphNodes N) :
    SameUses g (l.foldl f g) := by
  refine FallibleLoop.prefix_induction_foldl (I := fun _ g' => SameUses g g') ?_ ⟨rfl, rfl⟩
  exact fun _ a _ _ g' h => ⟨(hf g' a).1.trans h.1, (hf g' a).2.trans h.2⟩

theorem sameUses_insertAfter (g : SubgraphNodes N) (this n : N) :
    SameUses g (g.insertAfter this n) := by
  have hfold := sameUses_foldl (f := fun (g : SubgraphNodes N) succ => g.setPredecessors succ
      ((g.predecessors succ).map fun p => if p = n then this else p)) (fun _ _ => ⟨rfl, rfl⟩)
    (((g.swapSuccessors this n).addSuccessor n this).successors this)
    ((g.swapSuccessors this n).addSuccessor n this)
  exact hfold

theorem sameUses_insertBefore (g : SubgraphNodes N) (this n : N) :
    SameUses g (g.insertBefore this n) := by
  rw [insertBefore_eq]
  exact sameUses_insertAfter g.reverse this n

theorem sameUses_insertSequenceBefore (g : SubgraphNodes N) (this first second : N) :
    SameUses g (g.insertSequenceBefore this first second) := by
  have hfold := sameUses_foldl (f := fun (g : SubgraphNodes N) pred => g.setSuccessors pred
      ((g.successors pred).map fun s => if s = this then first else s)) (fun _ _ => ⟨rfl, rfl⟩)
    ((g.swapPredecessors this first).predecessors first) (g.swapPredecessors this first)
  exact hfold

theorem sameUses_isolate {g g' : SubgraphNodes N} {this : N} (h : g.isolate this = some g') :
    SameUses g g' := by
  obtain ⟨g₁, hg₁, rfl⟩ := Option.map_eq_some_iff.1 h
  rw [connectAround, guarded_foldlM] at hg₁
  split at hg₁
  · obtain rfl := Option.some.inj hg₁
    have h₁ : SameUses g (g.leavePredecessors this) := sameUses_foldl
      (f := fun (g : SubgraphNodes N) pred =>
        g.setSuccessors pred ((g.successors pred).filter (· ≠ this))) (fun _ _ => ⟨rfl, rfl⟩) _ _
    have h₂ : SameUses (g.leavePredecessors this) ((g.leavePredecessors this).leaveSuccessors this) :=
      sameUses_foldl (f := fun (g : SubgraphNodes N) succ =>
        g.setPredecessors succ ((g.predecessors succ).filter (· ≠ this))) (fun _ _ => ⟨rfl, rfl⟩) _ _
    have h₃ := sameUses_foldl (f := fun (g : SubgraphNodes N) e => g.addSuccessor e.1 e.2)
      (fun _ _ => ⟨rfl, rfl⟩)
      ((((g.leavePredecessors this).leaveSuccessors this).predecessors this).product
        (((g.leavePredecessors this).leaveSuccessors this).successors this))
      ((g.leavePredecessors this).leaveSuccessors this)
    exact ⟨h₃.1.trans (h₂.1.trans h₁.1), h₃.2.trans (h₂.2.trans h₁.2)⟩
  · exact absurd hg₁ (by simp)

/-! ## Operands and users -/

/-- The successors and predecessors are the same. -/
def SameEdges (g g' : SubgraphNodes N) : Prop :=
  g'.successors = g.successors ∧ g'.predecessors = g.predecessors

omit [DecidableEq N] in
theorem SameEdges.trans {g g' g'' : SubgraphNodes N} (h : SameEdges g g') (h' : SameEdges g' g'') :
    SameEdges g g'' :=
  ⟨h'.1.trans h.1, h'.2.trans h.2⟩

/-- What the operations on operands keep: the users of a node are those that have it as an operand, and
none is there twice. -/
structure UsesInv (g : SubgraphNodes N) : Prop where
  nodup : ∀ o, (g.users o).Nodup
  converse : g.UsersConverse

section Uses

variable {g : SubgraphNodes N}

theorem mem_users_addUser {n nd x y : N} :
    x ∈ (g.addUser n nd).users y ↔ x ∈ g.users y ∨ y = n ∧ x = nd := by
  rw [addUser]
  split
  · next h =>
      refine (or_iff_left_of_imp ?_).symm
      rintro ⟨rfl, rfl⟩
      exact h
  · rw [users_setUsers]
    split
    · next hy => simp [hy]
    · next hy => simp [hy]

theorem nodup_addUser (h : ∀ o, (g.users o).Nodup) (n nd : N) :
    ∀ o, ((g.addUser n nd).users o).Nodup := by
  intro o
  rw [addUser]
  split
  · exact h o
  · next hmem =>
      rw [users_setUsers]
      split
      · exact (List.nodup_append.2 ⟨h n, List.nodup_singleton nd, fun a ha b hb heq =>
          hmem (List.mem_singleton.1 hb ▸ heq ▸ ha)⟩)
      · exact h o

@[simp] theorem operands_addUser (n nd : N) : (g.addUser n nd).operands = g.operands := by
  rw [addUser]
  split <;> rfl

theorem sameEdges_addUser (g : SubgraphNodes N) (n nd : N) : SameEdges g (g.addUser n nd) := by
  rw [addUser]
  split <;> exact ⟨rfl, rfl⟩

theorem UsesInv.addOperand (hg : g.UsesInv) (this n : N) : (g.addOperand this n).UsesInv := by
  refine ⟨nodup_addUser (g := g.setOperands this (g.operands this ++ [n])) hg.nodup n this,
    fun x o => ?_⟩
  rw [SubgraphNodes.addOperand, mem_users_addUser, operands_addUser, operands_setOperands,
    users_setOperands, hg.converse]
  split
  · next hx => simp [hx]
  · next hx => simp [hx]

/-- The node is taken out of the users of its operands. -/
theorem removeUsers_spec (this : N) (l : List N) (g : SubgraphNodes N)
    (hg : ∀ o, (g.users o).Nodup) :
    (∀ o, ((l.foldl (fun g o => g.removeUser o this) g).users o).Nodup) ∧
    (∀ x o, x ∈ (l.foldl (fun g o => g.removeUser o this) g).users o ↔
      x ∈ g.users o ∧ ¬ (o ∈ l ∧ x = this)) ∧
    (l.foldl (fun g o => g.removeUser o this) g).operands = g.operands ∧
    SameEdges g (l.foldl (fun g o => g.removeUser o this) g) := by
  induction l generalizing g with
  | nil => exact ⟨hg, by simp, rfl, rfl, rfl⟩
  | cons a l ih =>
      have hnodup : ∀ o, ((g.removeUser a this).users o).Nodup := by
        intro o
        rw [removeUser, users_setUsers]
        split
        · exact (hg a).erase this
        · exact hg o
      have hmem : ∀ x o, x ∈ (g.removeUser a this).users o ↔
          x ∈ g.users o ∧ ¬ (o = a ∧ x = this) := by
        intro x o
        rw [removeUser, users_setUsers]
        split
        · -- one entry is erased, and there is no other
          next ho => rw [(hg a).mem_erase_iff, ho]; tauto
        · next ho => simp [ho]
      obtain ⟨hnodup', hmem', hoperands, hedges⟩ := ih (g.removeUser a this) hnodup
      refine ⟨hnodup', fun x o => ?_, hoperands, hedges⟩
      rw [List.foldl_cons, hmem', hmem, List.mem_cons]
      tauto

theorem UsesInv.removeAllOperands (hg : g.UsesInv) (this : N) : (g.removeAllOperands this).UsesInv := by
  obtain ⟨hnodup, hmem, hoperands, -⟩ := removeUsers_spec this (g.operands this) g hg.nodup
  refine ⟨hnodup, fun x o => ?_⟩
  rw [SubgraphNodes.removeAllOperands, operands_setOperands, hoperands]
  refine (hmem x o).trans ?_
  rw [hg.converse]
  split
  · next hx => simp [hx]
  · next hx => simp [hx]

theorem removeDuplicitOperands_spec (order : Order N) (g : SubgraphNodes N) (this : N) :
    (∀ x o, o ∈ (g.removeDuplicitOperands order this).operands x ↔ o ∈ g.operands x) ∧
    (g.removeDuplicitOperands order this).users = g.users ∧
    SameEdges g (g.removeDuplicitOperands order this) := by
  rw [removeDuplicitOperands]
  split
  · exact ⟨fun _ _ => Iff.rfl, rfl, rfl, rfl⟩
  · refine ⟨fun x o => ?_, rfl, rfl, rfl⟩
    rw [operands_setOperands]
    split
    · next hx => rw [order.mem_toList, List.mem_toFinset, hx]
    · exact Iff.rfl

/-- A user for the operand `this`, before duplicates are removed. -/
theorem replaceOperands_spec (this nd : N) (g : SubgraphNodes N) (user : N)
    (hg : ∀ o, (g.users o).Nodup) {g' : SubgraphNodes N}
    (h : g' = if this ∈ g.operands user then
      (g.setOperands user ((g.operands user).map fun o => if o = this then nd else o)).addUser nd user
      else g) :
    (∀ o, (g'.users o).Nodup) ∧
    (∀ x o, x ∈ g'.users o ↔ x ∈ g.users o ∨ o = nd ∧ x = user ∧ this ∈ g.operands user) ∧
    (∀ x o, o ∈ g'.operands x ↔ if x = user ∧ this ∈ g.operands user then
      o ≠ this ∧ o ∈ g.operands x ∨ o = nd else o ∈ g.operands x) ∧ SameEdges g g' := by
  subst h
  split
  · next hthis =>
      refine ⟨nodup_addUser (by exact hg) nd user, fun x o => ?_, fun x o => ?_, ?_⟩
      · rw [mem_users_addUser, users_setOperands]
        simp [hthis]
      · rw [operands_addUser, operands_setOperands]
        by_cases hx : x = user
        · subst hx
          simp only [if_true, hthis, and_self, List.mem_map]
          constructor
          · rintro ⟨p, hp, rfl⟩
            split
            · exact Or.inr rfl
            · next hne => exact Or.inl ⟨hne, hp⟩
          · rintro (⟨hne, ho⟩ | rfl)
            · exact ⟨o, ho, if_neg hne⟩
            · exact ⟨this, hthis, if_pos rfl⟩
        · simp [hx]
      · have hedges := sameEdges_addUser
          (g.setOperands user ((g.operands user).map fun o => if o = this then nd else o)) nd user
        exact hedges
  · next hthis =>
      exact ⟨hg, fun x o => by simp [hthis], fun x o => by simp [hthis], rfl, rfl⟩

/-- One user: `nd` takes the place of `this` in its operands. -/
theorem replaceInUser_spec (order : Order N) (this nd : N) (removeDupl : Bool) (g : SubgraphNodes N)
    (user : N) (hg : ∀ o, (g.users o).Nodup) :
    (∀ o, ((replaceInUser order this nd removeDupl g user).users o).Nodup) ∧
    (∀ x o, x ∈ (replaceInUser order this nd removeDupl g user).users o ↔
      x ∈ g.users o ∨ o = nd ∧ x = user ∧ this ∈ g.operands user) ∧
    (∀ x o, o ∈ (replaceInUser order this nd removeDupl g user).operands x ↔
      if x = user ∧ this ∈ g.operands user then o ≠ this ∧ o ∈ g.operands x ∨ o = nd
      else o ∈ g.operands x) ∧
    SameEdges g (replaceInUser order this nd removeDupl g user) := by
  obtain ⟨hnodup, husers, hoperands, hedges⟩ := replaceOperands_spec this nd g user hg rfl
  rw [replaceInUser]
  cases removeDupl with
  | false => exact ⟨hnodup, husers, hoperands, hedges⟩
  | true =>
      have hdupl := removeDuplicitOperands_spec order (if this ∈ g.operands user then
        (g.setOperands user ((g.operands user).map fun o => if o = this then nd else o)).addUser nd
          user else g) user
      rw [if_pos rfl, hdupl.2.1]
      exact ⟨hnodup, husers, fun x o => (hdupl.1 x o).trans (hoperands x o),
        hedges.trans hdupl.2.2⟩

/-- The users one after the other. -/
theorem replaceInUsers_spec (order : Order N) {this nd : N} (hne : nd ≠ this) (removeDupl : Bool)
    (l : List N) (g : SubgraphNodes N) (hg : ∀ o, (g.users o).Nodup) :
    (∀ o, ((l.foldl (replaceInUser order this nd removeDupl) g).users o).Nodup) ∧
    (∀ x o, x ∈ (l.foldl (replaceInUser order this nd removeDupl) g).users o ↔
      x ∈ g.users o ∨ o = nd ∧ x ∈ l ∧ this ∈ g.operands x) ∧
    (∀ x o, o ∈ (l.foldl (replaceInUser order this nd removeDupl) g).operands x ↔
      if x ∈ l ∧ this ∈ g.operands x then o ≠ this ∧ o ∈ g.operands x ∨ o = nd
      else o ∈ g.operands x) ∧
    SameEdges g (l.foldl (replaceInUser order this nd removeDupl) g) := by
  induction l generalizing g with
  | nil => exact ⟨hg, by simp, by simp, rfl, rfl⟩
  | cons user l ih =>
      obtain ⟨hnodup₁, husers₁, hoperands₁, hedges₁⟩ :=
        replaceInUser_spec order this nd removeDupl g user hg
      obtain ⟨hnodup, husers, hoperands, hedges⟩ := ih _ hnodup₁
      -- a user that is done does not have the operand any more
      have hthis : ∀ x, this ∈ (replaceInUser order this nd removeDupl g user).operands x ↔
          x ≠ user ∧ this ∈ g.operands x := by
        intro x
        rw [hoperands₁]
        by_cases hx : x = user
        · subst hx
          by_cases hmem : this ∈ g.operands x
          · simp [hmem, Ne.symm hne]
          · simp [hmem]
        · simp [hx]
      rw [List.foldl_cons]
      refine ⟨hnodup, fun x o => ?_, fun x o => ?_, hedges₁.trans hedges⟩
      · rw [husers, husers₁, hthis, List.mem_cons]
        by_cases hx : x = user
        · subst hx
          simp
        · simp [hx]
      · rw [hoperands]
        simp only [hthis, hoperands₁, List.mem_cons]
        by_cases hx : x = user
        · subst hx
          simp
        · simp [hx]

/-- **`replaceAllUsesWith`** -/
theorem replaceAllUsesWith_spec (order : Order N) (hg : g.UsesInv) {this nd : N} (hne : nd ≠ this)
    (removeDupl : Bool) :
    (g.replaceAllUsesWith order this nd removeDupl).UsesInv ∧
    SameEdges g (g.replaceAllUsesWith order this nd removeDupl) := by
  obtain ⟨hnodup, husers, hoperands, hedges⟩ :=
    replaceInUsers_spec order hne removeDupl (g.users this) g hg.nodup
  refine ⟨⟨fun o => ?_, fun x o => ?_⟩, hedges⟩
  · rw [replaceAllUsesWith, users_setUsers]
    split
    · exact List.nodup_nil
    · exact hnodup o
  · rw [replaceAllUsesWith, users_setUsers, operands_setUsers, hoperands]
    simp only [hg.converse x this, and_self]
    by_cases ho : o = this
    · -- the users of `this` are cleared, and it is no operand any more
      subst ho
      by_cases hmem : o ∈ g.operands x
      · simp [hmem, Ne.symm hne]
      · simp [hmem]
    · rw [if_neg ho, husers, hg.converse, hg.converse]
      by_cases hmem : this ∈ g.operands x
      · simp [hmem, ho]
      · simp [hmem]

/-- Replacing uses leaves no node without operands. -/
theorem operands_replaceAllUsesWith_ne_nil (order : Order N) (hg : g.UsesInv) {this nd : N}
    (hne : nd ≠ this) (removeDupl : Bool) {x : N} (hx : g.operands x ≠ []) :
    (g.replaceAllUsesWith order this nd removeDupl).operands x ≠ [] := by
  obtain ⟨-, -, hoperands, -⟩ := replaceInUsers_spec order hne removeDupl (g.users this) g hg.nodup
  obtain ⟨o, ho⟩ := List.exists_mem_of_ne_nil _ hx
  rw [replaceAllUsesWith, operands_setUsers]
  by_cases huses : x ∈ g.users this ∧ this ∈ g.operands x
  · apply List.ne_nil_of_mem (a := nd)
    rw [hoperands, if_pos huses]
    exact Or.inr rfl
  · apply List.ne_nil_of_mem (a := o)
    rw [hoperands, if_neg huses]
    exact ho

end Uses

/-! ## Runs -/

inductive Op (N : Type) where
  | addSuccessor (n succ : N)
  | replaceSingleSuccessor (n succ : N)
  | insertAfter (this n : N)
  | insertBefore (this n : N)
  | insertSequenceBefore (this first second : N)
  | isolate (this : N)
  | addOperand (this n : N)
  | removeAllOperands (this : N)
  | replaceAllUsesWith (this nd : N) (removeDupl : Bool)

namespace Op

/-- An operation; `isolate` may run into a vector that changes under it. -/
def step (order : Order N) (g : SubgraphNodes N) : Op N → Option (SubgraphNodes N)
  | .addSuccessor n succ => some (g.addSuccessor n succ)
  | .replaceSingleSuccessor n succ => some (g.replaceSingleSuccessor n succ)
  | .insertAfter this n => some (g.insertAfter this n)
  | .insertBefore this n => some (g.insertBefore this n)
  | .insertSequenceBefore this first second => some (g.insertSequenceBefore this first second)
  | .isolate this => g.isolate this
  | .addOperand this n => some (g.addOperand this n)
  | .removeAllOperands this => some (g.removeAllOperands this)
  | .replaceAllUsesWith this nd removeDupl => some (g.replaceAllUsesWith order this nd removeDupl)

/-- What the operation asserts. -/
def Asserts (op : Op N) (g : SubgraphNodes N) : Prop :=
  match op with
  | .replaceSingleSuccessor n _ => (g.successors n).length = 1
  | .insertAfter this _ | .insertBefore this _ =>
      g.predecessors this = [] ∧ g.successors this = []
  | .insertSequenceBefore _ first second =>
      g.predecessors first = [] ∧ g.successors second = []
  | .replaceAllUsesWith this nd _ => nd ≠ this
  | _ => True

/-- The node has no edges, and the paths between the others are those that there were. -/
def TakenOut (g g' : SubgraphNodes N) (this : N) : Prop :=
  (g'.successors this = [] ∧ g'.predecessors this = []) ∧
  (∀ n, this ∉ g'.successors n ∧ this ∉ g'.predecessors n) ∧
  ∀ n s, n ≠ this → s ≠ this → (TransGen g'.Edge n s ↔ TransGen g.Edge n s)

/-- What is asked of an operation. -/
def Right (op : Op N) (g g' : SubgraphNodes N) : Prop :=
  g'.Converse ∧ g'.UsersConverse ∧
  match op with
  | .isolate this => TakenOut g g' this
  | _ => True

/-- A node with an edge to itself that is isolated has no other successor. -/
def Fits (op : Op N) (g : SubgraphNodes N) : Prop :=
  match op with
  | .isolate this => ¬ g.LoopWithSuccessor this
  | _ => True

end Op

/-- What the operations keep. -/
structure Inv (g : SubgraphNodes N) : Prop where
  edges : g.Converse
  uses : g.UsesInv

theorem inv_empty : (empty : SubgraphNodes N).Inv where
  edges _ _ := rfl
  uses := ⟨fun _ => List.nodup_nil, fun _ _ => by simp [empty]⟩

omit [DecidableEq N] in
theorem UsesInv.of_same {g g' : SubgraphNodes N} (hg : g.UsesInv) (h : SameUses g g') :
    g'.UsesInv := by
  refine ⟨fun o => ?_, fun n o => ?_⟩
  · rw [h.2]
    exact hg.nodup o
  · rw [h.1, h.2]
    exact hg.converse n o

theorem Converse.of_same {g g' : SubgraphNodes N} (hg : g.Converse) (h : SameEdges g g') :
    g'.Converse := by
  intro n s
  rw [h.1, h.2]
  exact hg n s

theorem sameUses_replaceSingleSuccessor (g : SubgraphNodes N) (n succ : N) :
    SameUses g (g.replaceSingleSuccessor n succ) := by
  rw [replaceSingleSuccessor, removeSingleSuccessor]
  split <;> exact ⟨rfl, rfl⟩

theorem sameEdges_removeAllOperands {g : SubgraphNodes N} (hg : g.UsesInv) (this : N) :
    SameEdges g (g.removeAllOperands this) :=
  (removeUsers_spec this (g.operands this) g hg.nodup).2.2.2

theorem takenOut_isolate {g g' : SubgraphNodes N} (hg : g.Converse) {this : N}
    (h : g.isolate this = some g') : Op.TakenOut g g' this := by
  have hedge : g'.Edge = Elimination.Without g.Edge this := by
    funext n s
    exact propext (edge_isolate hg h n s)
  have hg' := converse_isolate hg h
  -- no edge around the node ends there
  have hnone : ∀ n, this ∉ g'.successors n ∧ n ∉ g'.successors this := by
    intro n
    refine ⟨fun hmem => ?_, fun hmem => ?_⟩
    · have hpath : g'.Edge n this := hmem
      rw [hedge] at hpath
      exact hpath.2.1 rfl
    · have hpath : g'.Edge this n := hmem
      rw [hedge] at hpath
      exact hpath.1 rfl
  refine ⟨⟨?_, ?_⟩, fun n => ⟨(hnone n).1, fun hmem => (hnone n).2 (hg'.mem_iff.2 hmem)⟩,
    fun n s hn hs => ?_⟩
  · exact List.eq_nil_iff_forall_not_mem.2 fun n => (hnone n).2
  · exact List.eq_nil_iff_forall_not_mem.2 fun n hmem => (hnone n).1 (hg'.mem_iff.2 hmem)
  · rw [hedge]
    exact Elimination.transGen_without hn hs

/-- An operation whose assertions hold is right where it fits. -/
theorem step_right (order : Order N) (op : Op N) {g : SubgraphNodes N} (hg : g.Inv)
    (hassert : op.Asserts g) (hfit : op.Fits g) :
    ∃ g', op.step order g = some g' ∧ op.Right g g' ∧ g'.Inv := by
  -- an operation on edges or on operands leaves the other two vectors alone
  have hedges : ∀ {g' : SubgraphNodes N}, g'.Converse → SameUses g g' → g'.Inv := fun hg' hsame =>
    ⟨hg', hg.uses.of_same hsame⟩
  have huses : ∀ {g' : SubgraphNodes N}, g'.UsesInv → SameEdges g g' → g'.Inv := fun hg' hsame =>
    ⟨hg.edges.of_same hsame, hg'⟩
  have hright : ∀ {g' : SubgraphNodes N}, g'.Inv → g'.Converse ∧ g'.UsersConverse ∧ True := fun h =>
    ⟨h.edges, h.uses.converse, trivial⟩
  cases op with
  | addSuccessor n succ =>
      have hinv := hedges (hg.edges.addSuccessor n succ) ⟨rfl, rfl⟩
      exact ⟨_, rfl, hright hinv, hinv⟩
  | replaceSingleSuccessor n succ =>
      have hinv := hedges (hg.edges.replaceSingleSuccessor hassert succ)
        (sameUses_replaceSingleSuccessor g n succ)
      exact ⟨_, rfl, hright hinv, hinv⟩
  | insertAfter this n =>
      have hinv := hedges (hg.edges.insertAfter hassert.1 hassert.2) (sameUses_insertAfter g this n)
      exact ⟨_, rfl, hright hinv, hinv⟩
  | insertBefore this n =>
      have hinv := hedges (hg.edges.insertBefore hassert.1 hassert.2)
        (sameUses_insertBefore g this n)
      exact ⟨_, rfl, hright hinv, hinv⟩
  | insertSequenceBefore this first second =>
      have hinv := hedges (hg.edges.insertSequenceBefore hassert.1)
        (sameUses_insertSequenceBefore g this first second)
      exact ⟨_, rfl, hright hinv, hinv⟩
  | isolate this =>
      obtain ⟨g', hg'⟩ := Option.ne_none_iff_exists'.1 fun h =>
        hfit ((isolate_spec hg.edges this).1.1 h)
      have hinv := hedges (converse_isolate hg.edges hg') (sameUses_isolate hg')
      exact ⟨g', hg', ⟨hinv.edges, hinv.uses.converse, takenOut_isolate hg.edges hg'⟩, hinv⟩
  | addOperand this n =>
      have hinv := huses (hg.uses.addOperand this n) (sameEdges_addUser _ n this)
      exact ⟨_, rfl, hright hinv, hinv⟩
  | removeAllOperands this =>
      have hinv := huses (hg.uses.removeAllOperands this) (sameEdges_removeAllOperands hg.uses this)
      exact ⟨_, rfl, hright hinv, hinv⟩
  | replaceAllUsesWith this nd removeDupl =>
      obtain ⟨huses', hsame⟩ := replaceAllUsesWith_spec order hg.uses hassert removeDupl
      have hinv := huses huses' hsame
      exact ⟨_, rfl, hright hinv, hinv⟩

theorem fits_of_step (order : Order N) {op : Op N} {g g' : SubgraphNodes N} (hg : g.Inv)
    (h : op.step order g = some g') : op.Fits g := by
  cases op with
  | isolate this =>
      intro hloop
      have hnone := (isolate_spec hg.edges this).1.2 hloop
      exact absurd (hnone.symm.trans h) (by simp)
  | _ => trivial

/-- Every operation of a run on nodes without edges meets its assertions. -/
abbrev RunsAsserted (order : Order N) (ops : List (Op N)) : Prop :=
  FittingRuns.FitRun (fun (op : Op N) g => op.step order g) id Op.Asserts ops empty

abbrev RunsRight (order : Order N) (ops : List (Op N)) : Prop :=
  FittingRuns.RightRun (fun (op : Op N) g => op.step order g) id Op.Right ops empty

abbrev RunsFitting (order : Order N) (ops : List (Op N)) : Prop :=
  FittingRuns.FitRun (fun (op : Op N) g => op.step order g) id Op.Fits ops empty

/-- **The edges of nodes.** In a run of operations that meet their assertions the successors and
predecessors stay converse, with the same numbers of parallel edges, and so do operands and users, and
`isolate` ends with the node taken out and the paths between the others kept, exactly when no node that
is isolated has an edge to itself and another successor. -/
theorem subgraphNode_right_iff (order : Order N) (ops : List (Op N))
    (hasserts : RunsAsserted order ops) : RunsRight order ops ↔ RunsFitting order ops :=
  FittingRuns.rightRun_iff_of_pre (fun op _ hg hassert hfit => step_right order op hg hassert hfit)
    (fun _ _ _ hg _ hstep _ => fits_of_step order hg hstep) inv_empty hasserts

/-- A node with an edge to itself and one to another node. -/
def loopRun : List (Op (Fin 2)) := [.addSuccessor 0 0, .addSuccessor 0 1, .isolate 0]

theorem subgraphNode_loopRun : RunsRight (Order.ascending (Fin 2)) loopRun ↔
    RunsFitting (Order.ascending (Fin 2)) loopRun := by
  refine subgraphNode_right_iff (Order.ascending (Fin 2)) loopRun ⟨trivial, fun g h => ?_⟩
  exact ⟨trivial, fun g h => ⟨trivial, fun g h => trivial⟩⟩

theorem subgraphNode_loop_isolated : ¬ RunsRight (Order.ascending (Fin 2)) loopRun := by
  rintro ⟨g₁, h₁, -, g₂, h₂, -, g₃, h₃, -⟩
  obtain rfl := Option.some.inj h₁
  obtain rfl := Option.some.inj h₂
  have hnone : (none : Option (SubgraphNodes (Fin 2))) = some g₃ := h₃
  exact Option.some_ne_none g₃ hnone.symm

end SubgraphNodes

end Cape.PointerAnalysis
