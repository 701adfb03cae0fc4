import Mathlib.Data.Finset.Basic
import Cape.Library.Inevitable

/-!
# Graphs for control dependencies

`CDGraph`: nodes with numbers, successor and predecessor lists without duplicates, and the
predicates, which are the nodes with more than one successor. The lists may be in any order that
`addNodeSuccessor` and the set of predicates can give them.

The results are two maps from nodes to sets of nodes. `NTSCD` and `DOD` are the relations that the
algorithms are to compute.
-/

set_option autoImplicit false

namespace Cape.ControlDependence

open Cape.Library

/-- `getSingleSuccessor`, of a list of successors. -/
def getSingleSuccessor {N : Type} : List N → Option N
  | [s] => some s
  | _ => none

theorem getSingleSuccessor_eq_some {N : Type} {l : List N} {s : N} :
    getSingleSuccessor l = some s ↔ l = [s] := by
  simp only [getSingleSuccessor]
  split <;> simp_all

/-- `CDGraph`. -/
structure CDGraph where
  size : Nat
  successors : Fin size → List (Fin size)
  predecessors : Fin size → List (Fin size)
  predicates : List (Fin size)
  nodup_successors : ∀ n, (successors n).Nodup
  nodup_predecessors : ∀ n, (predecessors n).Nodup
  mem_predecessors : ∀ p n, p ∈ predecessors n ↔ n ∈ successors p
  mem_predicates : ∀ n, n ∈ predicates ↔ 1 < (successors n).length
  nodup_predicates : predicates.Nodup

namespace CDGraph

/-- The graph with the given successors, everything else in the order of the ids. -/
def ofSuccessors (size : Nat) (successors : Fin size → List (Fin size))
    (h : ∀ n, (successors n).Nodup) : CDGraph where
  size := size
  successors := successors
  predecessors := fun n => (List.finRange size).filter fun p => n ∈ successors p
  predicates := (List.finRange size).filter fun n => 1 < (successors n).length
  nodup_successors := h
  nodup_predecessors := fun _ => (List.nodup_finRange size).filter _
  mem_predecessors := by simp
  mem_predicates := by simp
  nodup_predicates := (List.nodup_finRange size).filter _

variable (G : CDGraph)

/-- `CDNode`. -/
abbrev Node : Type := Fin G.size

/-- `getID`: the ids start at 1. -/
def getID (n : G.Node) : Nat := n.val + 1

theorem getID_inj {m n : G.Node} : G.getID m = G.getID n ↔ m = n := by
  simp only [getID]
  constructor
  · intro h
    exact Fin.ext (by omega)
  · rintro rfl
    rfl

/-- The nodes in the order of their ids. -/
def nodes : List G.Node := List.finRange G.size

@[simp] theorem mem_nodes (n : G.Node) : n ∈ G.nodes := List.mem_finRange n

theorem nodup_nodes : G.nodes.Nodup := List.nodup_finRange G.size

/-- A node on all maximal paths. -/
abbrev Reaching (n x : G.Node) : Prop := Cape.Library.Reaching G.successors n x

/-- **Non-termination sensitive control dependence**: of two successors of `p`, all maximal paths
from the one contain `n`, and some maximal path from the other avoids it. -/
def NTSCD (p n : G.Node) : Prop :=
  (∃ s ∈ G.successors p, OnAllPaths G.successors n s) ∧
    ∃ s ∈ G.successors p, ¬ OnAllPaths G.successors n s

/-- **Decisive order dependence** of `n` and `m` on `p`. -/
def DOD (p n m : G.Node) : Prop :=
  OnAllPaths G.successors n p ∧ OnAllPaths G.successors m p ∧
    (∃ s ∈ G.successors p, ReachedBefore G.successors n m s) ∧
    ∃ s ∈ G.successors p, ReachedBefore G.successors m n s

theorem ntscd_iff {p n : G.Node} : G.NTSCD p n ↔
    (∃ s ∈ G.successors p, G.Reaching n s) ∧ ∃ s ∈ G.successors p, ¬ G.Reaching n s := by
  rw [NTSCD]
  simp only [onAllPaths_iff]

/-- Only predicates have dependent nodes. -/
theorem mem_predicates_of_ne {p s t : G.Node} (hs : s ∈ G.successors p) (ht : t ∈ G.successors p)
    (hne : s ≠ t) : p ∈ G.predicates := by
  rw [G.mem_predicates]
  by_contra hlen
  obtain ⟨a, ha⟩ | hnil : (∃ a, G.successors p = [a]) ∨ G.successors p = [] := by
    match h : G.successors p with
    | [] => exact Or.inr rfl
    | [a] => exact Or.inl ⟨a, rfl⟩
    | _ :: _ :: _ => simp [h] at hlen
  · rw [ha, List.mem_singleton] at hs ht
    exact hne (hs.trans ht.symm)
  · rw [hnil] at hs
    cases hs

theorem NTSCD.mem_predicates {p n : G.Node} (h : G.NTSCD p n) : p ∈ G.predicates := by
  obtain ⟨⟨s, hs, hreach⟩, t, ht, hnot⟩ := h
  refine G.mem_predicates_of_ne hs ht ?_
  rintro rfl
  exact hnot hreach

end CDGraph

/-! ## Results -/

/-- `ResultT`. -/
abbrev ResultT (N : Type) : Type := N → Finset N

/-- `R[k].insert(v)`. -/
def ResultT.insert {N : Type} [DecidableEq N] (R : ResultT N) (k v : N) : ResultT N :=
  Function.update R k (Insert.insert v (R k))

theorem ResultT.mem_insert {N : Type} [DecidableEq N] (R : ResultT N) (k v k' v' : N) :
    v' ∈ R.insert k v k' ↔ (k' = k ∧ v' = v) ∨ v' ∈ R k' := by
  rw [ResultT.insert]
  by_cases h : k' = k
  · subst h
    simp
  · simp [h]

/-- The control dependencies and the reverse ones. -/
structure Result (N : Type) where
  CD : ResultT N
  revCD : ResultT N

namespace Result

variable {N : Type} [DecidableEq N]

/-- Nothing depends on anything. -/
def empty : Result N := ⟨fun _ => ∅, fun _ => ∅⟩

/-- `n` depends on `p`, in both maps. -/
def add (n p : N) (r : Result N) : Result N := ⟨r.CD.insert n p, r.revCD.insert p n⟩

/-- The two maps are converse relations. -/
def Converse (r : Result N) : Prop := ∀ n p, p ∈ r.CD n ↔ n ∈ r.revCD p

omit [DecidableEq N] in
@[simp] theorem not_mem_empty (n p : N) : p ∉ (empty : Result N).CD n := Finset.notMem_empty p

theorem mem_add (n p n' p' : N) (r : Result N) :
    p' ∈ (r.add n p).CD n' ↔ (n' = n ∧ p' = p) ∨ p' ∈ r.CD n' :=
  ResultT.mem_insert _ _ _ _ _

omit [DecidableEq N] in
theorem converse_empty : Converse (empty : Result N) := fun n p =>
  iff_of_false (Finset.notMem_empty p) (Finset.notMem_empty n)

theorem Converse.add {r : Result N} (h : Converse r) (n p : N) : Converse (r.add n p) := by
  intro n' p'
  rw [mem_add, h n' p']
  show _ ↔ n' ∈ r.revCD.insert p n p'
  rw [ResultT.mem_insert]
  tauto

/-- The pairs of a list that meet a test are added. -/
def addAll (test : N → Bool) (n : N) (l : List N) (r : Result N) : Result N :=
  l.foldl (fun r p => if test p then r.add n p else r) r

theorem mem_addAll (test : N → Bool) (n : N) (l : List N) (r : Result N) (n' p' : N) :
    p' ∈ (addAll test n l r).CD n' ↔ (n' = n ∧ p' ∈ l ∧ test p' = true) ∨ p' ∈ r.CD n' := by
  induction l generalizing r with
  | nil => simp [addAll]
  | cons p l ih =>
      show p' ∈ (addAll test n l (if test p then r.add n p else r)).CD n' ↔ _
      rw [ih]
      by_cases hp : test p = true
      · rw [if_pos hp, mem_add, List.mem_cons]
        constructor
        · rintro (⟨rfl, hl, ht⟩ | ⟨rfl, rfl⟩ | h)
          · exact Or.inl ⟨rfl, Or.inr hl, ht⟩
          · exact Or.inl ⟨rfl, Or.inl rfl, hp⟩
          · exact Or.inr h
        · rintro (⟨rfl, rfl | hl, ht⟩ | h)
          · exact Or.inr (Or.inl ⟨rfl, rfl⟩)
          · exact Or.inl ⟨rfl, hl, ht⟩
          · exact Or.inr (Or.inr h)
      · rw [if_neg hp, List.mem_cons]
        constructor
        · rintro (⟨rfl, hl, ht⟩ | h)
          · exact Or.inl ⟨rfl, Or.inr hl, ht⟩
          · exact Or.inr h
        · rintro (⟨rfl, rfl | hl, ht⟩ | h)
          · exact absurd ht hp
          · exact Or.inl ⟨rfl, hl, ht⟩
          · exact Or.inr h

theorem Converse.addAll {test : N → Bool} {n : N} {l : List N} {r : Result N} (h : Converse r) :
    Converse (addAll test n l r) := by
  induction l generalizing r with
  | nil => exact h
  | cons p l ih =>
      show Converse (Result.addAll test n l (if test p then r.add n p else r))
      by_cases hp : test p = true
      · rw [if_pos hp]
        exact ih (h.add n p)
      · rw [if_neg hp]
        exact ih h

/-- The pairs of all nodes of a list that meet a test are added. -/
theorem mem_foldl_addAll (test : N → N → Bool) (ps l : List N) (r : Result N) (n p : N) :
    p ∈ (l.foldl (fun r n => r.addAll (test n) n ps) r).CD n ↔
      (n ∈ l ∧ p ∈ ps ∧ test n p = true) ∨ p ∈ r.CD n := by
  induction l generalizing r with
  | nil => simp
  | cons a l ih =>
      rw [List.foldl_cons, ih, mem_addAll, List.mem_cons]
      constructor
      · rintro (⟨hn, hp⟩ | ⟨rfl, hp⟩ | hr)
        · exact Or.inl ⟨Or.inr hn, hp⟩
        · exact Or.inl ⟨Or.inl rfl, hp⟩
        · exact Or.inr hr
      · rintro (⟨rfl | hn, hp⟩ | hr)
        · exact Or.inr (Or.inl ⟨rfl, hp⟩)
        · exact Or.inl ⟨hn, hp⟩
        · exact Or.inr (Or.inr hr)

/-- What every part of a loop keeps, the loop keeps. -/
theorem foldlM_keeps {α σ : Type} {P : σ → Prop} {f : σ → α → Option σ} {l : List α}
    (hf : ∀ a ∈ l, ∀ s t, P s → f s a = some t → P t) :
    ∀ {s t : σ}, P s → l.foldlM f s = some t → P t := by
  induction l with
  | nil =>
      intro s t hs h
      obtain rfl := Option.some.inj h
      exact hs
  | cons a l ih =>
      intro s t hs h
      obtain ⟨u, hu, hrest⟩ := Option.bind_eq_some_iff.1 h
      exact ih (fun b hb => hf b (List.mem_cons_of_mem a hb))
        (hf a List.mem_cons_self s u hs hu) hrest

omit [DecidableEq N] in
theorem Converse.foldl {α : Type} {f : Result N → α → Result N} {l : List α}
    (hf : ∀ a ∈ l, ∀ r, Converse r → Converse (f r a)) :
    ∀ {r : Result N}, Converse r → Converse (l.foldl f r) := by
  induction l with
  | nil => exact fun h => h
  | cons a l ih =>
      exact fun h => ih (fun b hb => hf b (List.mem_cons_of_mem a hb)) (hf a List.mem_cons_self _ h)

omit [DecidableEq N] in
/-- Of converse relations the one says what the other is. -/
theorem Converse.ext {r r' : Result N} (h : Converse r) (h' : Converse r')
    (hCD : ∀ n p, p ∈ r.CD n ↔ p ∈ r'.CD n) : r = r' := by
  obtain ⟨CD, revCD⟩ := r
  obtain ⟨CD', revCD'⟩ := r'
  have hfirst : CD = CD' := funext fun n => Finset.ext (hCD n)
  have hsecond : revCD = revCD' := funext fun p => Finset.ext fun n => by
    rw [← h n p, ← h' n p]
    exact hCD n p
  rw [hfirst, hsecond]

end Result

end Cape.ControlDependence
