import Cape.ADT.Bitvector

/-!
# Runs of bitvectors

Operations on many vectors, next to the same operations on finite sets of numbers. In every run a
vector has what the set has, and the iteration gives each number once, in order (`refines_run`). `set`
of a number reports the bit as it was, `set` of a vector reports that a word has changed.
-/

set_option autoImplicit false

namespace Cape

namespace SparseBitvector

/-- An operation on one of many vectors. -/
inductive Op where
  | set (a i : Nat)
  | unset (a i : Nat)
  | union (a b : Nat)
  | copy (a b : Nat)

def step (vs : Nat → SparseBitvector) : Op → Nat → SparseBitvector
  | .set a i => Function.update vs a ((vs a).set i).1
  | .unset a i => Function.update vs a ((vs a).unset i).1
  | .union a b => Function.update vs a ((vs a).union (vs b)).1
  | .copy a b => Function.update vs a (vs b)

def run (ops : List Op) : Nat → SparseBitvector := ops.foldl step fun _ => .empty

/-- The same operation on finite sets. -/
def refStep (Fs : Nat → Finset Nat) : Op → Nat → Finset Nat
  | .set a i => Function.update Fs a (insert i (Fs a))
  | .unset a i => Function.update Fs a ((Fs a).erase i)
  | .union a b => Function.update Fs a (Fs a ∪ Fs b)
  | .copy a b => Function.update Fs a (Fs b)

def refRun (ops : List Op) : Nat → Finset Nat := ops.foldl refStep fun _ => ∅

/-- The vector has the bits of a set. -/
def Holds (v : SparseBitvector) (F : Finset Nat) : Prop := ∀ i, v.get i = true ↔ i ∈ F

/-- Some bit is another one than before. -/
def Changed (v v' : SparseBitvector) : Prop := ∃ i, v'.get i ≠ v.get i

/-- What the queries and the iteration give is what they give for the set. -/
structure Refines (v : SparseBitvector) (F : Finset Nat) : Prop where
  get : ∀ i, v.get i = true ↔ i ∈ F
  size : v.size = F.card
  isEmpty : v.isEmpty = true ↔ F = ∅
  elements : ∀ i, i ∈ v.elements ↔ i ∈ F
  ordered : v.elements.Pairwise (· < ·)
  once : v.elements.Nodup

variable {v w : SparseBitvector} {F G : Finset Nat}

theorem Holds.set (h : Holds v F) (i : Nat) : Holds (v.set i).1 (insert i F) := by
  intro j
  rw [get_set, Finset.mem_insert, ← h j]
  by_cases hj : j = i
  · simp [hj]
  · simp [hj]

theorem Holds.unset (h : Holds v F) (i : Nat) : Holds (v.unset i).1 (F.erase i) := by
  intro j
  rw [get_unset, Finset.mem_erase, ← h j]
  by_cases hj : j = i
  · simp [hj]
  · simp [hj]

theorem Holds.union (h : Holds v F) (h' : Holds w G) : Holds (v.union w).1 (F ∪ G) := by
  intro j
  rw [get_union, Bool.or_eq_true, Finset.mem_union, h j, h' j]

theorem Holds.refines (h : Holds v F) : Refines v F := by
  have helements : ∀ i, i ∈ v.elements ↔ i ∈ F := fun i => mem_elements.trans (h i)
  constructor
  case get => exact h
  case size =>
    have hset : v.elements.toFinset = F := by
      ext i
      rw [List.mem_toFinset, helements]
    rw [size_eq, ← hset, List.toFinset_card_of_nodup v.nodup_elements]
  case isEmpty =>
    rw [isEmpty_iff, Finset.eq_empty_iff_forall_notMem]
    refine forall_congr' fun i => ?_
    rw [← Bool.not_eq_true, h i]
  case elements => exact helements
  case ordered => exact v.pairwise_elements
  case once => exact v.nodup_elements

/-- One operation on vectors that have what sets have. -/
theorem holds_step {vs : Nat → SparseBitvector} {Fs : Nat → Finset Nat}
    (h : ∀ a, Holds (vs a) (Fs a)) (op : Op) (a : Nat) : Holds (step vs op a) (refStep Fs op a) := by
  -- one vector and one set are others, and the rest stays
  have hupdate : ∀ {b : Nat} {w : SparseBitvector} {G : Finset Nat}, Holds w G →
      Holds (Function.update vs b w a) (Function.update Fs b G a) := by
    intro b w G hw
    by_cases hab : a = b
    · subst hab
      rw [Function.update_self, Function.update_self]
      exact hw
    · rw [Function.update_of_ne hab, Function.update_of_ne hab]
      exact h a
  cases op with
  | set b i => exact hupdate ((h b).set i)
  | unset b i => exact hupdate ((h b).unset i)
  | union b c => exact hupdate ((h b).union (h c))
  | copy b c => exact hupdate (h c)

theorem holds_run (ops : List Op) (a : Nat) : Holds (run ops a) (refRun ops a) := by
  induction ops using List.reverseRecOn generalizing a with
  | nil => exact fun i => iff_of_false (by simp [run]) (Finset.notMem_empty i)
  | append_singleton ops op ih =>
      rw [run, refRun, List.foldl_append, List.foldl_append]
      exact holds_step ih op a

/-- `set` of a number changes the vector unless the bit was there. -/
theorem changed_set_iff (v : SparseBitvector) (i : Nat) :
    Changed v (v.set i).1 ↔ v.get i = false := by
  constructor
  · rintro ⟨j, hj⟩
    rw [get_set] at hj
    split at hj
    · next heq =>
        subst heq
        exact Bool.eq_false_iff.2 (Ne.symm hj)
    · exact absurd rfl hj
  · intro h
    refine ⟨i, ?_⟩
    rw [get_set, if_pos rfl, h]
    decide

theorem changed_union_iff (v w : SparseBitvector) :
    Changed v (v.union w).1 ↔ ∃ i, w.get i = true ∧ v.get i = false := by
  apply exists_congr
  intro i
  rw [get_union]
  cases v.get i <;> cases w.get i <;> simp

/-- **Bitvectors refine finite sets of numbers**, in every run; of the two reports of `set`, the one
for a number is the bit as it was. -/
theorem refines_run (ops : List Op) (a : Nat) :
    Refines (run ops a) (refRun ops a) ∧
    (∀ i, ((run ops a).set i).2 = true ↔ i ∈ refRun ops a) ∧
    (∀ i, ((run ops a).set i).2 = true ↔ ¬ Changed (run ops a) ((run ops a).set i).1) ∧
    ∀ b, ((run ops a).union (run ops b)).2 = true ↔
      Changed (run ops a) ((run ops a).union (run ops b)).1 := by
  refine ⟨(holds_run ops a).refines, fun i => ?_, fun i => ?_, fun b => ?_⟩
  · rw [set_report]
    exact holds_run ops a i
  · rw [set_report, changed_set_iff, Bool.not_eq_false]
  · rw [union_report, changed_union_iff]

/-- The first number in an empty vector changes it, and the report is false. -/
theorem set_reports_previous :
    ¬ ∀ (ops : List Op) (a i : Nat),
      ((run ops a).set i).2 = true ↔ Changed (run ops a) ((run ops a).set i).1 := by
  intro h
  have hchanged : Changed (run [] 0) ((run [] 0).set 0).1 := ⟨0, by decide⟩
  exact absurd ((h [] 0 0).2 hchanged) (by decide)

/-- The ends of words and of the range, an own union, and a word that becomes zero. -/
example :
    let ops : List Op := [.set 0 63, .set 0 64, .set 0 (2 ^ 64 - 1), .union 0 0, .copy 1 0, .unset 0 64]
    (run ops 0).elements = [63, 2 ^ 64 - 1] ∧ (run ops 1).size = 3 := by
  decide

end SparseBitvector

end Cape
