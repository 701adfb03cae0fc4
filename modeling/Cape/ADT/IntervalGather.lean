import Cape.ADT.IntervalCoverage

/-!
# What `gather` finds

`gather` looks for the first entry that overlaps the interval and walks on from there. The search
asks for the last entry when no entry starts in or behind the interval, and an empty map has none.
On all other maps with disjoint keys `gather` finds what it should (`gatherRight_iff`).
-/

set_option autoImplicit false

namespace Cape.DisjunctiveIntervalMap

universe u

variable {V : Type u}

/-! ## With the calls of `_get_last` -/

/-- `_shift_le`, for the entries that start before `I` and those that do not. No result: `_get_last`
is called on an empty map. -/
def shiftLe (I : DiscreteInterval) (before ge : List (Entry V)) : Option (List (Entry V)) :=
  match ge with
  | [] =>
      match before.getLast? with
      | none => none
      | some last => if I.start ≤ last.1.stop then some [last] else some []
  | startge :: rest =>
      match before.getLast? with
      | some prev =>
          if I.start ≤ prev.1.stop then some (prev :: startge :: rest)
          else if I.stop < startge.1.start then some [] else some (startge :: rest)
      | none => if I.stop < startge.1.start then some [] else some (startge :: rest)

/-- `le`. -/
def checkedLe (I : DiscreteInterval) (m : DisjunctiveIntervalMap V) : Option (List (Entry V)) :=
  shiftLe I (m.takeWhile fun e => e.1.start < I.start) (m.dropWhile fun e => e.1.start < I.start)

/-- `gather`. -/
def checkedGather [DecidableEq V] (I : DiscreteInterval) (m : DisjunctiveIntervalMap V) :
    Option (List V) :=
  (checkedLe I m).map fun found =>
    (found.takeWhile fun e => e.1.overlaps I).foldr (fun e s => e.2 ∪ s) []

/-- The search fails on the empty map only. -/
theorem checkedLe_eq (I : DiscreteInterval) (m : DisjunctiveIntervalMap V) :
    checkedLe I m = if m = [] then none else some (le I m) := by
  by_cases hm : m = []
  · subst hm
    rfl
  · rw [if_neg hm, checkedLe, le]
    have hsplit : (m.takeWhile fun e => e.1.start < I.start) ++
        (m.dropWhile fun e => e.1.start < I.start) = m := List.takeWhile_append_dropWhile
    generalize (m.takeWhile fun e => e.1.start < I.start) = before at hsplit ⊢
    generalize (m.dropWhile fun e => e.1.start < I.start) = ge at hsplit ⊢
    cases ge with
    | nil =>
        rw [List.append_nil] at hsplit
        rw [shiftLe]
        cases hlast : before.getLast? with
        | none =>
            -- no entry starts before `I`, and none starts later
            rw [List.getLast?_eq_none_iff] at hlast
            exact absurd (hsplit.symm.trans hlast) hm
        | some last =>
            dsimp only
            split <;> rfl
    | cons startge rest =>
        rw [shiftLe]
        cases before.getLast? with
        | none =>
            dsimp only
            split <;> rfl
        | some prev =>
            dsimp only
            split
            · rfl
            · split <;> rfl

theorem checkedGather_eq [DecidableEq V] (I : DiscreteInterval) (m : DisjunctiveIntervalMap V) :
    checkedGather I m = if m = [] then none else some (gather I m) := by
  rw [checkedGather, checkedLe_eq]
  by_cases hm : m = []
  · rw [if_pos hm, if_pos hm]
    rfl
  · rw [if_neg hm, if_neg hm]
    rfl

/-! ## Where the walk stops -/

/-- From the first entry that overlaps the interval on, the walk meets exactly those that do. The
test of an entry that comes later is only whether it starts behind the interval. -/
theorem mem_takeWhile_overlaps {I : DiscreteInterval} (hI : I.start ≤ I.stop) {e' : Entry V}
    {l : List (Entry V)} (hl : KeysDisjoint l) (hreach : ∀ e ∈ l, I.start ≤ e.1.stop) :
    (e' ∈ l.takeWhile fun e => e.1.overlaps I) ↔ e' ∈ l ∧ Overlaps I e' := by
  induction l with
  | nil => simp
  | cons e l ih =>
      have hlater := fun e' he' => hreach e' (List.mem_cons_of_mem e he')
      by_cases htest : e.1.start ≤ I.stop
      · rw [List.takeWhile_cons, if_pos ((overlaps_iff hI).2 htest), List.mem_cons, List.mem_cons,
          ih hl.tail hlater, or_and_right]
        refine or_congr_left ?_
        constructor
        · rintro rfl
          exact ⟨rfl, htest, hreach e' List.mem_cons_self⟩
        · exact And.left
      · rw [List.takeWhile_cons, if_neg fun h => htest ((overlaps_iff hI).1 h)]
        refine iff_of_false List.not_mem_nil ?_
        -- the entries behind it start even later
        rintro ⟨he', hover, -⟩
        apply htest
        rcases List.mem_cons.1 he' with rfl | he'
        · exact hover
        · have hlt := hl.toNat_lt he'
          have hproper := hl.toNat_le List.mem_cons_self
          have hover := Offset.le_iff.1 hover
          rw [Offset.le_iff]
          omega

variable [DecidableEq V]

/-- What `gather` finds in a map with disjoint keys. -/
theorem KeysDisjoint.mem_gather {I : DiscreteInterval} {m : DisjunctiveIntervalMap V}
    (hm : KeysDisjoint m) (hI : I.start ≤ I.stop) {v : V} :
    v ∈ gather I m ↔ ∃ e ∈ m, Overlaps I e ∧ v ∈ e.2 := by
  rw [gather, mem_foldr_union]
  rcases hm.le_cases hI with ⟨hle, hnone⟩ | ⟨pre, e, es, rfl, hle, hover, hpre⟩
  · rw [hle]
    constructor
    · rintro ⟨e, he, -⟩
      cases he
    · rintro ⟨e, he, hover, -⟩
      exact absurd hover (hnone e he)
  · rw [hle]
    -- from the first entry that reaches the interval on, all of them do
    have hreach : ∀ e' ∈ e :: es, I.start ≤ e'.1.stop := by
      intro e' he'
      rcases List.mem_cons.1 he' with rfl | he'
      · exact hover.2
      · have hlt := hm.right.toNat_lt he'
        have hproper := hm.right.toNat_le (List.mem_cons_of_mem e he')
        have hfirst := Offset.le_iff.1 hover.2
        rw [Offset.le_iff]
        omega
    constructor
    · rintro ⟨e', he', hv⟩
      rw [mem_takeWhile_overlaps hI hm.right hreach] at he'
      exact ⟨e', List.mem_append_right pre he'.1, he'.2, hv⟩
    · rintro ⟨e', he', hover', hv⟩
      refine ⟨e', ?_, hv⟩
      rw [mem_takeWhile_overlaps hI hm.right hreach]
      refine ⟨?_, hover'⟩
      rcases List.mem_append.1 he' with he' | he'
      · have hlt := hpre e' he'
        have hreach' := Offset.le_iff.1 hover'.2
        omega
      · exact he'

/-- `gather` gives the union of the sets of the entries that share a byte with the interval. -/
def GatherRight (I : DiscreteInterval) (m : DisjunctiveIntervalMap V) : Prop :=
  ∃ values, checkedGather I m = some values ∧
    ∀ v, v ∈ values ↔ ∃ e ∈ m, (∃ b ∈ I, b ∈ e.1) ∧ v ∈ e.2

/-- **`gather` is right** if and only if the map is not empty. -/
theorem gatherRight_iff {I : DiscreteInterval} {m : DisjunctiveIntervalMap V}
    (hm : KeysDisjoint m) (hI : I.start ≤ I.stop) : GatherRight I m ↔ m ≠ [] := by
  rw [GatherRight, checkedGather_eq]
  constructor
  · rintro ⟨values, hvalues, -⟩ hempty
    rw [if_pos hempty] at hvalues
    cases hvalues
  · intro hne
    refine ⟨gather I m, if_neg hne, fun v => ?_⟩
    rw [hm.mem_gather hI]
    constructor
    · rintro ⟨e, he, hover, hv⟩
      exact ⟨e, he, (overlaps_iff_exists_mem hI (hm.proper e he)).1 hover, hv⟩
    · rintro ⟨e, he, hshare, hv⟩
      exact ⟨e, he, (overlaps_iff_exists_mem hI (hm.proper e he)).2 hshare, hv⟩

theorem gatherRight_iff_single :
    GatherRight ⟨1, 5⟩ [(⟨0, 1⟩, [7])] ↔ [((⟨0, 1⟩ : DiscreteInterval), [7])] ≠ [] :=
  gatherRight_iff ⟨by decide, by decide⟩ (by decide)

/-- There is no last entry to look at. -/
theorem gather_empty : ¬ GatherRight ⟨0, 0⟩ ([] : DisjunctiveIntervalMap Nat) := by
  rintro ⟨values, hvalues, -⟩
  cases hvalues

end Cape.DisjunctiveIntervalMap
