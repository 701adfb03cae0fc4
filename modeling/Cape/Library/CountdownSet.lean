import Cape.Library.Countdown

/-!
# Counting down from a set of targets

The search of `Countdown`, from all vertices of a set at once. A target is pending at the start, and
a second time when its own counter comes to 0; it is then counted twice in its predecessors.
`Zeroed` says which counters come to 0, and `searchAll_spec` that the targets and these vertices are
marked. Of them, those with a way past all targets are `Overcounted` (`marked_iff_inevitable`).
-/

set_option autoImplicit false

namespace Cape.Library.Countdown

universe u

variable {α : Type u} (next : α → List α) (T : α → Prop)

/-- The vertices whose counters come to 0: the targets among the successors and the successors whose
own counters come to 0, a vertex that is both counted twice, are as many as the successors. -/
inductive Zeroed : α → Prop
  | intro {x : α} (targets zeroed : List α) : next x ≠ [] → targets.Sublist (next x) →
      zeroed.Sublist (next x) → (∀ y ∈ targets, T y) → (∀ y ∈ zeroed, Zeroed y) →
      (next x).length ≤ targets.length + zeroed.length → Zeroed x

/-- The counter comes to 0 although some way avoids all targets. -/
def Overcounted (x : α) : Prop :=
  Zeroed next T x ∧ ¬ Inevitable next T (fun _ => False) x

variable {next T}

/-- A vertex whose successors all are targets or come to 0. -/
theorem Zeroed.of_all {x : α} (hne : next x ≠ []) (h : ∀ y ∈ next x, T y ∨ Zeroed next T y) :
    Zeroed next T x := by
  classical
  refine .intro ((next x).filter fun y => T y) ((next x).filter fun y => Zeroed next T y) hne
    List.filter_sublist List.filter_sublist (by simp) (by simp) ?_
  rw [← List.countP_eq_length_filter, ← List.countP_eq_length_filter]
  -- every successor is in one list or the other
  have hor : (next x).countP (fun y => decide (T y) || decide (Zeroed next T y)) =
      (next x).length :=
    List.countP_eq_length.2 fun y hy => by simpa using h y hy
  calc (next x).length
      = (next x).countP (fun y => decide (T y) || decide (Zeroed next T y)) := hor.symm
    _ ≤ _ := by
      generalize next x = l
      induction l with
      | nil => simp
      | cons y l ih =>
          simp only [List.countP_cons]
          split_ifs <;> simp_all <;> omega

theorem target_or_zeroed_of_inevitable {x : α} (h : Inevitable next T (fun _ => False) x) :
    T x ∨ Zeroed next T x := by
  induction h with
  | here hx => exact Or.inl hx
  | next _ hne _ ih => exact Or.inr (.of_all hne ih)

/-- **When exactly the vertices are marked from which targets are inevitable.** -/
theorem marked_iff_inevitable :
    (∀ x, T x ∨ Zeroed next T x ↔ Inevitable next T (fun _ => False) x) ↔
      ∀ x, ¬ Overcounted next T x := by
  constructor
  · rintro h x ⟨hzeroed, hnot⟩
    exact hnot ((h x).1 (Or.inr hzeroed))
  · intro h x
    refine ⟨?_, target_or_zeroed_of_inevitable⟩
    rintro (hx | hx)
    · exact .here hx
    · by_contra hnot
      exact h x ⟨hx, hnot⟩

section Search

variable [DecidableEq α] {w : Nat} {prev : α → List α}

/-- The search from the targets of a list, which are pushed one after the other. -/
def searchAll (next prev : α → List α) (w : Nat) (targets : List α) (fuel : Nat) :
    Option (α → Bool) :=
  run prev fuel
    (⟨fun x => decide (x ∈ targets), fun x => BitVec.ofNat w (next x).length, targets.reverse⟩ :
      State α w)

variable [DecidablePred T]

theorem Counts.start {targets : List α} (hnodup : targets.Nodup) (hT : ∀ x, x ∈ targets ↔ T x) :
    Counts next T (⟨fun x => decide (x ∈ targets), fun x => BitVec.ofNat w (next x).length,
      targets.reverse⟩ : State α w) (fun _ => 0) := by
  have hnone : ∀ x, received next (fun _ => 0) x = 0 := fun x => by simp [received]
  have hcount : ∀ x, targets.reverse.count x = if T x then 1 else 0 := by
    intro x
    rw [List.count_reverse, ← if_congr (hT x) rfl rfl]
    split
    · next hx => exact List.count_eq_one_of_mem hnodup hx
    · next hx => exact List.count_eq_zero.2 hx
  refine ⟨fun x => by simp [hnone], fun x => ?_, fun x => ?_⟩
  · have hlen : ¬ (next x ≠ [] ∧ (next x).length ≤ 0) := by
      rintro ⟨hne, hlen⟩
      exact hne (List.length_eq_zero_iff.1 (Nat.le_zero.1 hlen))
    rw [hcount, hnone, if_neg hlen, Nat.zero_add, Nat.add_zero]
  · rw [hcount, decide_eq_true_iff, hT]
    split_ifs with hx
    · simp [hx]
    · simp [hx]

/-- What was counted often enough has come to 0 by the rules. -/
theorem Counts.zeroed {s : State α w} {taken : α → Nat} (h : Counts next T s taken)
    (hzeroed : ∀ y, next y ≠ [] → (next y).length ≤ received next taken y → Zeroed next T y)
    {x : α} (hne : next x ≠ []) {taken' : α → Nat}
    (hwas : ∀ y, taken' y ≤ taken y + s.pending.count y)
    (hlen : (next x).length ≤ received next taken' x) : Zeroed next T x := by
  classical
  refine .intro ((next x).filter fun y => T y) ((next x).filter fun y => Zeroed next T y) hne
    List.filter_sublist List.filter_sublist (by simp) (by simp) (hlen.trans ?_)
  have hle : ∀ y ∈ next x, taken' y ≤
      (if T y then 1 else 0) + if Zeroed next T y then 1 else 0 := by
    intro y _
    have hpushed := h.pushed y
    have := hwas y
    by_cases hy : next y ≠ [] ∧ (next y).length ≤ received next taken y
    · rw [if_pos hy] at hpushed
      rw [if_pos (hzeroed y hy.1 hy.2)]
      omega
    · rw [if_neg hy] at hpushed
      omega
  have hsum := List.sum_le_sum hle
  rw [List.sum_map_add] at hsum
  rw [← List.countP_eq_length_filter, ← List.countP_eq_length_filter, countP_eq_sum, countP_eq_sum]
  simpa [received] using hsum

/-- **When nothing is pending**, the targets and the vertices that came to 0 are marked. -/
theorem Counts.marked_iff {s : State α w} {taken : α → Nat} (hnext : ∀ x, (next x).Nodup)
    (h : Counts next T s taken)
    (hzeroed : ∀ y, next y ≠ [] → (next y).length ≤ received next taken y → Zeroed next T y)
    (hdone : s.pending = []) (x : α) : s.marked x = true ↔ T x ∨ Zeroed next T x := by
  have htaken : ∀ x, taken x = (if T x then 1 else 0) +
      if next x ≠ [] ∧ (next x).length ≤ received next taken x then 1 else 0 := by
    intro x
    rw [← h.pushed, hdone, List.count_nil, Nat.add_zero]
  have hcomes : ∀ x, Zeroed next T x → next x ≠ [] ∧ (next x).length ≤ received next taken x := by
    intro x hx
    induction hx with
    | @intro x targets zeroed hne htargets hzero hT _ hlen ih =>
        refine ⟨hne, hlen.trans ?_⟩
        -- each member of the two lists was taken for its being there
        have hle : ∀ y ∈ next x,
            (if y ∈ targets then 1 else 0) + (if y ∈ zeroed then 1 else 0) ≤ taken y := by
          intro y _
          have := htaken y
          split_ifs with h₁ h₂ h₂
          · rw [if_pos (hT y h₁), if_pos (ih y h₂)] at this
            omega
          · rw [if_pos (hT y h₁)] at this
            omega
          · rw [if_pos (ih y h₂)] at this
            omega
          · omega
        have hsum := List.sum_le_sum hle
        rw [List.sum_map_add] at hsum
        have hcount : ∀ {l : List α}, l.Sublist (next x) →
            l.length ≤ ((next x).map fun y => if y ∈ l then 1 else 0).sum := by
          intro l hl
          have hcount := countP_eq_sum (fun y => decide (y ∈ l)) (next x)
          simp only [decide_eq_true_eq] at hcount
          rw [← hcount, List.countP_eq_length_filter]
          refine (List.Nodup.subperm ((hnext x).sublist hl) fun y hy => ?_).length_le
          exact List.mem_filter.2 ⟨hl.subset hy, by simpa using hy⟩
        have h₁ := hcount htargets
        have h₂ := hcount hzero
        show _ ≤ ((next x).map taken).sum
        omega
  rw [h.marked, hdone, List.count_nil, Nat.add_zero, htaken]
  constructor
  · intro hx
    by_cases hT : T x
    · exact Or.inl hT
    · rw [if_neg hT] at hx
      split_ifs at hx with hfire
      · exact Or.inr (hzeroed x hfire.1 hfire.2)
      · omega
  · rintro (hx | hx)
    · rw [if_pos hx]
      omega
    · rw [if_pos (hcomes x hx)]
      omega

variable [Fintype α]

theorem Counts.sum_taken_le {s : State α w} {taken : α → Nat} (h : Counts next T s taken) :
    ∑ x, taken x ≤ 2 * Fintype.card α := by
  have hle : ∀ x ∈ Finset.univ, taken x ≤ 2 := by
    intro x _
    have := h.taken_le x
    split_ifs at this <;> omega
  calc ∑ x, taken x ≤ ∑ _x : α, 2 := Finset.sum_le_sum hle
    _ = 2 * Fintype.card α := by simp [Nat.mul_comm]

theorem Counts.run (hdeg : ∀ x, (next x).length < 2 ^ w) (hnext : ∀ x, (next x).Nodup)
    (hprev : ∀ x, (prev x).Nodup) (hmem : ∀ x y, x ∈ prev y ↔ y ∈ next x) :
    ∀ {fuel : Nat} {s : State α w} {taken : α → Nat}, Counts next T s taken →
      (∀ y, next y ≠ [] → (next y).length ≤ received next taken y → Zeroed next T y) →
      2 * Fintype.card α + 1 ≤ fuel + ∑ x, taken x →
      ∃ m, Countdown.run prev fuel s = some m ∧ ∀ x, m x = true ↔ T x ∨ Zeroed next T x := by
  intro fuel
  induction fuel with
  | zero =>
      intro s taken h _ hfuel
      have := h.sum_taken_le
      omega
  | succ fuel ih =>
      intro s taken h hzeroed hfuel
      cases hpending : s.pending with
      | nil =>
          refine ⟨s.marked, ?_, h.marked_iff hnext hzeroed hpending⟩
          simp only [Countdown.run, hpending]
      | cons n rest =>
          have hsum : ∑ x, (taken x + if x = n then 1 else 0) = ∑ x, taken x + 1 := by
            rw [Finset.sum_add_distrib, Finset.sum_ite_eq', if_pos (Finset.mem_univ n)]
          have hwas : ∀ y, (taken y + if y = n then 1 else 0) ≤ taken y + s.pending.count y := by
            intro y
            have : (taken y + if y = n then 1 else 0) + rest.count y = taken y + s.pending.count y :=
              moved hpending y
            omega
          obtain ⟨m, hrun, hm⟩ := ih (h.step hdeg hnext hprev hmem hpending)
            (fun y hne hlen => h.zeroed hzeroed hne hwas hlen) (by omega)
          refine ⟨m, ?_, hm⟩
          simp only [Countdown.run, hpending]
          exact hrun

/-- **What the search marks**, when no vertex has `2 ^ w` successors or more. -/
theorem searchAll_spec (hdeg : ∀ x, (next x).length < 2 ^ w) (hnext : ∀ x, (next x).Nodup)
    (hprev : ∀ x, (prev x).Nodup) (hmem : ∀ x y, x ∈ prev y ↔ y ∈ next x) {targets : List α}
    (hnodup : targets.Nodup) (hT : ∀ x, x ∈ targets ↔ T x) {fuel : Nat}
    (hfuel : 2 * Fintype.card α + 1 ≤ fuel) :
    ∃ m, searchAll next prev w targets fuel = some m ∧ ∀ x, m x = true ↔ T x ∨ Zeroed next T x := by
  refine (Counts.start hnodup hT).run hdeg hnext hprev hmem (fun y hne hlen => ?_)
    (by simpa using hfuel)
  have hnone : received next (fun _ => 0) y = 0 := by simp [received]
  rw [hnone] at hlen
  exact absurd (List.length_eq_zero_iff.1 (Nat.le_zero.1 hlen)) hne

end Search

end Cape.Library.Countdown
