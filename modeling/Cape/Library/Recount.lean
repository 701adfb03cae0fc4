import Cape.Library.Inevitable
import Mathlib.Data.Finset.Card

/-!
# Counting down successors, depth first

Backwards from a target: a visit counts down the counter of a vertex, at first the number of its
successors; where the counter comes to 0 the vertex turns red, and its predecessors are visited at
once. The target is red from the start.

`red_iff`: when not all ways from the successors of the target come back to it, the red vertices at
the end are those from which all ways lead to the target.
-/

set_option autoImplicit false

namespace Cape.Library.Recount

universe u

variable {α : Type u}

/-- The colours and the counters. -/
structure Info (α : Type u) where
  red : α → Bool
  counter : α → Nat

section Search

variable [DecidableEq α] (next prev : α → List α)

def visit : Nat → Info α → α → Option (Info α)
  | 0, _, _ => none
  | fuel + 1, s, x =>
      if s.counter x = 0 then some s
      else
        let s := { s with counter := Function.update s.counter x (s.counter x - 1) }
        if s.counter x = 0 then
          (prev x).foldlM (visit fuel) { s with red := Function.update s.red x true }
        else some s

/-- The target turns red, and its predecessors are visited. -/
def visitAll (target : α) (fuel : Nat) : Option (Info α) :=
  (prev target).foldlM (visit prev fuel)
    ⟨Function.update (fun _ => false) target true, fun x => (next x).length⟩

end Search

/-! ## The invariant -/

/-- What holds while the visits of `pending` are still to come. -/
structure Invariant [DecidableEq α] (next : α → List α) (target : α) (pending : List α)
    (s : Info α) : Prop where
  counted : ∀ x, s.counter x + (next x).countP s.red = (next x).length + pending.count x
  counter_le : ∀ x, s.counter x ≤ (next x).length
  red_iff : ∀ x, s.red x = true ↔ x = target ∨ (s.counter x = 0 ∧ next x ≠ [])
  reaching : ∀ x, s.red x = true → Reaching next target x

section

variable [DecidableEq α] {next prev : α → List α} {target : α}

/-- One more vertex is red. -/
theorem countP_update {l : List α} (hl : l.Nodup) {red : α → Bool} {x : α}
    (hx : red x = false) :
    l.countP (Function.update red x true) = l.countP red + if x ∈ l then 1 else 0 := by
  induction l with
  | nil => rfl
  | cons y l ih =>
      obtain ⟨hy, hl⟩ := List.nodup_cons.1 hl
      rw [List.countP_cons, List.countP_cons, ih hl]
      by_cases hxy : y = x
      · subst hxy
        simp [hy, hx]
      · simp [hxy, Ne.symm hxy]
        omega

theorem count_prev {l : List α} (hl : l.Nodup) {P : Prop} [Decidable P] {y : α}
    (hy : y ∈ l ↔ P) : l.count y = if P then 1 else 0 := by
  by_cases h : y ∈ l
  · rw [List.count_eq_one_of_mem hl h, if_pos (hy.1 h)]
  · rw [List.count_eq_zero_of_not_mem h, if_neg fun hP => h (hy.2 hP)]

/-- A visit does not come too often. -/
theorem Invariant.counter_pos {x : α} {pending : List α} {s : Info α}
    (hs : Invariant next target (x :: pending) s) : s.counter x ≠ 0 ∧ next x ≠ [] := by
  have hcount := hs.counted x
  have hle := (next x).countP_le_length (p := s.red)
  have hlen := hs.counter_le x
  rw [List.count_cons_self] at hcount
  have hpos : s.counter x ≠ 0 := by omega
  refine ⟨hpos, ?_⟩
  rintro hnil
  rw [hnil] at hlen
  exact hpos (Nat.le_zero.1 hlen)

/-- A visit that leaves the counter above 0. -/
theorem Invariant.down {x : α} {pending : List α} {s : Info α}
    (hs : Invariant next target (x :: pending) s) (hc : s.counter x - 1 ≠ 0) :
    Invariant next target pending
      { s with counter := Function.update s.counter x (s.counter x - 1) } := by
  -- only the count of `x` changes, by the visit that is taken from the list
  have hpos := hs.counter_pos.1
  have hcounter : ∀ y, y ≠ x → Function.update s.counter x (s.counter x - 1) y = s.counter y :=
    fun y hy => Function.update_of_ne hy _ _
  refine ⟨fun y => ?_, fun y => ?_, fun y => ?_, hs.reaching⟩
  · have hcount := hs.counted y
    show Function.update s.counter x (s.counter x - 1) y + (next y).countP s.red = _
    by_cases hy : y = x
    · subst hy
      rw [List.count_cons_self] at hcount
      rw [Function.update_self]
      omega
    · rw [List.count_cons_of_ne (Ne.symm hy)] at hcount
      rw [hcounter y hy]
      exact hcount
  · show Function.update s.counter x (s.counter x - 1) y ≤ _
    have hle := hs.counter_le y
    by_cases hy : y = x
    · subst hy
      rw [Function.update_self]
      omega
    · rw [hcounter y hy]
      exact hle
  · refine (hs.red_iff y).trans (or_congr_right (and_congr_left fun _ => ?_))
    show _ ↔ Function.update s.counter x (s.counter x - 1) y = 0
    by_cases hy : y = x
    · subst hy
      rw [Function.update_self]
      exact iff_of_false hpos hc
    · rw [hcounter y hy]

/-- The graph: lists without repetitions, and the target does not only lead to itself. -/
structure Graph (next prev : α → List α) (target : α) : Prop where
  nodup_next : ∀ x, (next x).Nodup
  nodup_prev : ∀ x, (prev x).Nodup
  mem_prev : ∀ x y, x ∈ prev y ↔ y ∈ next x
  leaves : ¬ (next target ≠ [] ∧ ∀ y ∈ next target, Reaching next target y)

namespace Graph

variable (h : Graph next prev target)
include h

theorem start : Invariant next target (prev target)
    ⟨Function.update (fun _ => false) target true, fun x => (next x).length⟩ := by
  have hred : ∀ x, Function.update (fun _ => false) target true x = true ↔ x = target := by
    intro x
    by_cases hx : x = target
    · simp [hx]
    · simp [hx]
  refine ⟨fun x => ?_, fun x => le_refl _, fun x => ?_, fun x hx => .here ((hred x).1 hx)⟩
  · show (next x).length + (next x).countP (Function.update (fun _ => false) target true) = _
    rw [countP_update (h.nodup_next x) rfl, count_prev (h.nodup_prev target) (h.mem_prev x target)]
    simp
  · rw [hred]
    refine (or_iff_left ?_).symm
    rintro ⟨hlen, hne⟩
    exact hne (List.length_eq_zero_iff.1 hlen)

/-- A visit that turns the vertex red: all its successors are. -/
theorem turn {x : α} {pending : List α} {s : Info α}
    (hs : Invariant next target (x :: pending) s) (hc : s.counter x - 1 = 0) :
    Invariant next target (prev x ++ pending)
      ⟨Function.update s.red x true, Function.update s.counter x (s.counter x - 1)⟩ := by
  obtain ⟨hpos, hne⟩ := hs.counter_pos
  have hcount := hs.counted x
  rw [List.count_cons_self] at hcount
  have hle := (next x).countP_le_length (p := s.red)
  -- the counter has come down to 0, so all successors are red
  have hall : ∀ y ∈ next x, Reaching next target y := by
    have hlen : (next x).countP s.red = (next x).length := by omega
    exact fun y hy => hs.reaching y (List.countP_eq_length.1 hlen y hy)
  have hx : x ≠ target := by
    rintro rfl
    exact h.leaves ⟨hne, hall⟩
  have hnot : s.red x = false := by
    rw [← Bool.not_eq_true, hs.red_iff]
    rintro (hxt | ⟨hzero, -⟩)
    · exact hx hxt
    · exact hpos hzero
  refine ⟨fun y => ?_, fun y => ?_, fun y => ?_, fun y hy => ?_⟩
  · show Function.update s.counter x (s.counter x - 1) y +
      (next y).countP (Function.update s.red x true) = _
    rw [countP_update (h.nodup_next y) hnot, List.count_append,
      count_prev (h.nodup_prev x) (h.mem_prev y x)]
    by_cases hy : y = x
    · subst hy
      rw [Function.update_self]
      omega
    · have hcount := hs.counted y
      rw [List.count_cons_of_ne (Ne.symm hy)] at hcount
      rw [Function.update_of_ne hy]
      omega
  · show Function.update s.counter x (s.counter x - 1) y ≤ _
    have hle := hs.counter_le y
    by_cases hy : y = x
    · subst hy
      rw [Function.update_self]
      omega
    · rw [Function.update_of_ne hy]
      exact hle
  · show Function.update s.red x true y = true ↔
      y = target ∨ (Function.update s.counter x (s.counter x - 1) y = 0 ∧ next y ≠ [])
    by_cases hy : y = x
    · subst hy
      rw [Function.update_self, Function.update_self]
      exact iff_of_true rfl (Or.inr ⟨hc, hne⟩)
    · rw [Function.update_of_ne hy, Function.update_of_ne hy]
      exact hs.red_iff y
  · by_cases hyx : y = x
    · subst hyx
      exact .of_all hne hall
    · refine hs.reaching y ?_
      have hy : Function.update s.red x true y = true := hy
      rwa [Function.update_of_ne hyx] at hy

end Graph

/-! ## The run -/

/-- How many vertices of a set can still come to 0. -/
def active (V : Finset α) (s : Info α) : Nat := (V.filter fun x => s.counter x ≠ 0).card

omit [DecidableEq α] in
theorem active_mono {V : Finset α} {s s' : Info α} (hle : ∀ x, s'.counter x ≤ s.counter x) :
    active V s' ≤ active V s := by
  refine Finset.card_le_card fun x hx => ?_
  rw [Finset.mem_filter] at hx ⊢
  have := hle x
  exact ⟨hx.1, by omega⟩

omit [DecidableEq α] in
theorem active_lt {V : Finset α} {s s' : Info α} (hle : ∀ x, s'.counter x ≤ s.counter x) {x : α}
    (hxV : x ∈ V) (hx : s.counter x ≠ 0) (hx' : s'.counter x = 0) : active V s' < active V s := by
  refine Finset.card_lt_card ⟨fun y hy => ?_, fun hsub => ?_⟩
  · rw [Finset.mem_filter] at hy ⊢
    have := hle y
    exact ⟨hy.1, by omega⟩
  · exact (Finset.mem_filter.1 (hsub (Finset.mem_filter.2 ⟨hxV, hx⟩))).2 hx'

section

variable {V : Finset α} (hV : ∀ x ∈ V, ∀ y ∈ prev x, y ∈ V) (h : Graph next prev target)
include hV h

omit hV h in
/-- Visits one after the other, when each of them does what it should. -/
theorem foldl_visit {fuel : Nat}
    (hvisit : ∀ (x : α) (pending : List α) (s : Info α), x ∈ V → active V s < fuel →
      Invariant next target (x :: pending) s → ∃ s', visit prev fuel s x = some s' ∧
        Invariant next target pending s' ∧ ∀ y, s'.counter y ≤ s.counter y) :
    ∀ (l : List α) (pending : List α) (s : Info α), (∀ x ∈ l, x ∈ V) → active V s < fuel →
      Invariant next target (l ++ pending) s → ∃ s', l.foldlM (visit prev fuel) s = some s' ∧
        Invariant next target pending s' ∧ ∀ y, s'.counter y ≤ s.counter y := by
  intro l
  induction l with
  | nil => exact fun pending s _ _ hs => ⟨s, rfl, hs, fun _ => le_refl _⟩
  | cons x l ih =>
      intro pending s hl hfuel hs
      obtain ⟨s₁, hs₁, hinv₁, hle₁⟩ := hvisit x (l ++ pending) s (hl x List.mem_cons_self) hfuel hs
      obtain ⟨s', hs', hinv', hle'⟩ := ih pending s₁ (fun y hy => hl y (List.mem_cons_of_mem _ hy))
        ((active_mono hle₁).trans_lt hfuel) hinv₁
      refine ⟨s', ?_, hinv', fun y => (hle' y).trans (hle₁ y)⟩
      rw [List.foldlM_cons, hs₁]
      exact hs'

/-- **One visit** ends, and counts what it has to count. -/
theorem exists_visit : ∀ (fuel : Nat) (x : α) (pending : List α) (s : Info α), x ∈ V →
    active V s < fuel → Invariant next target (x :: pending) s →
      ∃ s', visit prev fuel s x = some s' ∧ Invariant next target pending s' ∧
        ∀ y, s'.counter y ≤ s.counter y := by
  intro fuel
  induction fuel with
  | zero => exact fun x pending s _ hfuel => absurd hfuel (Nat.not_lt_zero _)
  | succ fuel ih =>
      intro x pending s hx hfuel hs
      obtain ⟨hpos, -⟩ := hs.counter_pos
      have hle : ∀ y, Function.update s.counter x (s.counter x - 1) y ≤ s.counter y := by
        intro y
        by_cases hy : y = x
        · subst hy
          rw [Function.update_self]
          exact Nat.sub_le _ _
        · rw [Function.update_of_ne hy]
      have hself : Function.update s.counter x (s.counter x - 1) x = s.counter x - 1 :=
        Function.update_self _ _ _
      rw [visit, if_neg hpos]
      by_cases hc : s.counter x - 1 = 0
      · -- the vertex turns red, and its predecessors come before what is pending
        have hlt : active V ⟨Function.update s.red x true,
            Function.update s.counter x (s.counter x - 1)⟩ < fuel := by
          refine (active_lt (s := s) hle hx hpos (hself.trans hc)).trans_le ?_
          omega
        obtain ⟨s', hs', hinv, hle'⟩ := foldl_visit ih (prev x) pending _ (hV x hx) hlt
          (h.turn hs hc)
        refine ⟨s', ?_, hinv, fun y => (hle' y).trans (hle y)⟩
        rw [← hs']
        exact if_pos (hself.trans hc)
      · refine ⟨_, ?_, hs.down hc, hle⟩
        exact if_neg fun hzero => hc (hself.symm.trans hzero)

/-- **What is red at the end.** -/
theorem exists_visitAll {fuel : Nat} (htarget : target ∈ V) (hfuel : V.card < fuel) :
    ∃ s, visitAll next prev target fuel = some s ∧
      ∀ x, s.red x = true ↔ Reaching next target x := by
  have hactive : ∀ s : Info α, active V s < fuel :=
    fun s => (Finset.card_le_card (Finset.filter_subset _ _)).trans_lt hfuel
  obtain ⟨s, hs, hinv, -⟩ := foldl_visit (exists_visit hV h fuel) (prev target) [] _
    (hV target htarget) (hactive _) ((List.append_nil (prev target)).symm ▸ h.start)
  refine ⟨s, hs, fun x => ⟨hinv.reaching x, fun hx => ?_⟩⟩
  induction hx with
  | here hx => exact (hinv.red_iff _).2 (Or.inl hx)
  | @next x _ hne _ ih =>
      -- all successors are red, so they were all counted
      have hcount := hinv.counted x
      rw [List.countP_eq_length.2 ih, List.count_nil] at hcount
      exact (hinv.red_iff x).2 (Or.inr ⟨by omega, hne⟩)

end

omit [DecidableEq α] in
/-- A target from which a vertex without successors can be reached does not only lead to itself. -/
theorem leaves_of_reach {e : α} (hreach : Relation.ReflTransGen (fun x y => y ∈ next x) target e)
    (he : next e = []) :
    ¬ (next target ≠ [] ∧ ∀ y ∈ next target, Reaching next target y) := by
  rintro ⟨hne, hall⟩
  have hon : ∀ y, Relation.ReflTransGen (fun x y => y ∈ next x) target y →
      Reaching next target y := by
    intro y hy
    induction hy with
    | refl => exact .here rfl
    | @tail x y _ hxy ih =>
        by_cases hx : x = target
        · exact hall y (hx ▸ hxy)
        · exact (ih.of_ne hx).2 y hxy
  by_cases heq : e = target
  · exact hne (heq ▸ he)
  · exact ((hon e hreach).of_ne heq).1 he

end

end Cape.Library.Recount
