import Mathlib.Data.List.Basic
import Mathlib.Tactic

/-!
# What all maximal paths meet

A maximal path is infinite or ends in a vertex without successors. `Inevitable next goal bad x` says
by rules that every maximal path from `x` comes to a goal, and to nothing bad before it;
`inevitable_iff` says that this is so.
-/

set_option autoImplicit false

namespace Cape.Library

universe u

variable {α : Type u} (next : α → List α)

/-- A maximal path from `x`. -/
structure MaximalPath (x : α) (π : Nat → Option α) : Prop where
  start : π 0 = some x
  step : ∀ i a, π i = some a →
    (next a = [] ∧ π (i + 1) = none) ∨ ∃ b ∈ next a, π (i + 1) = some b

/-- The path comes to a goal, and to nothing bad before. -/
def Meets (goal bad : α → Prop) (π : Nat → Option α) : Prop :=
  ∃ i a, π i = some a ∧ goal a ∧ ∀ j < i, ∀ b, π j = some b → ¬ bad b

/-- Whatever way is taken, a goal comes before anything bad. -/
inductive Inevitable (goal bad : α → Prop) : α → Prop
  | here {x : α} : goal x → Inevitable goal bad x
  | next {x : α} : ¬ bad x → next x ≠ [] → (∀ y ∈ next x, Inevitable goal bad y) →
      Inevitable goal bad x

/-- An edge from outside `S`. -/
abbrev Off (S : α → Prop) (a b : α) : Prop := ¬ S a ∧ b ∈ next a

variable {next}

namespace Inevitable

variable {goal bad : α → Prop}

theorem mono {goal' bad' : α → Prop} (hgoal : ∀ x, goal x → goal' x) (hbad : ∀ x, bad' x → bad x)
    {x : α} (h : Inevitable next goal bad x) : Inevitable next goal' bad' x := by
  induction h with
  | here hx => exact .here (hgoal _ hx)
  | next hx hne _ ih => exact .next (fun h => hx (hbad _ h)) hne ih

theorem of_not_goal {x : α} (h : Inevitable next goal bad x) (hx : ¬ goal x) :
    ¬ bad x ∧ next x ≠ [] ∧ ∀ y ∈ next x, Inevitable next goal bad y := by
  cases h with
  | here hgoal => exact absurd hgoal hx
  | next hbad hne hall => exact ⟨hbad, hne, hall⟩

/-- A goal stays inevitable on the way, up to the first goal. -/
theorem along {x y : α} (h : Inevitable next goal bad x)
    (hway : Relation.ReflTransGen (Off next goal) x y) : Inevitable next goal bad y := by
  induction hway with
  | refl => exact h
  | tail _ hstep ih => exact (ih.of_not_goal hstep.1).2.2 _ hstep.2

/-- Not both come before the other one. -/
theorem asymm {n m x : α} (hne : n ≠ m) (h : Inevitable next (· = n) (· = m) x) :
    ¬ Inevitable next (· = m) (· = n) x := by
  induction h with
  | @here x hx =>
      intro h'
      exact (h'.of_not_goal fun hm => hne (hx.symm.trans hm)).1 hx
  | @next x hm hnil _ ih =>
      intro h'
      obtain ⟨y, hy⟩ := List.exists_mem_of_ne_nil _ hnil
      exact ih y hy ((h'.of_not_goal hm).2.2 y hy)

/-- Some way leads to a goal, and past nothing bad. -/
theorem exists_way {x : α} (h : Inevitable next goal bad x) :
    ∃ y, goal y ∧ Relation.ReflTransGen (Off next bad) x y := by
  induction h with
  | here hx => exact ⟨_, hx, .refl⟩
  | @next x hbad hne _ ih =>
      obtain ⟨y, hy⟩ := List.exists_mem_of_ne_nil _ hne
      obtain ⟨z, hz, hway⟩ := ih y hy
      exact ⟨z, hz, .head ⟨hbad, hy⟩ hway⟩

/-- **No way round**: from where a goal is inevitable, no way comes back without a goal. -/
theorem no_cycle {x : α} (h : Inevitable next goal bad x) :
    ¬ Relation.TransGen (Off next goal) x x := by
  induction h with
  | here hx =>
      intro hcycle
      obtain ⟨_, hstep, -⟩ := Relation.TransGen.head'_iff.1 hcycle
      exact hstep.1 hx
  | @next x _ _ _ ih =>
      intro hcycle
      obtain ⟨y, hstep, hback⟩ := Relation.TransGen.head'_iff.1 hcycle
      -- the next vertex on the way round is on it as well
      exact ih y hstep.2 (Relation.TransGen.tail' hback hstep)

end Inevitable

theorem MaximalPath.tail {x y : α} {π : Nat → Option α} (h : MaximalPath next x π)
    (hy : π 1 = some y) : MaximalPath next y fun i => π (i + 1) :=
  ⟨hy, fun i a ha => h.step (i + 1) a ha⟩

theorem MaximalPath.cons {x y : α} {π : Nat → Option α} (h : MaximalPath next y π)
    (hy : y ∈ next x) : MaximalPath next x fun i => if i = 0 then some x else π (i - 1) where
  start := rfl
  step := by
    intro i a ha
    cases i with
    | zero =>
        obtain rfl : x = a := Option.some.inj ha
        exact Or.inr ⟨y, hy, h.start⟩
    | succ i => exact h.step i a ha

section Escape

variable (next) (goal bad : α → Prop)

open Classical in
/-- From a vertex on to one from which the goal may be missed, if there is one. -/
noncomputable def escapeStep (a : α) : Option α :=
  if h : ∃ y ∈ next a, ¬ Inevitable next goal bad y then some h.choose else (next a).head?

/-- A maximal path that misses the goal where it can. -/
noncomputable def escape (x : α) : Nat → Option α
  | 0 => some x
  | i + 1 => (escape x i).bind (escapeStep next goal bad)

theorem maximalPath_escape (x : α) : MaximalPath next x (escape next goal bad x) where
  start := rfl
  step := by
    intro i a ha
    have hnext : escape next goal bad x (i + 1) = escapeStep next goal bad a := by
      show (escape next goal bad x i).bind _ = _
      rw [ha]
      rfl
    rw [hnext]
    unfold escapeStep
    split
    · next h => exact Or.inr ⟨h.choose, h.choose_spec.1, rfl⟩
    · cases hl : next a with
      | nil => exact Or.inl ⟨rfl, rfl⟩
      | cons b l => exact Or.inr ⟨b, List.mem_cons_self, rfl⟩

/-- Until something bad came, the path is where the goal may be missed. -/
theorem escape_spec {x : α} (hx : ¬ Inevitable next goal bad x) (i : Nat) :
    (∃ j < i, ∃ b, escape next goal bad x j = some b ∧ bad b) ∨
      ∀ a, escape next goal bad x i = some a → ¬ Inevitable next goal bad a := by
  induction i with
  | zero =>
      right
      intro a ha
      obtain rfl : x = a := Option.some.inj ha
      exact hx
  | succ i ih =>
      obtain ⟨j, hj, hbad⟩ | hnot := ih
      · exact Or.inl ⟨j, by omega, hbad⟩
      · by_cases hbad : ∃ a, escape next goal bad x i = some a ∧ bad a
        · exact Or.inl ⟨i, by omega, hbad⟩
        · right
          intro b hb
          obtain ⟨a, ha, hab⟩ := Option.bind_eq_some_iff.1 hb
          have hmiss : ∃ y ∈ next a, ¬ Inevitable next goal bad y := by
            by_contra hall
            push Not at hall
            -- a vertex where the goal may be missed has such a successor, or none at all
            cases hl : next a with
            | nil =>
                unfold escapeStep at hab
                rw [hl] at hab
                simp at hab
            | cons c l =>
                refine hnot a ha (.next (fun h => hbad ⟨a, ha, h⟩) ?_ hall)
                rw [hl]
                exact List.cons_ne_nil _ _
          unfold escapeStep at hab
          rw [dif_pos hmiss] at hab
          obtain rfl := Option.some.inj hab
          exact hmiss.choose_spec.2

end Escape

/-- **By rules or by paths.** -/
theorem inevitable_iff {goal bad : α → Prop} {x : α} :
    Inevitable next goal bad x ↔ ∀ π, MaximalPath next x π → Meets goal bad π := by
  constructor
  · intro h
    induction h with
    | @here x hx =>
        intro π hπ
        exact ⟨0, x, hπ.start, hx, fun j hj => absurd hj (Nat.not_lt_zero j)⟩
    | @next x hx hne hall ih =>
        intro π hπ
        obtain ⟨hnil, -⟩ | ⟨y, hy, hstep⟩ := hπ.step 0 x hπ.start
        · exact absurd hnil hne
        · obtain ⟨i, a, ha, hgoal, hbefore⟩ := ih y hy _ (hπ.tail hstep)
          refine ⟨i + 1, a, ha, hgoal, fun j hj b hb => ?_⟩
          cases j with
          | zero =>
              obtain rfl : x = b := Option.some.inj (hπ.start.symm.trans hb)
              exact hx
          | succ j => exact hbefore j (by omega) b hb
  · intro h
    by_contra hx
    obtain ⟨i, a, ha, hgoal, hbefore⟩ := h _ (maximalPath_escape next goal bad x)
    obtain ⟨j, hj, b, hb, hbad⟩ | hnot := escape_spec next goal bad hx i
    · exact hbefore j hj b hb hbad
    · exact hnot a ha (.here hgoal)

/-! ## One vertex, and one before another -/

variable (next)

/-- The vertex lies on all maximal paths from `x`. -/
def OnAllPaths (n x : α) : Prop := ∀ π, MaximalPath next x π → ∃ i, π i = some n

/-- All maximal paths from `x` come to `n`, and do so before they come to `m`. -/
def ReachedBefore (n m x : α) : Prop :=
  ∀ π, MaximalPath next x π → ∃ i, π i = some n ∧ ∀ j ≤ i, π j ≠ some m

variable {next}

theorem exists_maximalPath (next : α → List α) (x : α) : ∃ π, MaximalPath next x π :=
  ⟨_, maximalPath_escape _ (fun _ => False) (fun _ => False) x⟩

theorem reachedBefore_iff {n m x : α} :
    ReachedBefore next n m x ↔ n ≠ m ∧ Inevitable next (· = n) (· = m) x := by
  rw [inevitable_iff]
  constructor
  · intro h
    refine ⟨?_, fun π hπ => ?_⟩
    · rintro rfl
      obtain ⟨π, hπ⟩ := exists_maximalPath next x
      obtain ⟨i, hi, hbefore⟩ := h π hπ
      exact hbefore i (Nat.le_refl i) hi
    · obtain ⟨i, hi, hbefore⟩ := h π hπ
      refine ⟨i, n, hi, rfl, ?_⟩
      rintro j hj b hb rfl
      exact hbefore j hj.le hb
  · rintro ⟨hne, h⟩ π hπ
    obtain ⟨i, a, ha, rfl, hbefore⟩ := h π hπ
    refine ⟨i, ha, fun j hj hm => ?_⟩
    obtain hlt | rfl := Nat.lt_or_eq_of_le hj
    · exact hbefore j hlt m hm rfl
    · exact hne (Option.some.inj (ha.symm.trans hm))

/-- By rules: every way comes to `n`. -/
abbrev Reaching (next : α → List α) (n : α) : α → Prop :=
  Inevitable next (· = n) fun _ => False

theorem onAllPaths_iff {n x : α} : OnAllPaths next n x ↔ Reaching next n x := by
  show _ ↔ Inevitable next (· = n) (fun _ => False) x
  rw [inevitable_iff]
  have hmeets : ∀ π : Nat → Option α, Meets (· = n) (fun _ => False) π ↔ ∃ i, π i = some n := by
    intro π
    constructor
    · rintro ⟨i, a, ha, rfl, -⟩
      exact ⟨i, ha⟩
    · rintro ⟨i, hi⟩
      exact ⟨i, n, hi, rfl, fun _ _ _ _ => id⟩
  unfold OnAllPaths
  simp only [hmeets]

theorem Reaching.of_all {n x : α} (hne : next x ≠ []) (hall : ∀ y ∈ next x, Reaching next n y) :
    Reaching next n x :=
  .next id hne hall

theorem Reaching.trans {n m x : α} (h : Reaching next n x) (hn : Reaching next m n) :
    Reaching next m x := by
  induction h with
  | here hx => exact hx ▸ hn
  | next _ hne _ ih => exact .of_all hne ih

theorem Reaching.of_ne {n x : α} (h : Reaching next n x) (hx : x ≠ n) :
    next x ≠ [] ∧ ∀ y ∈ next x, Reaching next n y :=
  (h.of_not_goal hx).2

end Cape.Library
