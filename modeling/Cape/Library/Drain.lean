import Cape.Library.Worklist

/-!
# Draining a worklist

A turn takes an element from the work that is left and may add to it, or fail. `run_induction`: what
a turn keeps holds when nothing is left. `exists_run`: the turns end, if no turn fails and each lowers
a rank.

`Worklist.Extends` is what turns do with a worklist that remembers what it has seen: nothing is lost,
and whatever is seen anew is pending.
-/

set_option autoImplicit false

namespace Cape.Library

universe u v

namespace Drain

variable {α : Type u} {σ : Type v} (pop : σ → Option (α × σ)) (turn : σ → α → Option σ)

/-- Turns until nothing is left; `none` when a turn fails or the fuel is spent. -/
def run : Nat → σ → Option σ
  | 0, _ => none
  | fuel + 1, s =>
      match pop s with
      | none => some s
      | some (a, s') => (turn s' a).bind (run fuel)

variable {pop turn}

/-- **An invariant of the turns.** -/
theorem run_induction {P : σ → Prop}
    (hturn : ∀ s a s' s'', P s → pop s = some (a, s') → turn s' a = some s'' → P s'') :
    ∀ {fuel : Nat} {s t : σ}, P s → run pop turn fuel s = some t → P t ∧ pop t = none := by
  intro fuel
  induction fuel with
  | zero =>
      intro s t _ h
      cases h
  | succ fuel ih =>
      intro s t hs h
      rw [run] at h
      cases hpop : pop s with
      | none =>
          simp only [hpop] at h
          obtain rfl := Option.some.inj h
          exact ⟨hs, hpop⟩
      | some r =>
          simp only [hpop] at h
          obtain ⟨s'', hs'', h⟩ := Option.bind_eq_some_iff.1 h
          exact ih (hturn s r.1 r.2 s'' hs hpop hs'') h

/-- **The turns end.** -/
theorem exists_run {P : σ → Prop} {r : σ → Nat}
    (hturn : ∀ s a s', P s → pop s = some (a, s') →
      ∃ s'', turn s' a = some s'' ∧ P s'' ∧ r s'' < r s) :
    ∀ {fuel : Nat} {s : σ}, P s → r s < fuel → ∃ t, run pop turn fuel s = some t := by
  intro fuel
  induction fuel with
  | zero =>
      intro s _ hr
      exact absurd hr (Nat.not_lt_zero _)
  | succ fuel ih =>
      intro s hs hr
      rw [run]
      cases hpop : pop s with
      | none => exact ⟨s, rfl⟩
      | some p =>
          obtain ⟨s'', hs'', hP, hlt⟩ := hturn s p.1 p.2 hs hpop
          obtain ⟨t, ht⟩ := ih hP (by omega)
          refine ⟨t, ?_⟩
          simp only [hs'', Option.bind_some]
          exact ht

end Drain

namespace Worklist

variable {α : Type u}

/-- The second worklist has all of the first, and what it has seen beyond that is pending. -/
structure Extends (w w' : Worklist α) : Prop where
  seen : w.seen ⊆ w'.seen
  pending : ∀ x ∈ w.pending, x ∈ w'.pending
  new : ∀ x ∈ w'.seen, x ∈ w.seen ∨ x ∈ w'.pending
  old : ∀ x ∈ w'.pending, x ∈ w.pending ∨ x ∈ w'.seen
  card : w'.seen.card + w.pending.length = w.seen.card + w'.pending.length

theorem Extends.refl (w : Worklist α) : Extends w w :=
  ⟨Finset.Subset.refl _, fun _ h => h, fun _ h => Or.inl h, fun _ h => Or.inl h, rfl⟩

theorem Extends.trans {w w' w'' : Worklist α} (h : Extends w w') (h' : Extends w' w'') :
    Extends w w'' := by
  refine ⟨h.seen.trans h'.seen, fun x hx => h'.pending x (h.pending x hx), fun x hx => ?_,
    fun x hx => ?_, ?_⟩
  · obtain hx | hx := h'.new x hx
    · exact (h.new x hx).imp_right (h'.pending x)
    · exact Or.inr hx
  · obtain hx | hx := h'.old x hx
    · exact (h.old x hx).imp_right fun hx => h'.seen hx
    · exact Or.inr hx
  · have := h.card
    have := h'.card
    omega

theorem Extends.size_eq [Fintype α] {w w' : Worklist α} (h : Extends w w') : size w' = size w := by
  have hcard := h.card
  have hle : w.seen.card ≤ Fintype.card α := Finset.card_le_univ _
  have hle' : w'.seen.card ≤ Fintype.card α := Finset.card_le_univ _
  unfold size
  omega

variable [DecidableEq α]

theorem extends_see (d : Discipline) (w : Worklist α) (a : α) : Extends w (see d w a) := by
  refine ⟨seen_subset_see d w a, fun x hx => ?_, fun x hx => ?_, fun x hx => ?_, ?_⟩
  · exact (mem_pending_see d w a x).2 (Or.inl hx)
  · obtain rfl | hx := (mem_seen_see d w a x).1 hx
    · by_cases hseen : x ∈ w.seen
      · exact Or.inl hseen
      · exact Or.inr ((mem_pending_see d w x x).2 (Or.inr ⟨rfl, hseen⟩))
    · exact Or.inl hx
  · obtain hx | ⟨rfl, -⟩ := (mem_pending_see d w a x).1 hx
    · exact Or.inl hx
    · exact Or.inr ((mem_seen_see d w x x).2 (Or.inl rfl))
  · rw [see]
    split
    · rfl
    · next h =>
        rw [Finset.card_insert_of_notMem h, Discipline.length_push]
        omega

/-- Take the first pending element. -/
def pop (w : Worklist α) : Option (α × Worklist α) :=
  match w.pending with
  | [] => none
  | a :: rest => some (a, ⟨w.seen, rest⟩)

omit [DecidableEq α] in
theorem pop_eq_none_iff {w : Worklist α} : pop w = none ↔ w.pending = [] := by
  rw [pop]
  cases w.pending with
  | nil => simp
  | cons a rest => simp

omit [DecidableEq α] in
theorem pop_eq_some_iff {w w' : Worklist α} {a : α} :
    pop w = some (a, w') ↔ w.pending = a :: w'.pending ∧ w.seen = w'.seen := by
  obtain ⟨seen', pending'⟩ := w'
  rw [pop]
  cases w.pending with
  | nil => simp
  | cons b rest =>
      simp only [Option.some.injEq, Prod.mk.injEq, Worklist.mk.injEq, List.cons.injEq]
      tauto

omit [DecidableEq α] in
theorem size_pop [Fintype α] {w w' : Worklist α} {a : α} (h : pop w = some (a, w')) :
    size w' < size w := by
  obtain ⟨hpending, hseen⟩ := pop_eq_some_iff.1 h
  simp only [size, hpending, hseen, List.length_cons]
  omega

end Worklist

end Cape.Library
