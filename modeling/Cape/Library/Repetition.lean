import Mathlib.Data.Fintype.EquivFin
import Cape.Library.Attempts

/-!
# Rounds of a loop

A loop that repeats an attempt until it reports no change ends exactly when some round reports none
(`ends_iff_report`). Where every round of some kind adds to what is known, or reports no change, and
only finitely much can be known, it ends exactly when all rounds from some point on are of this kind
(`ends_iff`).
-/

set_option autoImplicit false

namespace Cape.Library.Attempt

universe u v

variable {σ : Type u} {κ : Type v} {f : Attempt σ}

/-- The state after so many rounds, whatever they report. -/
def after (f : Attempt σ) (s : σ) : Nat → σ
  | 0 => s
  | n + 1 => ((f (after f s n)).map Prod.fst).getD (after f s n)

/-- The loop ends with enough fuel. -/
def Ends (f : Attempt σ) (s : σ) : Prop := ∃ fuel r, repeatWhile f fuel s = some r

/-- A change that is not reported is none. -/
def Reported (s t : σ) (b : Bool) : Prop := b = false → t = s

theorem composes_reported : Composes (Reported (σ := σ)) := by
  constructor
  · exact fun s _ => rfl
  · intro s t u b c hst htu h
    obtain ⟨hb, hc⟩ := Bool.or_eq_false_iff.1 h
    rw [htu hc, hst hb]

/-- Nothing known is lost, and a reported change makes something known. -/
def Grows (known : σ → Set κ) (s t : σ) (b : Bool) : Prop :=
  known s ⊆ known t ∧ (b = true → ¬ known t ⊆ known s)

theorem composes_grows {known : σ → Set κ} : Composes (Grows known) := by
  constructor
  · exact fun s => ⟨subset_rfl, nofun⟩
  · intro s t u b c hst htu
    refine ⟨hst.1.trans htu.1, fun hchanged hback => ?_⟩
    rcases (Bool.or_eq_true b c).mp hchanged with hb | hc
    · exact hst.2 hb (htu.1.trans hback)
    · exact htu.2 hc (hback.trans hst.1)

theorem after_succ {s : σ} {n : Nat} {r : σ × Bool} (h : f (after f s n) = some r) :
    after f s (n + 1) = r.1 := by
  simp [after, h]

/-- The rounds of a loop are those of its first round and of the loop from there. -/
theorem after_of_first {s : σ} {r : σ × Bool} (h : f s = some r) (n : Nat) :
    after f s (n + 1) = after f r.1 n := by
  induction n with
  | zero => simp [after, h]
  | succ n ih => rw [after, ih, after]

theorem after_fixed {s : σ} {b : Bool} (h : f s = some (s, b)) (n : Nat) : after f s n = s := by
  induction n with
  | zero => rfl
  | succ n ih => rw [after, ih, h]; rfl

theorem after_add (s : σ) (m n : Nat) : after f s (m + n) = after f (after f s m) n := by
  induction n with
  | zero => rfl
  | succ n ih => rw [← Nat.add_assoc, after, ih, after]

/-- The loop ends exactly when some round reports no change. -/
theorem ends_iff_report (hf : ∀ s, (f s).isSome = true) (s : σ) :
    Ends f s ↔ ∃ n t, f (after f s n) = some (t, false) := by
  constructor
  · rintro ⟨fuel, r, h⟩
    induction fuel generalizing s r with
    | zero => cases h
    | succ fuel ih =>
        obtain ⟨⟨t, b⟩, hst, h⟩ := Option.bind_eq_some_iff.1 h
        cases b with
        | false => exact ⟨0, t, hst⟩
        | true =>
            obtain ⟨r', hr', -⟩ := Option.map_eq_some_iff.1 h
            obtain ⟨n, u, hu⟩ := ih t r' hr'
            exact ⟨n + 1, u, by rw [after_of_first hst]; exact hu⟩
  · rintro ⟨n, t, h⟩
    induction n generalizing s with
    | zero => exact ⟨1, (t, false), by simp [repeatWhile, show f s = some (t, false) from h]⟩
    | succ n ih =>
        obtain ⟨⟨u, b⟩, hu⟩ := Option.isSome_iff_exists.1 (hf s)
        cases b with
        | false => exact ⟨1, (u, false), by simp [repeatWhile, hu]⟩
        | true =>
            obtain ⟨fuel, r, hr⟩ := ih u (by rw [← after_of_first hu]; exact h)
            exact ⟨fuel + 1, (r.1, true), by simp [repeatWhile, hu, hr]⟩

/-- A round that reports a change and comes back to its state is made again and again. -/
theorem not_ends_of_fixed (hf : ∀ s, (f s).isSome = true) {s t : σ} (hst : f s = some (t, true))
    (ht : f t = some (t, true)) : ¬ Ends f s := by
  rw [ends_iff_report hf]
  rintro ⟨n, u, h⟩
  cases n with
  | zero => exact Bool.noConfusion (Prod.mk.inj (Option.some.inj (hst.symm.trans h))).2
  | succ n =>
      rw [after_of_first hst, after_fixed ht, ht] at h
      exact Bool.noConfusion (Prod.mk.inj (Option.some.inj h)).2

/-- **A loop ends** exactly when its rounds are quiet from some point on, where quiet rounds only add
to what is known, and do so if they report a change, and a round that reports none is quiet. -/
theorem ends_iff [Finite κ] (known : σ → Set κ) (quiet : σ → Prop)
    (hreported : Meets (fun _ => True) Reported f)
    (hquiet : ∀ s t b, quiet s → f s = some (t, b) → Grows known s t b)
    (hfalse : ∀ s, f s = some (s, false) → quiet s) (s : σ) :
    Ends f s ↔ ∃ N, ∀ n ≥ N, quiet (after f s n) := by
  have htotal : ∀ s, (f s).isSome = true := by
    intro s
    obtain ⟨t, b, h, -⟩ := hreported s trivial
    simp [h]
  rw [ends_iff_report htotal]
  constructor
  · -- the state that a round leaves as it is, is that of all later rounds
    rintro ⟨N, t, h⟩
    obtain rfl := hreported.eq_of_false (fun s t hst => hst rfl) trivial h
    refine ⟨N, fun n hn => ?_⟩
    obtain ⟨k, rfl⟩ := Nat.exists_eq_add_of_le hn
    rw [after_add, after_fixed h k]
    exact hfalse _ h
  · rintro ⟨N, hall⟩
    by_contra hnone
    -- otherwise every later round would make more known than the one before
    have hstrict : StrictMono fun k => known (after f s (N + k)) := by
      apply strictMono_nat_of_lt_succ
      intro k
      obtain ⟨⟨t, b⟩, ht⟩ := Option.isSome_iff_exists.1 (htotal (after f s (N + k)))
      have hb : b = true := by
        cases b with
        | true => rfl
        | false => exact absurd ⟨N + k, t, ht⟩ hnone
      have hgrows := hquiet _ _ _ (hall (N + k) (Nat.le_add_right N k)) ht
      rw [← Nat.add_assoc, after_succ ht]
      exact ⟨hgrows.1, hgrows.2 hb⟩
    exact not_injective_infinite_finite _ hstrict.injective

end Cape.Library.Attempt
