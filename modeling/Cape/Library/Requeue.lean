import Cape.Library.Reporting

/-!
# Work lists that take elements again

The first element of a list is worked on; when this changes the state, the elements that depend on it
are put in front of the list. `run_induction`: what each turn keeps holds when the list is empty.
`exists_run`: the work ends if a change lowers a rank.
-/

set_option autoImplicit false

namespace Cape.Library.Requeue

universe u v

variable {α : Type u} {σ : Type v} (work : α → Step σ) (next : α → List α)

/-- The list after a turn: on a stack, the last element put there comes first. -/
def requeue (changed : Bool) (a : α) (queue : List α) : List α :=
  if changed then (next a).reverse ++ queue else queue

/-- Turns until the list is empty. -/
def run : Nat → List α → σ → Option σ
  | _, [], s => some s
  | 0, _ :: _, _ => none
  | fuel + 1, a :: queue, s =>
      run fuel (requeue next (work a s).2 a queue) (work a s).1

variable {work next}

@[simp] theorem mem_requeue {changed : Bool} {a b : α} {queue : List α} :
    b ∈ requeue next changed a queue ↔ (changed = true ∧ b ∈ next a) ∨ b ∈ queue := by
  unfold requeue
  split
  · next h => simp [h]
  · next h => simp [h]

/-- An invariant of the list and the state. -/
theorem run_induction {P : List α → σ → Prop}
    (hturn : ∀ a queue s, P (a :: queue) s →
      P (requeue next (work a s).2 a queue) (work a s).1) :
    ∀ {fuel : Nat} {queue : List α} {s t : σ}, P queue s → run work next fuel queue s = some t →
      P [] t := by
  intro fuel
  induction fuel with
  | zero =>
      intro queue s t hs h
      cases queue with
      | nil =>
          obtain rfl := Option.some.inj h
          exact hs
      | cons a queue => exact absurd h (Option.some_ne_none t).symm
  | succ fuel ih =>
      intro queue s t hs h
      cases queue with
      | nil =>
          obtain rfl := Option.some.inj h
          exact hs
      | cons a queue => exact ih (hturn a queue s hs) h

/-- The work ends: a turn changes the state, which lowers the rank, or makes the list shorter. -/
theorem exists_run (rank : σ → Nat) (hrank : ∀ a s, (work a s).2 = true →
    rank (work a s).1 < rank s) (hquiet : ∀ a, Step.Quiet (work a)) :
    ∀ (queue : List α) (s : σ), ∃ fuel t, run work next fuel queue s = some t := by
  -- the rank goes down, or it stays and the queue gets shorter
  have hall : ∀ (r n : Nat) (queue : List α) (s : σ), rank s = r → queue.length = n →
      ∃ fuel t, run work next fuel queue s = some t := by
    intro r
    induction r using Nat.strong_induction_on with
    | _ r ihr =>
        intro n
        induction n with
        | zero =>
            intro queue s _ hlen
            obtain rfl := List.eq_nil_of_length_eq_zero hlen
            exact ⟨0, s, rfl⟩
        | succ n ihn =>
            intro queue s hr hlen
            cases queue with
            | nil => exact ⟨0, s, rfl⟩
            | cons a queue =>
                cases hchanged : (work a s).2 with
                | true =>
                    obtain ⟨fuel, t, h⟩ := ihr _ (hr ▸ hrank a s hchanged) _
                      (requeue next true a queue) (work a s).1 rfl rfl
                    refine ⟨fuel + 1, t, ?_⟩
                    rw [run, hchanged]
                    exact h
                | false =>
                    have hsame := hquiet a s hchanged
                    obtain ⟨fuel, t, h⟩ := ihn queue s hr (Nat.succ.inj hlen)
                    refine ⟨fuel + 1, t, ?_⟩
                    rw [run, hchanged, hsame]
                    exact h
  exact fun queue s => hall _ _ queue s rfl rfl

end Cape.Library.Requeue
