import Cape.Library.Attempts

/-!
# Iteration over a container that may change

A range-for over a sorted container that the body of the loop may change, or destroy. The container
is read off the state: `none` when it is gone. The iterator goes from an element to the next larger one
that the container has by then. Where the body leaves the container alone, this is the loop over its
elements (`eachLive_eq`).
-/

set_option autoImplicit false

namespace Cape.Library.LiveIteration

universe u v

open Attempt

variable {σ : Type u} {α : Type v} [LinearOrder α]

/-- The element is still before the iterator. -/
def Ahead (cursor : Option α) (x : α) : Prop := ∀ c ∈ cursor, c < x

instance (cursor : Option α) (x : α) : Decidable (Ahead cursor x) :=
  match cursor with
  | none => isTrue nofun
  | some c => decidable_of_iff (c < x) (by simp [Ahead])

/-- The loop from an iterator on; gives up when the container is gone or the fuel is spent. -/
def eachLive (elements : σ → Option (List α)) (f : α → Attempt σ) :
    Nat → Option α → Attempt σ
  | 0, _ => fun _ => none
  | fuel + 1, cursor => fun s =>
      (elements s).bind fun l =>
        match l.find? (Ahead cursor ·) with
        | none => skip s
        | some x => (f x).andThen (eachLive elements f fuel (some x)) s

@[simp] theorem ahead_none (x : α) : Ahead none x := nofun

@[simp] theorem ahead_some (c x : α) : Ahead (some c) x ↔ c < x := by simp [Ahead]

/-- The loop gives up where the container is gone. -/
theorem eachLive_gone {elements : σ → Option (List α)} {s : σ} (h : elements s = none)
    (f : α → Attempt σ) (fuel : Nat) (cursor : Option α) :
    eachLive elements f fuel cursor s = none := by
  cases fuel with
  | zero => rfl
  | succ fuel => simp [eachLive, h]

theorem eachLive_first {elements : σ → Option (List α)} {s : σ} {x : α} {l : List α}
    (h : elements s = some (x :: l)) (f : α → Attempt σ) (fuel : Nat) :
    eachLive elements f (fuel + 1) none s = (f x).andThen (eachLive elements f fuel (some x)) s := by
  simp [eachLive, h]

/-- The elements behind the first one that is ahead. -/
theorem filter_ahead_of_cons {l l' : List α} {cursor : Option α} {x : α}
    (hl : l.Pairwise (· < ·)) (h : l.filter (Ahead cursor ·) = x :: l') :
    l.filter (Ahead (some x) ·) = l' := by
  have hx : Ahead cursor x := by
    have hmem : x ∈ l.filter (Ahead cursor ·) := h ▸ List.mem_cons_self
    exact of_decide_eq_true (List.mem_filter.1 hmem).2
  have hmore : ∀ y, Ahead (some x) y → Ahead cursor y := fun y hy c hc =>
    lt_trans (hx c hc) ((ahead_some x y).1 hy)
  have hpair : (x :: l').Pairwise (· < ·) := h ▸ hl.filter _
  -- what is behind `x` is ahead of the cursor, too
  have hfilter : l.filter (Ahead (some x) ·) = (x :: l').filter (Ahead (some x) ·) := by
    rw [← h, List.filter_filter]
    apply List.filter_congr
    intro y _
    rw [eq_comm, Bool.and_eq_left_iff_imp]
    exact fun hy => decide_eq_true (hmore y (of_decide_eq_true hy))
  rw [hfilter, List.filter_cons, if_neg (by simp), List.filter_eq_self]
  exact fun y hy => decide_eq_true ((ahead_some x y).2 ((List.pairwise_cons.1 hpair).1 y hy))

/-- **Where the container stays**, the loop is the one over the elements that are ahead. -/
theorem eachLive_eq {elements : σ → Option (List α)} {f : α → Attempt σ} {P : σ → Prop}
    {l : List α} (hl : l.Pairwise (· < ·)) (helements : ∀ s, P s → elements s = some l)
    (hf : ∀ x ∈ l, ∀ s, P s → ∀ r, f x s = some r → P r.1) {fuel : Nat} {cursor : Option α}
    (hless : (l.filter (Ahead cursor ·)).length < fuel) {s : σ} (hs : P s) :
    eachLive elements f fuel cursor s = each f (l.filter (Ahead cursor ·)) s := by
  induction fuel generalizing cursor s with
  | zero => exact absurd hless (Nat.not_lt_zero _)
  | succ fuel ih =>
      simp only [eachLive, helements s hs, Option.bind_some, ← List.head?_filter]
      cases hfilter : l.filter (Ahead cursor ·) with
      | nil => rfl
      | cons x l' =>
          -- the next turn goes on behind `x`
          have hrest := filter_ahead_of_cons hl hfilter
          have hx : x ∈ l := List.mem_of_mem_filter (hfilter ▸ List.mem_cons_self)
          rw [hfilter, List.length_cons] at hless
          simp only [List.head?_cons, each, andThen]
          cases hstep : f x s with
          | none => rfl
          | some r =>
              have hnext := ih (by rw [hrest]; omega) (hf x hx s hs r hstep)
              rw [Option.bind_some, Option.bind_some, hnext, hrest]

/-- The loop over the whole container. -/
theorem eachLive_all {elements : σ → Option (List α)} {f : α → Attempt σ} {P : σ → Prop}
    {l : List α} (hl : l.Pairwise (· < ·)) (helements : ∀ s, P s → elements s = some l)
    (hf : ∀ x ∈ l, ∀ s, P s → ∀ r, f x s = some r → P r.1) {fuel : Nat}
    (hfuel : l.length < fuel) {s : σ} (hs : P s) :
    eachLive elements f fuel none s = each f l s := by
  have hall : l.filter (Ahead none ·) = l :=
    List.filter_eq_self.2 fun x _ => decide_eq_true (ahead_none x)
  rw [eachLive_eq hl helements hf (by rw [hall]; exact hfuel) hs, hall]

end Cape.Library.LiveIteration
