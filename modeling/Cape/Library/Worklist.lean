import Mathlib.Data.Finset.Card
import Mathlib.Data.Fintype.Card
import Mathlib.Logic.Relation
import Mathlib.Tactic

/-!
# Worklist search

A worklist search keeps a set of elements already seen and a list of pending elements. It takes the
first pending element and adds each of its neighbours that was not seen to both. New elements go to
the front of the pending list (a stack) or to its end (a queue).

On a finite type the search ends within `Fintype.card α` rounds when it starts with a seen set that
contains the pending elements (`Worklist.pending_run_eq_nil`). The elements seen at the end are those seen
at the start and those reachable from a pending element through unseen ones
(`Worklist.mem_seen_run`), in either discipline; the elements taken from the list are the pending
ones and the newly seen ones (`Worklist.mem_order`).
-/

set_option autoImplicit false

namespace Cape.Library

universe u

variable {α : Type u}

/-- Where new elements go in the pending list. -/
inductive Discipline where
  | stack
  | queue

/-- Add one element to the pending list. -/
def Discipline.push : Discipline → List α → α → List α
  | .stack, l, a => a :: l
  | .queue, l, a => l ++ [a]

@[simp] theorem Discipline.mem_push (d : Discipline) (l : List α) (a x : α) :
    x ∈ d.push l a ↔ x = a ∨ x ∈ l := by
  cases d with
  | stack => exact List.mem_cons
  | queue => simp [Discipline.push, or_comm]

@[simp] theorem Discipline.length_push (d : Discipline) (l : List α) (a : α) :
    (d.push l a).length = l.length + 1 := by
  cases d with
  | stack => rfl
  | queue => simp [Discipline.push]

/-- State of a worklist search. -/
structure Worklist (α : Type u) where
  seen : Finset α
  pending : List α

namespace Worklist

variable [DecidableEq α] (d : Discipline) (next : α → List α)

/-- See an element: the first time, it becomes pending. -/
def see (w : Worklist α) (a : α) : Worklist α :=
  if a ∈ w.seen then w else ⟨insert a w.seen, d.push w.pending a⟩

/-- One round: take the first pending element and see its neighbours in order. -/
def round (w : Worklist α) : Worklist α :=
  match w.pending with
  | [] => w
  | a :: rest => (next a).foldl (see d) ⟨w.seen, rest⟩

/-- `fuel` rounds. -/
def run : Nat → Worklist α → Worklist α
  | 0, w => w
  | fuel + 1, w => run fuel (round d next w)

/-- The elements taken from the pending list in `fuel` rounds, in order. -/
def order : Nat → Worklist α → List α
  | 0, _ => []
  | fuel + 1, w =>
      match w.pending with
      | [] => []
      | a :: _ => a :: order fuel (round d next w)

/-! ## One round -/

theorem seen_subset_see (w : Worklist α) (a : α) : w.seen ⊆ (see d w a).seen := by
  rw [see]
  split
  · exact Finset.Subset.refl _
  · exact Finset.subset_insert _ _

theorem mem_seen_see (w : Worklist α) (a x : α) :
    x ∈ (see d w a).seen ↔ x = a ∨ x ∈ w.seen := by
  rw [see]
  split
  · next h =>
      constructor
      · exact Or.inr
      · rintro (rfl | hx)
        · exact h
        · exact hx
  · exact Finset.mem_insert

theorem mem_pending_see (w : Worklist α) (a x : α) :
    x ∈ (see d w a).pending ↔ x ∈ w.pending ∨ (x = a ∧ x ∉ w.seen) := by
  rw [see]
  split
  · next h =>
      constructor
      · exact Or.inl
      · rintro (hx | ⟨rfl, hx⟩)
        · exact hx
        · exact absurd h hx
  · next h =>
      rw [Discipline.mem_push]
      constructor
      · rintro (rfl | hx)
        · exact Or.inr ⟨rfl, h⟩
        · exact Or.inl hx
      · rintro (hx | ⟨rfl, -⟩)
        · exact Or.inr hx
        · exact Or.inl rfl

theorem mem_seen_foldl_see (l : List α) :
    ∀ (w : Worklist α) (x : α), x ∈ (l.foldl (see d) w).seen ↔ x ∈ l ∨ x ∈ w.seen := by
  induction l with
  | nil => intro w x; simp
  | cons a l ih =>
      intro w x
      rw [List.foldl_cons, ih, mem_seen_see, List.mem_cons]
      tauto

theorem mem_pending_foldl_see (l : List α) :
    ∀ (w : Worklist α) (x : α),
      x ∈ (l.foldl (see d) w).pending ↔ x ∈ w.pending ∨ (x ∈ l ∧ x ∉ w.seen) := by
  induction l with
  | nil => intro w x; simp
  | cons a l ih =>
      intro w x
      rw [List.foldl_cons, ih, mem_pending_see, mem_seen_see, List.mem_cons]
      by_cases hxa : x = a
      · subst hxa
        tauto
      · tauto

theorem seen_subset_run : ∀ (fuel : Nat) (w : Worklist α), w.seen ⊆ (run d next fuel w).seen := by
  intro fuel
  induction fuel with
  | zero => intro w; exact Finset.Subset.refl _
  | succ fuel ih =>
      intro w
      refine Finset.Subset.trans ?_ (ih _)
      obtain ⟨seen, pending⟩ := w
      cases pending with
      | nil => exact Finset.Subset.refl _
      | cons a rest =>
          intro x hx
          show x ∈ ((next a).foldl (see d) ⟨seen, rest⟩).seen
          rw [mem_seen_foldl_see]
          exact Or.inr hx

/-- The size that every round lowers: elements not yet seen plus pending elements. -/
def size [Fintype α] (w : Worklist α) : Nat :=
  (Fintype.card α - w.seen.card) + w.pending.length

theorem size_see [Fintype α] (w : Worklist α) (a : α) : size (see d w a) = size w := by
  unfold see size
  split
  · rfl
  · next h =>
      have hcard : (insert a w.seen).card = w.seen.card + 1 := Finset.card_insert_of_notMem h
      have hle : (insert a w.seen).card ≤ Fintype.card α := Finset.card_le_univ _
      simp only [Discipline.length_push, hcard] at hle ⊢
      omega

theorem size_foldl_see [Fintype α] (l : List α) :
    ∀ w : Worklist α, size (l.foldl (see d) w) = size w := by
  induction l with
  | nil => intro w; rfl
  | cons a l ih =>
      intro w
      rw [List.foldl_cons, ih, size_see]

theorem size_round [Fintype α] (w : Worklist α) (h : w.pending ≠ []) :
    size (round d next w) + 1 = size w := by
  obtain ⟨seen, pending⟩ := w
  cases pending with
  | nil => exact absurd rfl h
  | cons a rest =>
      show size ((next a).foldl (see d) ⟨seen, rest⟩) + 1 = size ⟨seen, a :: rest⟩
      rw [size_foldl_see]
      simp only [size, List.length_cons]
      omega

theorem round_of_pending_nil {w : Worklist α} (h : w.pending = []) : round d next w = w := by
  rw [round]
  rw [h]

theorem run_of_pending_nil {w : Worklist α} (h : w.pending = []) :
    ∀ fuel, run d next fuel w = w := by
  intro fuel
  induction fuel with
  | zero => rfl
  | succ fuel ih => rw [run, round_of_pending_nil d next h, ih]

/-- **The search ends.** As many rounds as the size empty the pending list. -/
theorem pending_run_eq_nil [Fintype α] :
    ∀ (fuel : Nat) (w : Worklist α), size w ≤ fuel → (run d next fuel w).pending = [] := by
  intro fuel
  induction fuel with
  | zero =>
      intro w h
      have hlen : w.pending.length = 0 := by
        rw [size] at h
        omega
      exact List.length_eq_zero_iff.1 hlen
  | succ fuel ih =>
      intro w h
      by_cases hp : w.pending = []
      · rw [run_of_pending_nil d next hp]
        exact hp
      · have := size_round d next w hp
        exact ih _ (by omega)

/-! ## What is seen at the end -/

/-- One step of the search from the seen set `s`: to a neighbour outside it. -/
def Fresh (s : Finset α) (a b : α) : Prop := b ∈ next a ∧ b ∉ s

/-- The elements the search from `w` is to see: those seen, and those reachable from a pending
element by fresh steps. -/
def Target (w : Worklist α) (x : α) : Prop :=
  x ∈ w.seen ∨ ∃ p ∈ w.pending, Relation.ReflTransGen (Fresh next w.seen) p x

omit [DecidableEq α] in
/-- From the last seen element of a path, the rest of it is fresh. -/
theorem fresh_of_reaches {s : Finset α} {a b : α} (ha : a ∈ s)
    (h : Relation.ReflTransGen (fun x y => y ∈ next x) a b) :
    b ∈ s ∨ ∃ p ∈ s, Relation.ReflTransGen (Fresh next s) p b := by
  induction h with
  | refl => exact Or.inl ha
  | @tail b c _ hbc ih =>
      by_cases hc : c ∈ s
      · exact Or.inl hc
      · right
        obtain hb | ⟨p, hp, hpb⟩ := ih
        · exact ⟨b, hb, .single ⟨hbc, hc⟩⟩
        · exact ⟨p, hp, hpb.tail ⟨hbc, hc⟩⟩

/-- What the rounds from `w₀` keep: everything is a target, and of the elements that were taken
every neighbour is seen. -/
structure Invariant (w₀ w : Worklist α) : Prop where
  seen_mono : w₀.seen ⊆ w.seen
  pending_seen : ∀ x ∈ w.pending, x ∈ w.seen
  sound : ∀ x ∈ w.seen, Target next w₀ x
  reached : ∀ x ∈ w.pending, ∃ p ∈ w₀.pending, Relation.ReflTransGen (Fresh next w₀.seen) p x
  taken : ∀ x ∈ w.seen, x ∉ w.pending → (x ∉ w₀.seen ∨ x ∈ w₀.pending) → ∀ y ∈ next x, y ∈ w.seen

omit [DecidableEq α] in
theorem Invariant.init {w : Worklist α} (h : ∀ x ∈ w.pending, x ∈ w.seen) :
    Invariant next w w where
  seen_mono := Finset.Subset.refl _
  pending_seen := h
  sound := fun _ hx => Or.inl hx
  reached := fun x hx => ⟨x, hx, Relation.ReflTransGen.refl⟩
  taken := by
    intro x hx hp hor
    rcases hor with hn | hin
    · exact absurd hx hn
    · exact absurd hin hp

theorem Invariant.round {w₀ w : Worklist α} (h : Invariant next w₀ w) :
    Invariant next w₀ (round d next w) := by
  obtain ⟨seen, pending⟩ := w
  cases pending with
  | nil => exact h
  | cons a rest =>
      show Invariant next w₀ ((next a).foldl (see d) ⟨seen, rest⟩)
      obtain ⟨p, hp, hpa⟩ := h.reached a List.mem_cons_self
      refine ⟨?_, ?_, ?_, ?_, ?_⟩
      · intro x hx
        rw [mem_seen_foldl_see]
        exact Or.inr (h.seen_mono hx)
      · intro x hx
        rw [mem_pending_foldl_see] at hx
        rw [mem_seen_foldl_see]
        rcases hx with hx | ⟨hx, -⟩
        · exact Or.inr (h.pending_seen x (List.mem_cons_of_mem _ hx))
        · exact Or.inl hx
      · intro x hx
        rw [mem_seen_foldl_see] at hx
        by_cases hxs : x ∈ seen
        · exact h.sound x hxs
        · have hxa : x ∈ next a := hx.resolve_right hxs
          exact Or.inr ⟨p, hp, hpa.tail ⟨hxa, fun h0 => hxs (h.seen_mono h0)⟩⟩
      · intro x hx
        rw [mem_pending_foldl_see] at hx
        rcases hx with hx | ⟨hxa, hxs⟩
        · exact h.reached x (List.mem_cons_of_mem _ hx)
        · exact ⟨p, hp, hpa.tail ⟨hxa, fun h0 => hxs (h.seen_mono h0)⟩⟩
      · intro x hx hpend hor y hy
        rw [mem_seen_foldl_see] at hx ⊢
        rw [mem_pending_foldl_see] at hpend
        push Not at hpend
        -- the element just taken has all its neighbours seen; the others had them before
        by_cases hxa : x = a
        · exact Or.inl (hxa ▸ hy)
        · have hxs : x ∈ seen := by
            rcases hx with hx | hx
            · exact hpend.2 hx
            · exact hx
          have hxp : x ∉ a :: rest := by
            intro hmem
            rcases List.mem_cons.1 hmem with hxa' | hrest
            · exact hxa hxa'
            · exact hpend.1 hrest
          exact Or.inr (h.taken x hxs hxp hor y hy)

theorem Invariant.run {w₀ : Worklist α} :
    ∀ (fuel : Nat) {w : Worklist α}, Invariant next w₀ w → Invariant next w₀ (run d next fuel w) := by
  intro fuel
  induction fuel with
  | zero => intro w h; exact h
  | succ fuel ih => intro w h; exact ih (Invariant.round d next h)

/-- **What a finished search has seen**: exactly the targets. -/
theorem mem_seen_run [Fintype α] {w : Worklist α} (hw : ∀ x ∈ w.pending, x ∈ w.seen) {fuel : Nat}
    (hfuel : size w ≤ fuel) (x : α) : x ∈ (run d next fuel w).seen ↔ Target next w x := by
  have hinv : Invariant next w (run d next fuel w) :=
    Invariant.run d next fuel (Invariant.init next hw)
  have hend : (run d next fuel w).pending = [] := pending_run_eq_nil d next fuel w hfuel
  constructor
  · exact hinv.sound x
  · rintro (hx | ⟨p, hp, hpx⟩)
    · exact hinv.seen_mono hx
    · -- along fresh steps every element is seen and was taken
      have key : x ∈ (Worklist.run d next fuel w).seen ∧ (x ∉ w.seen ∨ x ∈ w.pending) := by
        induction hpx with
        | refl => exact ⟨hinv.seen_mono (hw p hp), Or.inr hp⟩
        | tail _ hstep ih =>
            obtain ⟨hb, hnot⟩ := hstep
            exact ⟨hinv.taken _ ih.1 (by rw [hend]; exact List.not_mem_nil) ih.2 _ hb, Or.inl hnot⟩
      exact key.1

/-! ## The order in which elements are taken -/

/-- In a run that empties the list, every element that was pending or becomes seen is taken. -/
theorem mem_order_of_run : ∀ (fuel : Nat) (w : Worklist α), (run d next fuel w).pending = [] →
    ∀ x, x ∈ order d next fuel w ↔
      x ∈ w.pending ∨ (x ∈ (run d next fuel w).seen ∧ x ∉ w.seen) := by
  intro fuel
  induction fuel with
  | zero =>
      intro w h x
      have hp : w.pending = [] := h
      simp [order, run, hp]
  | succ fuel ih =>
      intro w h x
      obtain ⟨seen, pending⟩ := w
      cases pending with
      | nil =>
          have hempty : (⟨seen, []⟩ : Worklist α).pending = [] := rfl
          rw [run_of_pending_nil d next hempty]
          simp [order]
      | cons a rest =>
          have hround : round d next ⟨seen, a :: rest⟩ = (next a).foldl (see d) ⟨seen, rest⟩ := rfl
          have hstep := ih _ h x
          show x ∈ a :: order d next fuel (round d next ⟨seen, a :: rest⟩) ↔ _
          rw [List.mem_cons, hstep, hround, mem_pending_foldl_see, mem_seen_foldl_see, List.mem_cons]
          show _ ↔ _ ∨ (x ∈ (run d next fuel (round d next ⟨seen, a :: rest⟩)).seen ∧ x ∉ seen)
          rw [hround]
          by_cases hseen : x ∈ seen
          · simp [hseen]
          · by_cases hnext : x ∈ next a
            · have hin : x ∈ (run d next fuel ((next a).foldl (see d) ⟨seen, rest⟩)).seen :=
                seen_subset_run d next fuel _ ((mem_seen_foldl_see d _ _ x).2 (Or.inl hnext))
              simp [hseen, hnext, hin]
            · simp [hseen, hnext]
              tauto

/-- **What a finished search has taken**: the pending elements and the targets not seen before. -/
theorem mem_order [Fintype α] {w : Worklist α} (hw : ∀ x ∈ w.pending, x ∈ w.seen) {fuel : Nat}
    (hfuel : size w ≤ fuel) (x : α) :
    x ∈ order d next fuel w ↔ x ∈ w.pending ∨ (Target next w x ∧ x ∉ w.seen) := by
  rw [mem_order_of_run d next fuel w (pending_run_eq_nil d next fuel w hfuel) x,
    mem_seen_run d next hw hfuel]

/-- **What a search from a list takes**: all that can be reached from it. -/
theorem mem_order_from [Fintype α] (l : List α) {fuel : Nat} (hfuel : Fintype.card α ≤ fuel)
    (x : α) : x ∈ order d next fuel (l.foldl (see d) ⟨∅, []⟩) ↔
      ∃ y ∈ l, Relation.ReflTransGen (fun a b => b ∈ next a) y x := by
  have hseen : ∀ x, x ∈ (l.foldl (see d) ⟨∅, []⟩).seen ↔ x ∈ l := fun x => by
    rw [mem_seen_foldl_see]
    simp
  have hpending : ∀ x, x ∈ (l.foldl (see d) ⟨∅, []⟩).pending ↔ x ∈ l := fun x => by
    rw [mem_pending_foldl_see]
    simp
  have hsize : size (l.foldl (see d) ⟨∅, []⟩) ≤ fuel := by
    rw [size_foldl_see]
    simpa [size] using hfuel
  rw [mem_order d next (fun y hy => (hseen y).2 ((hpending y).1 hy)) hsize]
  rw [Target]
  simp only [hseen, hpending]
  constructor
  · rintro (hx | ⟨hx | ⟨y, hy, hway⟩, -⟩)
    · exact ⟨x, hx, .refl⟩
    · exact ⟨x, hx, .refl⟩
    · exact ⟨y, hy, Relation.ReflTransGen.mono (fun _ _ hab => hab.1) _ _ hway⟩
  · rintro ⟨y, hy, hway⟩
    by_cases hx : x ∈ l
    · exact Or.inl hx
    · have hfresh := fresh_of_reaches next ((hseen y).2 hy) hway
      simp only [hseen] at hfresh
      exact Or.inr ⟨hfresh, hx⟩

/-- What is taken was pending, or not seen yet. -/
theorem mem_pending_of_mem_order : ∀ (fuel : Nat) {w : Worklist α} {x : α},
    x ∈ order d next fuel w → x ∈ w.pending ∨ x ∉ w.seen := by
  intro fuel
  induction fuel with
  | zero => exact fun h => absurd h List.not_mem_nil
  | succ fuel ih =>
      intro w x h
      obtain ⟨seen, pending⟩ := w
      cases pending with
      | nil => exact absurd h List.not_mem_nil
      | cons a rest =>
          obtain rfl | h := List.mem_cons.1 h
          · exact Or.inl List.mem_cons_self
          · have hround : round d next ⟨seen, a :: rest⟩ = (next a).foldl (see d) ⟨seen, rest⟩ := rfl
            have h := ih h
            rw [hround, mem_pending_foldl_see, mem_seen_foldl_see] at h
            obtain (h | h) | h := h
            · exact Or.inl (List.mem_cons_of_mem a h)
            · exact Or.inr h.2
            · exact Or.inr fun hs => h (Or.inr hs)

theorem nodup_see {w : Worklist α} (hw : w.pending.Nodup) (hseen : ∀ x ∈ w.pending, x ∈ w.seen)
    (a : α) : (see d w a).pending.Nodup := by
  rw [see]
  split
  · exact hw
  · next ha =>
      have hnot : a ∉ w.pending := fun h => ha (hseen a h)
      cases d with
      | stack => exact List.nodup_cons.2 ⟨hnot, hw⟩
      | queue => exact List.nodup_append.2 ⟨hw, List.nodup_singleton a, by
          intro x hx y hy hxy
          rw [List.mem_singleton] at hy
          exact hnot (hy ▸ hxy ▸ hx)⟩

theorem nodup_foldl_see (l : List α) : ∀ {w : Worklist α}, w.pending.Nodup →
    (∀ x ∈ w.pending, x ∈ w.seen) →
    (l.foldl (see d) w).pending.Nodup ∧ ∀ x ∈ (l.foldl (see d) w).pending,
      x ∈ (l.foldl (see d) w).seen := by
  induction l with
  | nil => exact fun hw hseen => ⟨hw, hseen⟩
  | cons a l ih =>
      intro w hw hseen
      refine ih (nodup_see d hw hseen a) fun x hx => ?_
      rw [mem_seen_see]
      obtain hx | ⟨rfl, -⟩ := (mem_pending_see d w a x).1 hx
      · exact Or.inr (hseen x hx)
      · exact Or.inl rfl

/-- **Nothing is taken twice.** -/
theorem nodup_order : ∀ (fuel : Nat) {w : Worklist α}, w.pending.Nodup →
    (∀ x ∈ w.pending, x ∈ w.seen) → (order d next fuel w).Nodup := by
  intro fuel
  induction fuel with
  | zero => exact fun _ _ => List.nodup_nil
  | succ fuel ih =>
      intro w hw hseen
      obtain ⟨seen, pending⟩ := w
      cases pending with
      | nil => exact List.nodup_nil
      | cons a rest =>
          obtain ⟨ha, hrest⟩ := List.nodup_cons.1 hw
          have haseen : a ∈ seen := hseen a List.mem_cons_self
          have hround : round d next ⟨seen, a :: rest⟩ = (next a).foldl (see d) ⟨seen, rest⟩ := rfl
          obtain ⟨hw', hseen'⟩ := nodup_foldl_see d (next a) (w := ⟨seen, rest⟩) hrest
            fun x hx => hseen x (List.mem_cons_of_mem a hx)
          refine List.nodup_cons.2 ⟨fun hmem => ?_, ?_⟩
          · have h := mem_pending_of_mem_order d next fuel hmem
            rw [hround, mem_pending_foldl_see, mem_seen_foldl_see] at h
            obtain (h | h) | h := h
            · exact ha h
            · exact h.2 haseen
            · exact h (Or.inr haseen)
          · rw [hround]
            exact ih hw' hseen'

/-- What was not pending is taken after an element that it is next to. -/
theorem exists_before_of_order : ∀ (fuel : Nat) {w : Worklist α} {l₁ l₂ : List α} {x : α},
    order d next fuel w = l₁ ++ x :: l₂ → x ∈ w.pending ∨ ∃ y ∈ l₁, x ∈ next y := by
  intro fuel
  induction fuel with
  | zero =>
      intro w l₁ l₂ x h
      exact absurd (congrArg List.length h) (by simp [order])
  | succ fuel ih =>
      intro w l₁ l₂ x h
      obtain ⟨seen, pending⟩ := w
      cases pending with
      | nil => exact absurd (congrArg List.length h) (by simp [order])
      | cons a rest =>
          have hround : round d next ⟨seen, a :: rest⟩ = (next a).foldl (see d) ⟨seen, rest⟩ := rfl
          cases l₁ with
          | nil =>
              obtain rfl := (List.cons.inj h).1
              exact Or.inl List.mem_cons_self
          | cons b l₁ =>
              obtain ⟨rfl, hrest⟩ := List.cons.inj h
              obtain hx | ⟨y, hy, hxy⟩ := ih hrest
              · rw [hround, mem_pending_foldl_see] at hx
                obtain hx | ⟨hx, -⟩ := hx
                · exact Or.inl (List.mem_cons_of_mem _ hx)
                · exact Or.inr ⟨_, List.mem_cons_self, hx⟩
              · exact Or.inr ⟨y, List.mem_cons_of_mem _ hy, hxy⟩

/-! ## What was taken -/

/-- The element was seen, and is not pending any more. -/
def Taken (w : Worklist α) (x : α) : Prop := x ∈ w.seen ∧ x ∉ w.pending

/-- A round takes the first pending element. -/
theorem taken_round {w : Worklist α} {a : α} {rest : List α} (hpending : w.pending = a :: rest)
    (hnodup : w.pending.Nodup) (hseen : ∀ x ∈ w.pending, x ∈ w.seen) (x : α) :
    Taken (round d next w) x ↔ x = a ∨ Taken w x := by
  obtain ⟨seen, pending⟩ := w
  obtain rfl : pending = a :: rest := hpending
  have ha : a ∉ rest := (List.nodup_cons.1 hnodup).1
  have hround : round d next ⟨seen, a :: rest⟩ = (next a).foldl (see d) ⟨seen, rest⟩ := rfl
  rw [Taken, Taken, hround, mem_seen_foldl_see, mem_pending_foldl_see, List.mem_cons]
  -- what is seen anew is pending
  by_cases hxa : x = a
  · subst hxa
    have hx : x ∈ seen := hseen x List.mem_cons_self
    simp [ha, hx]
  · simp only [hxa, false_or]
    tauto

/-- A search under way: nothing is pending twice, and what is pending was so at the start or is next to
an element that was taken. -/
structure Underway (w₀ w : Worklist α) : Prop extends Invariant next w₀ w where
  nodup : w.pending.Nodup
  found : ∀ x ∈ w.pending, x ∈ w₀.pending ∨ ∃ y, Taken w y ∧ x ∈ next y

omit [DecidableEq α] in
theorem Underway.init {w : Worklist α} (hnodup : w.pending.Nodup)
    (hseen : ∀ x ∈ w.pending, x ∈ w.seen) : Underway next w w where
  toInvariant := Invariant.init next hseen
  nodup := hnodup
  found _ hx := Or.inl hx

theorem Underway.round {w₀ w : Worklist α} (h : Underway next w₀ w) :
    Underway next w₀ (round d next w) := by
  cases hpending : w.pending with
  | nil =>
      rw [round_of_pending_nil d next hpending]
      exact h
  | cons a rest =>
      have htaken := taken_round d next hpending h.nodup h.pending_seen
      have hround : Worklist.round d next w = (next a).foldl (see d) ⟨w.seen, rest⟩ := by
        rw [Worklist.round, hpending]
      have hrest : ∀ x ∈ rest, x ∈ w.pending := fun x hx =>
        hpending ▸ List.mem_cons_of_mem a hx
      refine ⟨h.toInvariant.round d next, ?_, fun x hx => ?_⟩
      · rw [hround]
        refine (nodup_foldl_see d (next a) (w := ⟨w.seen, rest⟩) ?_ fun x hx => ?_).1
        · exact (List.nodup_cons.1 (hpending ▸ h.nodup)).2
        · exact h.pending_seen x (hrest x hx)
      · rw [hround, mem_pending_foldl_see] at hx
        obtain hx | ⟨hx, -⟩ := hx
        · -- pending before, and what was taken then still is
          obtain hx | ⟨y, hy, hxy⟩ := h.found x (hrest x hx)
          · exact Or.inl hx
          · exact Or.inr ⟨y, (htaken y).2 (Or.inr hy), hxy⟩
        · exact Or.inr ⟨a, (htaken a).2 (Or.inl rfl), hx⟩

omit [DecidableEq α] in
/-- What is seen can be reached. -/
theorem Underway.reaches_of_seen {root : α} {w : Worklist α} (h : Underway next ⟨{root}, [root]⟩ w)
    {x : α} (hx : x ∈ w.seen) : Relation.ReflTransGen (fun a b => b ∈ next a) root x := by
  obtain hx | ⟨p, hp, hpx⟩ := h.sound x hx
  · rw [Finset.mem_singleton.1 hx]
  · obtain rfl := List.mem_singleton.1 hp
    exact Relation.ReflTransGen.mono (fun _ _ hab => hab.1) _ _ hpx

/-- **A search that is over has taken what it can reach.** -/
theorem Underway.taken_iff {root : α} {w : Worklist α} (h : Underway next ⟨{root}, [root]⟩ w)
    (hend : w.pending = []) (x : α) :
    Taken w x ↔ Relation.ReflTransGen (fun a b => b ∈ next a) root x := by
  have hnone : ∀ y, y ∉ w.pending := fun y => hend ▸ List.not_mem_nil
  constructor
  · exact fun hx => h.reaches_of_seen next hx.1
  · intro hway
    refine ⟨?_, hnone x⟩
    induction hway with
    | refl => exact h.seen_mono (Finset.mem_singleton_self root)
    | @tail y z _ hyz ih =>
        -- every element seen was taken, so that its neighbours are seen
        apply h.taken y ih (hnone y) ?_ z hyz
        by_cases hy : y = root
        · exact Or.inr (List.mem_singleton.2 hy)
        · exact Or.inl fun hin => hy (Finset.mem_singleton.1 hin)

end Worklist

end Cape.Library
