import Mathlib.Data.Finset.Card
import Mathlib.Data.Finset.Interval
import Mathlib.Order.Interval.Finset.Nat
import Mathlib.Tactic

/-!
# Ids from a counter

`IdCounter` gives an id to an object the first time it is asked for: the next value of a counter of
limited width. Id 0 means that the object has no id yet.

While the counter does not overflow, `Gives` says what a sequence of requests does: the new objects
get exactly the next values, each a different one, and no id changes.
-/

set_option autoImplicit false

namespace Cape.Library

universe u

/-- The ids given so far, 0 for none, and the counter. -/
structure IdCounter (α : Type u) where
  id : α → Nat
  counter : Nat

namespace IdCounter

variable {α : Type u} [DecidableEq α] (M : Nat)

/-- Ask for the id of an object; the counter counts modulo `M`. -/
def give (s : IdCounter α) (a : α) : IdCounter α :=
  if 0 < s.id a then s
  else ⟨Function.update s.id a ((s.counter + 1) % M), (s.counter + 1) % M⟩

/-- Requests in order. -/
def giveAll (s : IdCounter α) (l : List α) : IdCounter α := l.foldl (give M) s

/-- The objects asked for, each with the id it has at that moment. -/
def uses : IdCounter α → List α → List (α × Nat)
  | _, [] => []
  | s, a :: l => (a, (give M s a).id a) :: uses (give M s a) l

/-- The objects asked for that have no id. -/
def new (s : IdCounter α) (l : List α) : Finset α := l.toFinset.filter fun a => s.id a = 0

theorem mem_new {s : IdCounter α} {l : List α} {a : α} : a ∈ s.new l ↔ a ∈ l ∧ s.id a = 0 := by
  rw [new, Finset.mem_filter, List.mem_toFinset]

theorem giveAll_append (s : IdCounter α) (l l' : List α) :
    giveAll M s (l ++ l') = giveAll M (giveAll M s l) l' := List.foldl_append

theorem uses_append (l l' : List α) : ∀ s : IdCounter α,
    uses M s (l ++ l') = uses M s l ++ uses M (giveAll M s l) l' := by
  induction l with
  | nil => exact fun s => rfl
  | cons a l ih =>
      intro s
      show _ :: uses M (give M s a) (l ++ l') = _
      rw [ih]
      rfl

theorem new_append_subset (s : IdCounter α) (l l' : List α) : s.new l ⊆ s.new (l ++ l') := by
  intro a ha
  rw [mem_new] at ha ⊢
  exact ⟨List.mem_append_left _ ha.1, ha.2⟩

/-- What requests do while the counter does not overflow. -/
structure Gives (s : IdCounter α) (l : List α) (s' : IdCounter α) : Prop where
  counter : s'.counter = s.counter + (s.new l).card
  kept : ∀ a, s.id a ≠ 0 → s'.id a = s.id a
  other : ∀ a, a ∉ l → s'.id a = s.id a
  above : ∀ a ∈ s.new l, s.counter < s'.id a
  below : ∀ a ∈ s.new l, s'.id a ≤ s.counter + (s.new l).card
  injOn : Set.InjOn s'.id (s.new l)

variable {M}

theorem give_of_pos {s : IdCounter α} {a : α} (ha : 0 < s.id a) : give M s a = s := if_pos ha

theorem give_of_zero {s : IdCounter α} {a : α} (ha : s.id a = 0) (hM : s.counter + 1 < M) :
    give M s a = ⟨Function.update s.id a (s.counter + 1), s.counter + 1⟩ := by
  rw [give, if_neg (by omega), Nat.mod_eq_of_lt hM]

theorem new_cons_of_pos {s : IdCounter α} {a : α} (l : List α) (ha : 0 < s.id a) :
    s.new (a :: l) = s.new l := by
  ext b
  rw [mem_new, mem_new, List.mem_cons]
  constructor
  · rintro ⟨rfl | hb, hzero⟩
    · omega
    · exact ⟨hb, hzero⟩
  · exact fun hb => ⟨Or.inr hb.1, hb.2⟩

theorem new_cons_of_zero {s : IdCounter α} {a : α} (l : List α) (ha : s.id a = 0) (i c : Nat) :
    s.new (a :: l) = insert a (new ⟨Function.update s.id a i, c⟩ l) := by
  ext b
  rw [mem_new, Finset.mem_insert, mem_new, List.mem_cons]
  by_cases hb : b = a
  · subst hb
    simp [ha]
  · simp [hb]

/-- A request takes from the values that are left what it adds to the counter. -/
theorem counter_give {s : IdCounter α} {a : α} {l : List α}
    (hM : s.counter + (s.new (a :: l)).card < M) :
    (give M s a).counter + ((give M s a).new l).card = s.counter + (s.new (a :: l)).card ∧
      (give M s a).id a ≠ 0 := by
  rcases Nat.eq_zero_or_pos (s.id a) with ha | ha
  · have hnew := new_cons_of_zero l ha (s.counter + 1) (s.counter + 1)
    have hnot : a ∉ new ⟨Function.update s.id a (s.counter + 1), s.counter + 1⟩ l := by
      rw [mem_new]
      simp
    rw [hnew, Finset.card_insert_of_notMem hnot] at hM ⊢
    rw [give_of_zero ha (by omega)]
    refine ⟨?_, by simp⟩
    show s.counter + 1 + _ = _
    omega
  · rw [give_of_pos ha, new_cons_of_pos l ha]
    exact ⟨rfl, ha.ne'⟩

theorem counter_giveAll (l l' : List α) : ∀ s : IdCounter α,
    s.counter + (s.new (l ++ l')).card < M →
      (giveAll M s l).counter + ((giveAll M s l).new l').card =
        s.counter + (s.new (l ++ l')).card := by
  induction l with
  | nil => exact fun s _ => rfl
  | cons a l ih =>
      intro s hM
      rw [List.cons_append] at hM ⊢
      obtain ⟨hcard, -⟩ := counter_give hM
      exact (ih _ (hcard ▸ hM)).trans hcard

/-- **Requests give the new objects the next values of the counter.** -/
theorem gives (l : List α) : ∀ s : IdCounter α, s.counter + (s.new l).card < M →
    Gives s l (giveAll M s l) := by
  induction l with
  | nil =>
      intro s _
      exact ⟨rfl, fun _ _ => rfl, fun _ _ => rfl, fun a ha => absurd (mem_new.1 ha).1 List.not_mem_nil,
        fun a ha => absurd (mem_new.1 ha).1 List.not_mem_nil, by simp [new]⟩
  | cons a l ih =>
      intro s hM
      rcases Nat.eq_zero_or_pos (s.id a) with ha | ha
      · have hnew := new_cons_of_zero l ha (s.counter + 1) (s.counter + 1)
        let s₁ : IdCounter α := ⟨Function.update s.id a (s.counter + 1), s.counter + 1⟩
        obtain ⟨hcard, hida₁⟩ := counter_give hM
        have hgive : give M s a = s₁ := by
          have hlt : s.counter + 1 < M := by
            have hpos : 0 < (s.new (a :: l)).card := Finset.card_pos.2 ⟨a, mem_new.2 ⟨List.mem_cons_self, ha⟩⟩
            omega
          exact give_of_zero ha hlt
        rw [hgive] at hcard hida₁
        have hnot : a ∉ s₁.new l := fun hmem => hida₁ (mem_new.1 hmem).2
        have h := ih s₁ (by omega)
        have hida : (giveAll M s₁ l).id a = s.counter + 1 := by
          rw [h.kept a hida₁]
          exact Function.update_self _ _ _
        have hcounter : s₁.counter = s.counter + 1 := rfl
        show Gives s (a :: l) (giveAll M (give M s a) l)
        rw [hgive]
        constructor
        · rw [h.counter, hcard]
        · intro b hb
          have hba : b ≠ a := fun heq => hb (heq ▸ ha)
          have hb₁ : s₁.id b = s.id b := Function.update_of_ne hba _ _
          rw [h.kept b (hb₁ ▸ hb), hb₁]
        · intro b hb
          rw [List.mem_cons, not_or] at hb
          rw [h.other b hb.2]
          exact Function.update_of_ne hb.1 _ _
        · intro b hb
          rw [hnew, Finset.mem_insert] at hb
          rcases hb with rfl | hb
          · omega
          · have := h.above b hb
            omega
        · intro b hb
          rw [hnew, Finset.mem_insert] at hb
          rcases hb with rfl | hb
          · omega
          · have := h.below b hb
            omega
        · -- the first object has the value before all others
          rw [hnew, Finset.coe_insert, Set.injOn_insert (by exact hnot)]
          refine ⟨h.injOn, ?_⟩
          rintro ⟨b, hb, heq⟩
          have := h.above b hb
          omega
      · have hgive : giveAll M s (a :: l) = giveAll M s l := by
          show giveAll M (give M s a) l = _
          rw [give_of_pos ha]
        have hnew := new_cons_of_pos l ha
        have h := ih s (hnew ▸ hM)
        rw [hgive]
        refine ⟨hnew ▸ h.counter, h.kept, fun b hb => h.other b ?_, hnew ▸ h.above, hnew ▸ h.below,
          hnew ▸ h.injOn⟩
        exact fun hmem => hb (List.mem_cons_of_mem _ hmem)

namespace Gives

variable {s s' : IdCounter α} {l : List α} (h : Gives s l s')
include h

/-- Every value up to the new counter is given. -/
theorem exists_id {i : Nat} (hi : s.counter < i) (hi' : i ≤ s'.counter) :
    ∃ a ∈ s.new l, s'.id a = i := by
  have himage : (s.new l).image s'.id = Finset.Ioc s.counter (s.counter + (s.new l).card) := by
    apply Finset.eq_of_subset_of_card_le
    · intro j hj
      obtain ⟨a, ha, rfl⟩ := Finset.mem_image.1 hj
      exact Finset.mem_Ioc.2 ⟨h.above a ha, h.below a ha⟩
    · rw [Finset.card_image_of_injOn h.injOn, Nat.card_Ioc]
      omega
  rw [h.counter] at hi'
  exact Finset.mem_image.1 (himage ▸ Finset.mem_Ioc.2 ⟨hi, hi'⟩)

theorem id_ne_zero {a : α} (ha : a ∈ l) : s'.id a ≠ 0 := by
  by_cases hzero : s.id a = 0
  · have := h.above a (mem_new.2 ⟨ha, hzero⟩)
    omega
  · rw [h.kept a hzero]
    exact hzero

end Gives

/-- While the counter does not overflow an object keeps its id, so every use shows its final id. -/
theorem mem_uses (l : List α) : ∀ s : IdCounter α, s.counter + (s.new l).card < M → ∀ a i,
    (a, i) ∈ uses M s l ↔ a ∈ l ∧ i = (giveAll M s l).id a := by
  induction l with
  | nil => intro s _ a i; simp [uses]
  | cons b l ih =>
      intro s hM a i
      obtain ⟨hcard, hidb⟩ := counter_give hM
      have hM' : (give M s b).counter + ((give M s b).new l).card < M := hcard ▸ hM
      have hkept := (gives l (give M s b) hM').kept b hidb
      show (a, i) ∈ (b, (give M s b).id b) :: uses M (give M s b) l ↔
        a ∈ b :: l ∧ i = (giveAll M (give M s b) l).id a
      rw [List.mem_cons, List.mem_cons, ih _ hM', Prod.mk.injEq]
      constructor
      · rintro (⟨rfl, rfl⟩ | ⟨ha, rfl⟩)
        · exact ⟨Or.inl rfl, hkept.symm⟩
        · exact ⟨Or.inr ha, rfl⟩
      · rintro ⟨rfl | ha, rfl⟩
        · exact Or.inl ⟨rfl, hkept⟩
        · exact Or.inr ⟨ha, rfl⟩

end IdCounter

end Cape.Library
