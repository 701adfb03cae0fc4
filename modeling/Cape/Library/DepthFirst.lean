import Mathlib.Data.Finset.Card
import Mathlib.Logic.Relation
import Mathlib.Tactic

/-!
# Depth-first search by recursion

`dfs` sees the roots in order. An element that was not seen is entered, and its neighbours are seen
before the next root. The recursion has a bound on its depth; a bound above the number of elements
that have neighbours and were not seen is never reached.

`mem_dfs`: seen in the end are the elements seen before and those that a root reaches through unseen
ones.
-/

set_option autoImplicit false

namespace Cape.Library

universe u

variable {α : Type u} (next : α → List α)

/-- The elements seen, the last one first. -/
def dfs [DecidableEq α] : Nat → List α → List α → List α
  | 0, _, seen => seen
  | depth + 1, roots, seen =>
      roots.foldl (fun seen a => if a ∈ seen then seen else dfs depth (next a) (a :: seen)) seen

/-- A step to an unseen element. -/
def Unseen (seen : List α) (a b : α) : Prop := b ∈ next a ∧ b ∉ seen

variable {next}

theorem Unseen.mono {seen seen' : List α} (h : seen ⊆ seen') {a b : α}
    (hab : Relation.ReflTransGen (Unseen next seen') a b) :
    Relation.ReflTransGen (Unseen next seen) a b :=
  Relation.ReflTransGen.mono
    (fun _ _ hstep => (⟨hstep.1, fun hmem => hstep.2 (h hmem)⟩ : Unseen next seen _ _)) _ _ hab

variable [DecidableEq α]

@[simp] theorem dfs_nil (depth : Nat) (seen : List α) : dfs next depth [] seen = seen := by
  cases depth with
  | zero => rfl
  | succ depth => rfl

theorem dfs_cons (depth : Nat) (a : α) (roots seen : List α) :
    dfs next (depth + 1) (a :: roots) seen = dfs next (depth + 1) roots
      (if a ∈ seen then seen else dfs next depth (next a) (a :: seen)) := rfl

theorem dfs_append (depth : Nat) (roots roots' seen : List α) :
    dfs next depth (roots ++ roots') seen = dfs next depth roots' (dfs next depth roots seen) := by
  cases depth with
  | zero => rfl
  | succ depth => exact List.foldl_append

theorem subset_dfs : ∀ (depth : Nat) (roots seen : List α), seen ⊆ dfs next depth roots seen := by
  intro depth
  induction depth with
  | zero => exact fun _ _ => List.Subset.refl _
  | succ depth ih =>
      intro roots
      induction roots with
      | nil => exact fun _ => List.Subset.refl _
      | cons a roots ihroots =>
          intro seen
          rw [dfs_cons]
          apply List.Subset.trans _ (ihroots _)
          split
          · exact List.Subset.refl _
          · exact List.Subset.trans (List.subset_cons_self a seen) (ih _ _)

/-- Nothing else is seen. -/
theorem of_mem_dfs : ∀ (depth : Nat) (roots seen : List α) {x : α}, x ∈ dfs next depth roots seen →
    x ∈ seen ∨ ∃ a ∈ roots, a ∉ seen ∧ Relation.ReflTransGen (Unseen next seen) a x := by
  intro depth
  induction depth with
  | zero => exact fun _ _ _ hx => Or.inl hx
  | succ depth ih =>
      intro roots
      induction roots with
      | nil => exact fun _ _ hx => Or.inl hx
      | cons a roots ihroots =>
          intro seen x hx
          rw [dfs_cons] at hx
          split at hx
          · rcases ihroots seen hx with hx | ⟨b, hb, hreach⟩
            · exact Or.inl hx
            · exact Or.inr ⟨b, List.mem_cons_of_mem _ hb, hreach⟩
          · next ha =>
              rcases ihroots _ hx with hx | ⟨b, hb, hnot, hreach⟩
              · rcases ih _ _ hx with hx | ⟨b, hb, hnot, hreach⟩
                · rcases List.mem_cons.1 hx with rfl | hx
                  · exact Or.inr ⟨x, List.mem_cons_self, ha, .refl⟩
                  · exact Or.inl hx
                · have hsub := List.subset_cons_self a seen
                  refine Or.inr ⟨a, List.mem_cons_self, ha, ?_⟩
                  exact .head ⟨hb, fun hmem => hnot (hsub hmem)⟩ (Unseen.mono hsub hreach)
              · have hsub : seen ⊆ dfs next depth (next a) (a :: seen) :=
                  List.Subset.trans (List.subset_cons_self a seen) (subset_dfs _ _ _)
                exact Or.inr ⟨b, List.mem_cons_of_mem _ hb, fun hmem => hnot (hsub hmem),
                  Unseen.mono hsub hreach⟩

/-! ## Completeness -/

/-- The neighbours of the elements entered are seen. -/
def Entered (next : α → List α) (seen seen' : List α) : Prop :=
  ∀ y ∈ seen', y ∉ seen → next y ⊆ seen'

theorem Entered.trans {s₁ s₂ s₃ : List α} (h₁ : Entered next s₁ s₂) (h₂ : Entered next s₂ s₃)
    (hsub : s₂ ⊆ s₃) : Entered next s₁ s₃ := by
  intro y hy hnot
  by_cases hmem : y ∈ s₂
  · exact List.Subset.trans (h₁ y hmem hnot) hsub
  · exact h₂ y hy hmem

variable {expands : Finset α}

/-- Entering an element that has neighbours leaves fewer to expand. -/
theorem card_unseen_cons {a : α} {seen : List α} (ha : a ∈ expands) (hnot : a ∉ seen) :
    (expands.filter (· ∉ a :: seen)).card < (expands.filter (· ∉ seen)).card := by
  apply Finset.card_lt_card
  rw [Finset.ssubset_iff_of_subset]
  · exact ⟨a, Finset.mem_filter.2 ⟨ha, hnot⟩, by simp⟩
  · intro x hx
    obtain ⟨hx, hxa⟩ := Finset.mem_filter.1 hx
    exact Finset.mem_filter.2 ⟨hx, fun hmem => hxa (List.mem_cons_of_mem _ hmem)⟩

theorem card_unseen_mono {seen seen' : List α} (h : seen ⊆ seen') :
    (expands.filter (· ∉ seen')).card ≤ (expands.filter (· ∉ seen)).card := by
  apply Finset.card_le_card
  intro x hx
  obtain ⟨hx, hnot⟩ := Finset.mem_filter.1 hx
  exact Finset.mem_filter.2 ⟨hx, fun hmem => hnot (h hmem)⟩

/-- A search that is deep enough sees its roots and enters what it sees. -/
theorem entered_dfs (hexpands : ∀ a, next a ≠ [] → a ∈ expands) : ∀ (depth : Nat)
    (roots seen : List α), (expands.filter (· ∉ seen)).card < depth →
      roots ⊆ dfs next depth roots seen ∧ Entered next seen (dfs next depth roots seen) := by
  intro depth
  induction depth with
  | zero => exact fun _ _ h => absurd h (Nat.not_lt_zero _)
  | succ depth ih =>
      intro roots
      induction roots with
      | nil => exact fun seen _ => ⟨List.nil_subset _, fun y hy hnot => absurd hy hnot⟩
      | cons a roots ihroots =>
          intro seen hcard
          rw [dfs_cons]
          -- what seeing `a` leaves behind
          have hsee : ∀ seen', seen' = (if a ∈ seen then seen else
              dfs next depth (next a) (a :: seen)) →
              seen ⊆ seen' ∧ a ∈ seen' ∧ Entered next seen seen' := by
            rintro seen' rfl
            split
            · next ha => exact ⟨List.Subset.refl _, ha, fun y hy hnot => absurd hy hnot⟩
            · next ha =>
                have hsub := @subset_dfs _ next _ depth (next a) (a :: seen)
                refine ⟨List.Subset.trans (List.subset_cons_self a seen) hsub,
                  hsub List.mem_cons_self, ?_⟩
                by_cases hnil : next a = []
                · rw [hnil, dfs_nil]
                  intro y hy hnot
                  rcases List.mem_cons.1 hy with rfl | hy
                  · rw [hnil]
                    exact List.nil_subset _
                  · exact absurd hy hnot
                · have hlt := card_unseen_cons (hexpands a hnil) ha
                  obtain ⟨hroots, hentered⟩ := ih (next a) (a :: seen) (by omega)
                  intro y hy hnot
                  by_cases hya : y = a
                  · subst hya
                    exact hroots
                  · refine hentered y hy fun hmem => ?_
                    rcases List.mem_cons.1 hmem with rfl | hmem
                    · exact hya rfl
                    · exact hnot hmem
          obtain ⟨hsub, ha, hentered⟩ := hsee _ rfl
          obtain ⟨hroots, hrest⟩ := ihroots _ (lt_of_le_of_lt (card_unseen_mono hsub) hcard)
          have hmono := @subset_dfs _ next _ (depth + 1) roots
            (if a ∈ seen then seen else dfs next depth (next a) (a :: seen))
          exact ⟨List.cons_subset.2 ⟨hmono ha, hroots⟩, hentered.trans hrest hmono⟩

/-- **What a search that is deep enough has seen.** -/
theorem mem_dfs (hexpands : ∀ a, next a ≠ [] → a ∈ expands) {depth : Nat} {roots seen : List α}
    (hdepth : (expands.filter (· ∉ seen)).card < depth) {x : α} :
    x ∈ dfs next depth roots seen ↔
      x ∈ seen ∨ ∃ a ∈ roots, a ∉ seen ∧ Relation.ReflTransGen (Unseen next seen) a x := by
  constructor
  · exact of_mem_dfs depth roots seen
  · obtain ⟨hroots, hentered⟩ := entered_dfs hexpands depth roots seen hdepth
    rintro (hx | ⟨a, ha, hnot, hreach⟩)
    · exact subset_dfs depth roots seen hx
    · have hboth : x ∈ dfs next depth roots seen ∧ x ∉ seen := by
        induction hreach with
        | refl => exact ⟨hroots ha, hnot⟩
        | tail _ hstep ih => exact ⟨hentered _ ih.1 ih.2 hstep.1, hstep.2⟩
      exact hboth.1

end Cape.Library
