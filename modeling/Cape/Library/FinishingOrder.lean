import Mathlib.Data.List.Nodup
import Mathlib.Tactic

/-!
# The order of the elements of a list

`Precedes l a b`: an occurrence of `a` in `l` stands before one of `b`. Where nothing repeats this is
the strict order of the positions; it is kept when elements are put into the list anywhere.

A depth-first search that keeps its finished nodes in the order of finishing, and below them the
stack from its top, has a list of this kind: entering a node puts it between the two, and finishing
one changes nothing.
-/

set_option autoImplicit false

namespace Cape.Library

universe u

variable {α : Type u} {l l' : List α} {a b c : α}

/-- `a` stands before `b`. -/
def Precedes (l : List α) (a b : α) : Prop := [a, b].Sublist l

theorem Precedes.mono (h : Precedes l a b) (hsub : l.Sublist l') : Precedes l' a b :=
  List.Sublist.trans h hsub

theorem Precedes.mem_left (h : Precedes l a b) : a ∈ l := h.subset List.mem_cons_self

theorem Precedes.mem_right (h : Precedes l a b) : b ∈ l :=
  h.subset (List.mem_cons_of_mem _ List.mem_cons_self)

theorem precedes_append (ha : a ∈ l) (hb : b ∈ l') : Precedes (l ++ l') a b :=
  List.Sublist.append (List.singleton_sublist.2 ha) (List.singleton_sublist.2 hb)

theorem precedes_cons_self (hb : b ∈ l) : Precedes (a :: l) a b :=
  List.Sublist.cons_cons a (List.singleton_sublist.2 hb)

section Positions

variable [DecidableEq α]

theorem Precedes.idxOf_lt (h : Precedes l a b) (hnodup : l.Nodup) : l.idxOf a < l.idxOf b := by
  induction l with
  | nil => simp [Precedes] at h
  | cons x l ih =>
      obtain ⟨hx, hnodup⟩ := List.nodup_cons.1 hnodup
      rcases List.sublist_cons_iff.1 h with h | ⟨rest, heq, hrest⟩
      · -- neither of them is the head
        have hxa : x ≠ a := fun heq => hx (heq ▸ Precedes.mem_left h)
        have hxb : x ≠ b := fun heq => hx (heq ▸ Precedes.mem_right h)
        rw [List.idxOf_cons_ne _ hxa, List.idxOf_cons_ne _ hxb]
        exact Nat.succ_lt_succ (ih h hnodup)
      · obtain ⟨rfl, rfl⟩ := List.cons.inj heq
        have hxb : a ≠ b := fun heq => hx (heq ▸ List.singleton_sublist.1 hrest)
        rw [List.idxOf_cons_self, List.idxOf_cons_ne _ hxb]
        exact Nat.succ_pos _

theorem precedes_of_idxOf_lt (hb : b ∈ l) (h : l.idxOf a < l.idxOf b) : Precedes l a b := by
  induction l with
  | nil => simp at hb
  | cons x l ih =>
      by_cases hxa : x = a
      · subst hxa
        rcases List.mem_cons.1 hb with rfl | hb
        · exact absurd h (lt_irrefl _)
        · exact precedes_cons_self hb
      · have hxb : x ≠ b := by
          rintro rfl
          rw [List.idxOf_cons_self] at h
          exact absurd h (Nat.not_lt_zero _)
        rw [List.idxOf_cons_ne _ hxa, List.idxOf_cons_ne _ hxb] at h
        have hb : b ∈ l := (List.mem_cons.1 hb).resolve_left (Ne.symm hxb)
        exact List.Sublist.cons _ (ih hb (Nat.lt_of_succ_lt_succ h))

theorem Precedes.trans (hab : Precedes l a b) (hbc : Precedes l b c) (hnodup : l.Nodup) :
    Precedes l a c :=
  precedes_of_idxOf_lt hbc.mem_right (lt_trans (hab.idxOf_lt hnodup) (hbc.idxOf_lt hnodup))

/-- Before an element of a reversed list stand the elements behind it in the list. -/
theorem precedes_reverse_iff {rest : List α} (hnodup : l.Nodup) (hsuffix : b :: rest <:+ l) :
    Precedes l.reverse a b ↔ a ∈ rest := by
  have hreverse : Precedes l.reverse a b ↔ Precedes l b a := by
    rw [Precedes, Precedes, ← List.reverse_sublist]
    simp
  rw [hreverse]
  constructor
  · intro h
    obtain ⟨later, rfl⟩ := hsuffix
    rcases List.mem_append.1 h.mem_right with ha | ha
    · -- then `a` would stand before `b` as well
      have hba := h.idxOf_lt hnodup
      have hab : Precedes (later ++ b :: rest) a b := precedes_append ha List.mem_cons_self
      exact absurd (hab.idxOf_lt hnodup) (lt_asymm hba)
    · rcases List.mem_cons.1 ha with rfl | ha
      · exact absurd (h.idxOf_lt hnodup) (lt_irrefl _)
      · exact ha
  · exact fun ha => (precedes_cons_self ha).mono hsuffix.sublist

end Positions

end Cape.Library
