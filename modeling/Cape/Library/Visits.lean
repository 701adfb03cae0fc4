import Cape.Library.Dominance

/-!
# How often walks visit vertices

`visitedOnce_iff`: every walk from the root to `x` visits `a` exactly once if and only if `a`
dominates `x` and lies on no cycle, or there is no walk to `x`.

`sum_count_iff`: a list of vertices that such walks visit as often as it is long, in total, is
visited once at each of its entries. A vertex that is left out on one walk is therefore not made up
for by another one that is visited twice.
-/

set_option autoImplicit false

namespace Cape.Library

universe u v

variable {α : Type u} {β : Type v} {r : α → α → Prop} {root : α}

/-! ## Sums of counts -/

theorem countP_eq_sum (q : β → Bool) (l : List β) :
    l.countP q = (l.map fun p => if q p then 1 else 0).sum := by
  induction l with
  | nil => rfl
  | cons p l ih => rw [List.countP_cons, List.map_cons, List.sum_cons, ih, Nat.add_comm]

/-- Counting over a list of places, and summing over the entries. -/
theorem sum_countP_comm (q : α → β → Bool) (π : List α) (l : List β) :
    (π.map fun x => l.countP (q x)).sum = (l.map fun p => π.countP fun x => q x p).sum := by
  induction π with
  | nil => simp
  | cons x π ih =>
      simp only [List.map_cons, List.sum_cons, ih, List.countP_cons, List.sum_map_add]
      rw [Nat.add_comm, countP_eq_sum]

/-- Summing over the entries that have a value. -/
theorem sum_filterMap {l : List β} {v : β → Option α} {g : β → Nat} {c : α → Nat}
    (h : ∀ p ∈ l, g p = (v p).elim 0 c) : (l.map g).sum = ((l.filterMap v).map c).sum := by
  induction l with
  | nil => rfl
  | cons p l ih =>
      obtain ⟨hp, hl⟩ := List.forall_mem_cons.1 h
      rw [List.map_cons, List.sum_cons, ih hl, hp]
      cases hv : v p with
      | none => simp [hv]
      | some a => simp [hv]

theorem eq_one_of_sum_of_le {l : List β} {f : β → Nat} (hle : ∀ p ∈ l, f p ≤ 1)
    (hsum : l.length ≤ (l.map f).sum) : ∀ p ∈ l, f p = 1 := by
  induction l with
  | nil => exact fun p hp => absurd hp List.not_mem_nil
  | cons p l ih =>
      obtain ⟨hp, hl⟩ := List.forall_mem_cons.1 hle
      have hbound : (l.map f).sum ≤ l.length := by
        simpa using List.sum_le_card_nsmul (l.map f) 1 (by simpa using hl)
      rw [List.map_cons, List.sum_cons, List.length_cons] at hsum
      refine List.forall_mem_cons.2 ⟨by omega, ih hl (by omega)⟩

theorem eq_one_of_sum_of_ge {l : List β} {f : β → Nat} (hge : ∀ p ∈ l, 1 ≤ f p)
    (hsum : (l.map f).sum ≤ l.length) : ∀ p ∈ l, f p = 1 := by
  induction l with
  | nil => exact fun p hp => absurd hp List.not_mem_nil
  | cons p l ih =>
      obtain ⟨hp, hl⟩ := List.forall_mem_cons.1 hge
      have hbound : l.length ≤ (l.map f).sum := by
        simpa using List.card_nsmul_le_sum (l.map f) 1 (by simpa using hl)
      rw [List.map_cons, List.sum_cons, List.length_cons] at hsum
      refine List.forall_mem_cons.2 ⟨by omega, ih hl (by omega)⟩

/-! ## One vertex -/

variable [DecidableEq α]

/-- Every walk from the root to `x` visits `a` exactly once. -/
def VisitedOnce (r : α → α → Prop) (root x a : α) : Prop :=
  ∀ π, Walk r root π x → π.count a = 1

theorem VisitedOnce.dominates {a x : α} (h : VisitedOnce r root x a) : Dominates r root a x := by
  intro π hπ
  apply List.count_pos_iff.1
  rw [h π hπ]
  exact Nat.one_pos

theorem VisitedOnce.not_cycle {a x : α} (h : VisitedOnce r root x a) (hx : FromRoot r root x) :
    ¬ Relation.TransGen r a a := by
  intro hcycle
  obtain ⟨π, hπ⟩ := hx
  obtain ⟨π₁, π₂, rfl, -, hto, hfrom⟩ := hπ.split_first (h.dominates π hπ)
  obtain ⟨c, hac, hca⟩ := Relation.TransGen.head'_iff.1 hcycle
  obtain ⟨ρ, hρ⟩ := Walk.exists_of_reflTransGen hca
  -- once more around the cycle
  have hagain := h _ ((hto.append hac hρ).join hfrom)
  have hmem : 0 < ρ.count a := List.count_pos_iff.2 hρ.end_mem
  simp only [List.count_append, List.count_singleton_self] at hagain
  omega

theorem visitedOnce_of_not_cycle {a x : α} (hdom : Dominates r root a x)
    (hcycle : ¬ Relation.TransGen r a a) : VisitedOnce r root x a := by
  intro π hπ
  obtain ⟨π₁, π₂, rfl, hlast, hto, -⟩ := hπ.split_last (hdom π hπ)
  have hfirst : a ∉ π₁ := by
    intro hmem
    obtain ⟨σ₁, σ₂, rfl⟩ := List.append_of_mem hmem
    apply hcycle
    rw [List.append_assoc, List.cons_append] at hto
    exact hto.split.2.transGen (List.append_ne_nil_of_right_ne_nil _ (List.cons_ne_nil _ _))
  rw [List.count_append, List.count_cons_self, List.count_eq_zero_of_not_mem hfirst,
    List.count_eq_zero_of_not_mem hlast]

/-- **Visited exactly once** on every walk to `x`: a dominator that lies on no cycle. -/
theorem visitedOnce_iff {a x : α} : VisitedOnce r root x a ↔
    (FromRoot r root x → Dominates r root a x ∧ ¬ Relation.TransGen r a a) := by
  constructor
  · exact fun h hx => ⟨h.dominates, h.not_cycle hx⟩
  · intro h π hπ
    obtain ⟨hdom, hcycle⟩ := h ⟨π, hπ⟩
    exact visitedOnce_of_not_cycle hdom hcycle π hπ

/-! ## A list of vertices -/

/-- **Entries do not make up for one another.** If the walks to `x` visit the vertices of `l`
`l.length` times in total, then each of them once: a walk without repetition visits none twice, so
it visits all; hence every walk visits all, and none twice. -/
theorem sum_count_iff {l : List α} {x : α} :
    (∀ π, Walk r root π x → (l.map fun a => π.count a).sum = l.length) ↔
      ∀ a ∈ l, VisitedOnce r root x a := by
  constructor
  · intro h a ha π hπ
    have hmem : ∀ a ∈ l, 1 ≤ π.count a := by
      intro a ha
      obtain ⟨σ, hσ, hnd, hsub⟩ := hπ.exists_nodup
      have hle : ∀ a ∈ l, σ.count a ≤ 1 := fun a _ => List.nodup_iff_count_le_one.1 hnd a
      have hone := eq_one_of_sum_of_le hle (h σ hσ).ge a ha
      apply List.count_pos_iff.2
      apply hsub
      apply List.count_pos_iff.1
      omega
    exact eq_one_of_sum_of_ge hmem (h π hπ).le a ha
  · intro h π hπ
    rw [List.map_congr_left (g := fun _ => 1) fun a ha => h a ha π hπ]
    simp

end Cape.Library
