import Mathlib.Data.Finset.Basic
import Mathlib.Data.List.Sort

/-!
# Loops that may fail

A loop over a list, as a fold of steps that return a state or fail. `prefix_induction`: what each step
keeps, for the elements that it has behind it, holds at the end. `exists_foldlM`: the loop does not
fail when no step does.
-/

set_option autoImplicit false

namespace Cape.Library.FallibleLoop

universe u v

variable {α : Type u} {σ : Type v} {f : σ → α → Option σ}

/-- Of the elements done, one has the property, or the one that is done now. -/
theorem exists_mem_concat {p : α → Prop} {l : List α} {a : α} :
    (∃ x ∈ l ++ [a], p x) ↔ (∃ x ∈ l, p x) ∨ p a := by
  simp only [List.mem_append, List.mem_singleton, or_and_right, exists_or, exists_eq_left]

/-- An invariant of the elements done. -/
theorem prefix_induction {I : List α → σ → Prop} {l : List α}
    (hstep : ∀ l₁ a l₂, l = l₁ ++ a :: l₂ → ∀ s s', I l₁ s → f s a = some s' → I (l₁ ++ [a]) s')
    {s s' : σ} (hstart : I [] s) (h : l.foldlM f s = some s') : I l s' := by
  -- from any place in the list on
  have hrest : ∀ (l₂ l₁ : List α) (s : σ), l = l₁ ++ l₂ → I l₁ s →
      l₂.foldlM f s = some s' → I l s' := by
    intro l₂
    induction l₂ with
    | nil =>
        intro l₁ s hl hI h
        obtain rfl := Option.some.inj h
        rw [hl, List.append_nil]
        exact hI
    | cons a l₂ ih =>
        intro l₁ s hl hI h
        rw [List.foldlM_cons] at h
        obtain ⟨s₁, hs₁, h⟩ := Option.bind_eq_some_iff.1 h
        refine ih (l₁ ++ [a]) s₁ ?_ (hstep l₁ a l₂ hl s s₁ hI hs₁) h
        rw [hl, List.append_assoc]
        rfl
  exact hrest l [] s rfl hstart h

/-- An invariant of the state alone. -/
theorem keeps {I : σ → Prop} {l : List α}
    (hstep : ∀ a ∈ l, ∀ s s', I s → f s a = some s' → I s') {s s' : σ} (hstart : I s)
    (h : l.foldlM f s = some s') : I s' := by
  refine prefix_induction (I := fun _ s => I s) (fun l₁ a l₂ hl s s' hI hs => ?_) hstart h
  exact hstep a (hl ▸ List.mem_append_right l₁ List.mem_cons_self) s s' hI hs

/-- What the success of its step says about an element. -/
theorem each_step {P : α → Prop} {l : List α}
    (hstep : ∀ a ∈ l, ∀ s s', f s a = some s' → P a) {s s' : σ} (h : l.foldlM f s = some s') :
    ∀ a ∈ l, P a := by
  refine prefix_induction (I := fun l₁ _ => ∀ a ∈ l₁, P a) (fun l₁ a l₂ hl t t' hI ht => ?_)
    (fun a ha => absurd ha List.not_mem_nil) h
  intro b hb
  obtain hb | hb := List.mem_append.1 hb
  · exact hI b hb
  · obtain rfl := List.mem_singleton.1 hb
    exact hstep b (hl ▸ List.mem_append_right l₁ List.mem_cons_self) t t' ht

/-- What the step for an element brings about is there at the end, when the states only grow. -/
theorem each_done {r : σ → σ → Prop} (hrefl : ∀ s, r s s)
    (htrans : ∀ {s t u}, r s t → r t u → r s u) {P : α → σ → Prop}
    (hmono : ∀ {a s t}, r s t → P a s → P a t) {l : List α} {s s' : σ}
    (hstep : ∀ a ∈ l, ∀ t t', r s t → f t a = some t' → r t t' ∧ P a t')
    (h : l.foldlM f s = some s') : r s s' ∧ ∀ a ∈ l, P a s' := by
  refine prefix_induction (I := fun l₁ t => r s t ∧ ∀ a ∈ l₁, P a t)
    (fun l₁ a l₂ hl t t' hI ht => ?_) ⟨hrefl s, fun a ha => absurd ha List.not_mem_nil⟩ h
  obtain ⟨hle, hdone⟩ := hstep a (hl ▸ List.mem_append_right l₁ List.mem_cons_self) t t' hI.1 ht
  refine ⟨htrans hI.1 hle, fun b hb => ?_⟩
  obtain hb | hb := List.mem_append.1 hb
  · exact hmono hle (hI.2 b hb)
  · obtain rfl := List.mem_singleton.1 hb
    exact hdone

/-- The same for steps that do not fail. -/
theorem each_done_foldl {g : σ → α → σ} {r : σ → σ → Prop} (hrefl : ∀ s, r s s)
    (htrans : ∀ {s t u}, r s t → r t u → r s u) {P : α → σ → Prop}
    (hmono : ∀ {a s t}, r s t → P a s → P a t) {l : List α} {s : σ}
    (hstep : ∀ a ∈ l, ∀ t, r s t → r t (g t a) ∧ P a (g t a)) :
    r s (l.foldl g s) ∧ ∀ a ∈ l, P a (l.foldl g s) := by
  have hpure : l.foldlM (fun t a => some (g t a)) s = some (l.foldl g s) := List.foldlM_pure
  refine each_done (P := P) hrefl htrans hmono (fun a ha t t' hle ht => ?_) hpure
  obtain rfl := Option.some.inj ht
  exact hstep a ha t hle

/-- The loop ends with a state in which the invariant holds. -/
theorem exists_foldlM {I : σ → Prop} {l : List α}
    (hstep : ∀ a ∈ l, ∀ s, I s → ∃ s', f s a = some s' ∧ I s') {s : σ} (hstart : I s) :
    ∃ s', l.foldlM f s = some s' ∧ I s' := by
  induction l generalizing s with
  | nil => exact ⟨s, rfl, hstart⟩
  | cons a l ih =>
      obtain ⟨s₁, hs₁, hI⟩ := hstep a List.mem_cons_self s hstart
      obtain ⟨s', hs', hI'⟩ := ih (fun a ha => hstep a (List.mem_cons_of_mem _ ha)) hI
      refine ⟨s', ?_, hI'⟩
      rw [List.foldlM_cons, hs₁]
      exact hs'

/-- The loop ends, with an invariant of the elements done. -/
theorem exists_prefix {I : List α → σ → Prop} {l : List α}
    (hstep : ∀ l₁ a l₂, l = l₁ ++ a :: l₂ → ∀ s, I l₁ s → ∃ s', f s a = some s' ∧ I (l₁ ++ [a]) s')
    {s : σ} (hstart : I [] s) : ∃ s', l.foldlM f s = some s' ∧ I l s' := by
  have hrest : ∀ (l₂ l₁ : List α) (s : σ), l = l₁ ++ l₂ → I l₁ s →
      ∃ s', l₂.foldlM f s = some s' ∧ I l s' := by
    intro l₂
    induction l₂ with
    | nil =>
        intro l₁ s hl hI
        rw [List.append_nil] at hl
        exact ⟨s, rfl, hl ▸ hI⟩
    | cons a l₂ ih =>
        intro l₁ s hl hI
        obtain ⟨s₁, hs₁, hI₁⟩ := hstep l₁ a l₂ hl s hI
        obtain ⟨s', hs', hI'⟩ := ih (l₁ ++ [a]) s₁ (by rw [hl, List.append_assoc]; rfl) hI₁
        refine ⟨s', ?_, hI'⟩
        rw [List.foldlM_cons, hs₁]
        exact hs'
  exact hrest l [] s rfl hstart

/-- The loop ends, and what each step brings about is there at the end. -/
theorem exists_each_done {I : σ → Prop} {r : σ → σ → Prop} (hrefl : ∀ s, r s s)
    (htrans : ∀ {s t u}, r s t → r t u → r s u) {P : α → σ → Prop}
    (hmono : ∀ {a s t}, r s t → P a s → P a t) {l : List α}
    (hstep : ∀ a ∈ l, ∀ s, I s → ∃ s', f s a = some s' ∧ I s' ∧ r s s' ∧ P a s') {s : σ}
    (hstart : I s) : ∃ s', l.foldlM f s = some s' ∧ I s' ∧ r s s' ∧ ∀ a ∈ l, P a s' := by
  induction l generalizing s with
  | nil => exact ⟨s, rfl, hstart, hrefl s, fun a ha => absurd ha List.not_mem_nil⟩
  | cons a l ih =>
      obtain ⟨s₁, hs₁, hI₁, hle₁, hP₁⟩ := hstep a List.mem_cons_self s hstart
      obtain ⟨s', hs', hI', hle', hP'⟩ :=
        ih (fun b hb => hstep b (List.mem_cons_of_mem _ hb)) hI₁
      refine ⟨s', ?_, hI', htrans hle₁ hle', fun b hb => ?_⟩
      · rw [List.foldlM_cons, hs₁]
        exact hs'
      · obtain rfl | hb := List.mem_cons.1 hb
        · exact hmono hle' hP₁
        · exact hP' b hb

/-- The same for steps that do not fail. -/
theorem keeps_each_done_foldl {g : σ → α → σ} {I : σ → Prop} {r : σ → σ → Prop}
    (hrefl : ∀ s, r s s) (htrans : ∀ {s t u}, r s t → r t u → r s u) {P : α → σ → Prop}
    (hmono : ∀ {a s t}, r s t → P a s → P a t) {l : List α}
    (hstep : ∀ a ∈ l, ∀ s, I s → I (g s a) ∧ r s (g s a) ∧ P a (g s a)) {s : σ} (hstart : I s) :
    I (l.foldl g s) ∧ r s (l.foldl g s) ∧ ∀ a ∈ l, P a (l.foldl g s) := by
  obtain ⟨s', hs', h⟩ := exists_each_done (f := fun t a => some (g t a)) (P := P) hrefl htrans hmono
    (fun a ha t ht => ⟨_, rfl, hstep a ha t ht⟩) hstart
  have hpure : l.foldlM (fun t a => some (g t a)) s = some (l.foldl g s) := List.foldlM_pure
  obtain rfl := Option.some.inj (hpure.symm.trans hs')
  exact h

/-- An invariant of the elements done, for steps that do not fail. -/
theorem prefix_induction_foldl {g : σ → α → σ} {I : List α → σ → Prop} {l : List α}
    (hstep : ∀ l₁ a l₂, l = l₁ ++ a :: l₂ → ∀ s, I l₁ s → I (l₁ ++ [a]) (g s a)) {s : σ}
    (hstart : I [] s) : I l (l.foldl g s) := by
  have hpure : l.foldlM (fun t a => some (g t a)) s = some (l.foldl g s) := List.foldlM_pure
  refine prefix_induction (fun l₁ a l₂ hl t t' ht htt' => ?_) hstart hpure
  obtain rfl := Option.some.inj htt'
  exact hstep l₁ a l₂ hl t ht

/-- What the steps add is there at the end, and nothing else. -/
theorem foldl_adds {g : σ → α → σ} {P : σ → Prop} {Q : α → Prop} {l : List α}
    (h : ∀ a ∈ l, ∀ s, P (g s a) ↔ P s ∨ Q a) (s : σ) : P (l.foldl g s) ↔ P s ∨ ∃ a ∈ l, Q a := by
  induction l generalizing s with
  | nil => simp
  | cons a l ih =>
      rw [List.foldl_cons, ih (fun b hb => h b (List.mem_cons_of_mem _ hb)), h a List.mem_cons_self,
        List.exists_mem_cons_iff, or_assoc]

/-- What a loop returns it returns with a body that returns more often. -/
theorem foldlM_mono {f' : σ → α → Option σ} (h : ∀ s a r, f s a = some r → f' s a = some r)
    (l : List α) : ∀ s r, l.foldlM f s = some r → l.foldlM f' s = some r := by
  induction l with
  | nil => exact fun _ _ h => h
  | cons a l ih =>
      intro s r hr
      rw [List.foldlM_cons] at hr ⊢
      obtain ⟨s', hs', hr⟩ := Option.bind_eq_some_iff.1 hr
      exact Option.bind_eq_some_iff.2 ⟨s', h s a s' hs', ih s' r hr⟩

/-- A loop over the first numbers ends exactly when a condition holds for each of them, where this is so
for every step from a state in which the invariant of the numbers done holds. -/
theorem foldlM_range_iff {g : σ → Nat → Option σ} {I : Nat → σ → Prop} {C : Nat → Prop} {m : Nat}
    (hstep : ∀ k < m, ∀ s, I k s →
      ((∃ s', g s k = some s') ↔ C k) ∧ ∀ s', g s k = some s' → I (k + 1) s') {s : σ}
    (hstart : I 0 s) :
    ((∃ s', (List.range m).foldlM g s = some s') ↔ ∀ k < m, C k) ∧
      ∀ s', (List.range m).foldlM g s = some s' → I m s' := by
  induction m with
  | zero =>
      refine ⟨⟨fun _ k hk => absurd hk k.not_lt_zero, fun _ => ⟨s, rfl⟩⟩, fun s' h => ?_⟩
      obtain rfl := Option.some.inj h
      exact hstart
  | succ m ih =>
      obtain ⟨hiff, hinv⟩ := ih fun k hk => hstep k (hk.trans m.lt_succ_self)
      have hlast := hstep m m.lt_succ_self
      have hsplit : (List.range (m + 1)).foldlM g s =
          ((List.range m).foldlM g s).bind fun t => g t m := by
        rw [List.range_succ, List.foldlM_append]
        simp only [List.foldlM_cons, List.foldlM_nil, bind_pure]
        rfl
      -- the last step starts where the loop over the numbers before ends
      rw [hsplit]
      refine ⟨⟨?_, fun hall => ?_⟩, fun s' h => ?_⟩
      · rintro ⟨s', h⟩
        obtain ⟨t, ht, h⟩ := Option.bind_eq_some_iff.1 h
        intro k hk
        rcases Nat.lt_succ_iff_lt_or_eq.1 hk with hk | rfl
        · exact hiff.1 ⟨t, ht⟩ k hk
        · exact (hlast t (hinv t ht)).1.1 ⟨s', h⟩
      · obtain ⟨t, ht⟩ := hiff.2 fun k hk => hall k (hk.trans m.lt_succ_self)
        obtain ⟨s', h⟩ := (hlast t (hinv t ht)).1.2 (hall m m.lt_succ_self)
        exact ⟨s', Option.bind_eq_some_iff.2 ⟨t, ht, h⟩⟩
      · obtain ⟨t, ht, h⟩ := Option.bind_eq_some_iff.1 h
        exact (hlast t (hinv t ht)).2 s' h

end Cape.Library.FallibleLoop

/-- The order in which a loop goes through a set, for every set. A container that is sorted by
addresses may have any. -/
structure Cape.Library.Order (α : Type) where
  toList : Finset α → List α
  nodup : ∀ s, (toList s).Nodup
  mem_toList : ∀ s x, x ∈ toList s ↔ x ∈ s

/-- The order of a set that is sorted. -/
def Cape.Library.Order.ascending (α : Type) [LinearOrder α] : Cape.Library.Order α where
  toList s := Quot.liftOn s.val (List.insertionSort (· ≤ ·)) fun l l' h => by
    have hperm : (l.insertionSort (· ≤ ·)).Perm (l'.insertionSort (· ≤ ·)) :=
      ((List.perm_insertionSort _ l).trans h).trans (List.perm_insertionSort _ l').symm
    exact hperm.eq_of_pairwise' (List.pairwise_insertionSort _ l) (List.pairwise_insertionSort _ l')
  nodup := by
    rintro ⟨⟨l⟩, hl⟩
    exact (List.perm_insertionSort _ l).nodup_iff.2 hl
  mem_toList := by
    rintro ⟨⟨l⟩, hl⟩ x
    exact (List.perm_insertionSort _ l).mem_iff
