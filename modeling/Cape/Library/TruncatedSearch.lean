import Cape.Library.DepthFirst

/-!
# Depth-first search that stops entering

`dfsUntil` sees the elements in the order of `dfs` until a condition on the elements seen holds.
From then on an element is still seen where the search comes to it, and its neighbours are not.

`exists_stopsAt`: seen in the end are the elements up to the first one with which the condition holds,
the roots, and the neighbours of the elements that the search was in then. It is in `a` when it sees
`w` where `w` is reached from `a` through elements that were not seen when `a` was (`Leads`).
-/

set_option autoImplicit false

namespace Cape.Library

universe u

variable {α : Type u} [DecidableEq α] {next : α → List α}

/-! ## The order of the search -/

theorem suffix_dfs : ∀ (depth : Nat) (roots seen : List α), seen <:+ dfs next depth roots seen := by
  intro depth
  induction depth with
  | zero => exact fun _ _ => List.suffix_refl _
  | succ depth ih =>
      intro roots
      induction roots with
      | nil => exact fun _ => List.suffix_refl _
      | cons a roots ihroots =>
          intro seen
          rw [dfs_cons]
          apply List.IsSuffix.trans _ (ihroots _)
          split
          · exact List.suffix_refl _
          · exact List.IsSuffix.trans (List.suffix_cons a seen) (ih _ _)

theorem nodup_dfs : ∀ (depth : Nat) (roots seen : List α), seen.Nodup →
    (dfs next depth roots seen).Nodup := by
  intro depth
  induction depth with
  | zero => exact fun _ _ h => h
  | succ depth ih =>
      intro roots
      induction roots with
      | nil => exact fun _ h => h
      | cons a roots ihroots =>
          intro seen h
          rw [dfs_cons]
          apply ihroots
          split
          · exact h
          · next ha => exact ih _ _ (List.nodup_cons.2 ⟨ha, h⟩)

variable (next) in
/-- The search that has seen `seen`, last first, was in `a` when it came to `w`. -/
def Leads (seen : List α) (a w : α) : Prop :=
  ∃ earlier, a :: earlier <:+ seen ∧ Relation.ReflTransGen (Unseen next (a :: earlier)) a w

omit [DecidableEq α] in
/-- An initial part of the order contains an element together with all before it, or only what is
before it. -/
theorem suffix_cases {x : α} {rest part order : List α} (h : x :: rest <:+ order)
    (hpart : part <:+ order) : x :: rest <:+ part ∨ part <:+ rest := by
  rcases List.suffix_or_suffix_of_suffix h hpart with h | h
  · exact Or.inl h
  · rcases List.suffix_cons_iff.1 h with heq | h
    · exact Or.inl (heq ▸ List.suffix_refl _)
    · exact Or.inr h

omit [DecidableEq α] in
theorem not_mem_of_suffix {x : α} {rest order : List α} (h : x :: rest <:+ order)
    (hnodup : order.Nodup) : x ∉ rest :=
  (List.nodup_cons.1 (hnodup.sublist h.sublist)).1

/-- An element is a root, or a neighbour of one that was seen before it. -/
theorem exists_caller : ∀ (depth : Nat) (roots seen : List α), seen.Nodup →
    ∀ {x : α} {rest : List α}, x :: rest <:+ dfs next depth roots seen → x ∉ seen →
      x ∈ roots ∨ ∃ a ∈ rest, x ∈ next a := by
  intro depth
  induction depth with
  | zero => exact fun _ _ _ _ _ h hnot => absurd (h.subset List.mem_cons_self) hnot
  | succ depth ih =>
      intro roots
      induction roots with
      | nil => exact fun _ _ _ _ h hnot => absurd (h.subset List.mem_cons_self) hnot
      | cons r roots ihroots =>
          intro seen hnodup x rest h hnot
          have hone : (dfs next (depth + 1) [r] seen).Nodup := nodup_dfs _ _ _ hnodup
          rw [dfs_cons] at h
          rcases suffix_cases h (suffix_dfs (depth + 1) roots _) with hfirst | hlater
          · -- `x` was seen from `r`
            split at hfirst
            · exact absurd (hfirst.subset List.mem_cons_self) hnot
            · next hr =>
                rcases suffix_cases hfirst (suffix_dfs depth (next r) (r :: seen)) with hx | hx
                · rcases List.mem_cons.1 (hx.subset List.mem_cons_self) with rfl | hmem
                  · exact Or.inl List.mem_cons_self
                  · exact absurd hmem hnot
                · have hnodup' : (r :: seen).Nodup := List.nodup_cons.2 ⟨hr, hnodup⟩
                  have hxnot : x ∉ r :: seen := fun hmem =>
                    not_mem_of_suffix hfirst (nodup_dfs _ _ _ hnodup') (hx.subset hmem)
                  rcases ih _ _ hnodup' hfirst hxnot with hmem | hcaller
                  · exact Or.inr ⟨r, hx.subset List.mem_cons_self, hmem⟩
                  · exact Or.inr hcaller
          · -- `x` was seen later
            rcases ihroots _ hone h (fun hmem => not_mem_of_suffix h (nodup_dfs _ _ _ hone)
              (hlater.subset hmem)) with hmem | hcaller
            · exact Or.inl (List.mem_cons_of_mem _ hmem)
            · exact Or.inr hcaller

omit [DecidableEq α] in
/-- A search that is over was in none of its elements when a later one was seen. -/
theorem not_leads {seen seen' pre : List α} {a w : α} (hentered : Entered next seen seen')
    (hsub : seen <:+ seen') (hpre : seen' <:+ pre) (ha : a ∈ seen') (hnot : a ∉ seen)
    (hw : w ∉ pre) : ¬ Leads next pre a w := by
  rintro ⟨earlier, hsuffix, hpath⟩
  have hearlier : seen <:+ a :: earlier := by
    rcases List.suffix_or_suffix_of_suffix (hsub.trans hpre) hsuffix with h | h
    · exact h
    · exact absurd (h.subset List.mem_cons_self) hnot
  -- the path does not leave what the search has entered
  have hinside : w ∈ seen' ∧ w ∉ seen := by
    clear hw
    induction hpath with
    | refl => exact ⟨ha, hnot⟩
    | tail _ hstep ih =>
        exact ⟨hentered _ ih.1 ih.2 hstep.1, fun hmem => hstep.2 (hearlier.subset hmem)⟩
  exact hw (hpre.subset hinside.1)

/-- The search is in `a` when it sees `w`, where a neighbour of `a` is not seen yet. -/
theorem leads_of_not_mem {expands : Finset α} (hexpands : ∀ a, next a ≠ [] → a ∈ expands) :
    ∀ (depth : Nat) (roots seen : List α), (expands.filter (· ∉ seen)).card < depth →
      seen.Nodup → ∀ {a w y : α} {pre : List α}, w :: pre <:+ dfs next depth roots seen →
      a ∈ pre → a ∉ seen → y ∈ next a → y ∉ w :: pre → Leads next pre a w := by
  intro depth
  induction depth with
  | zero => exact fun _ _ h => absurd h (Nat.not_lt_zero _)
  | succ depth ih =>
      intro roots
      induction roots with
      | nil =>
          intro seen _ _ a w y pre h ha hnot
          exact absurd (h.subset (List.mem_cons_of_mem _ ha)) hnot
      | cons r roots ihroots =>
          intro seen hcard hnodup a w y pre h ha hnot hy hnoty
          obtain ⟨_, hentered⟩ := entered_dfs hexpands (depth + 1) [r] seen hcard
          have hone : (dfs next (depth + 1) [r] seen).Nodup := nodup_dfs _ _ _ hnodup
          have hsub : seen <:+ dfs next (depth + 1) [r] seen := suffix_dfs _ _ _
          rw [dfs_cons] at h
          rcases suffix_cases h (suffix_dfs (depth + 1) roots _) with hfirst | hlater
          · -- `w` was seen from `r`
            split at hfirst
            · exact absurd (hfirst.subset (List.mem_cons_of_mem _ ha)) hnot
            · next hr =>
                have hnodup' : (r :: seen).Nodup := List.nodup_cons.2 ⟨hr, hnodup⟩
                rcases suffix_cases hfirst (suffix_dfs depth (next r) (r :: seen)) with hw | hw
                · rcases List.suffix_cons_iff.1 hw with heq | hw
                  · exact absurd ((List.cons.inj heq).2 ▸ ha) hnot
                  · exact absurd (hw.subset (List.mem_cons_of_mem _ ha)) hnot
                · by_cases heq : a = r
                  · subst heq
                    refine ⟨seen, hw, ?_⟩
                    have hnotw : w ∉ a :: seen := fun hmem =>
                      not_mem_of_suffix hfirst (nodup_dfs _ _ _ hnodup') (hw.subset hmem)
                    rcases of_mem_dfs depth (next a) (a :: seen)
                      (hfirst.subset List.mem_cons_self) with hmem | ⟨b, hb, hnotb, hpath⟩
                    · exact absurd hmem hnotw
                    · exact .head ⟨hb, hnotb⟩ hpath
                  · have hnext : next r ≠ [] := by
                      intro hnil
                      rw [hnil, dfs_nil] at hfirst
                      rcases List.mem_cons.1 (hfirst.subset (List.mem_cons_of_mem _ ha))
                        with h' | h'
                      · exact heq h'
                      · exact hnot h'
                    have hlt := card_unseen_cons (hexpands r hnext) hr
                    refine ih (next r) (r :: seen) (by omega) hnodup' hfirst ha ?_ hy hnoty
                    rw [List.mem_cons]
                    exact fun hmem => hmem.elim heq hnot
          · -- `w` was seen later
            by_cases hmem : a ∈ dfs next (depth + 1) [r] seen
            · exact absurd (List.mem_cons_of_mem _ (hlater.subset (hentered a hmem hnot hy))) hnoty
            · exact ihroots _ (lt_of_le_of_lt (card_unseen_mono hsub.subset) hcard) hone h ha hmem
                hy hnoty

omit [DecidableEq α] in
theorem leads_iff {a w : α} {earlier pre : List α} (hnodup : pre.Nodup)
    (hsuffix : a :: earlier <:+ pre) :
    Leads next pre a w ↔ Relation.ReflTransGen (Unseen next (a :: earlier)) a w := by
  constructor
  · rintro ⟨earlier', hsuffix', hpath⟩
    -- nothing repeats, so what was seen before `a` is one list
    rcases suffix_cases hsuffix' hsuffix with h | h
    · rcases List.suffix_cons_iff.1 h with heq | h
      · exact heq ▸ hpath
      · exact absurd (h.subset List.mem_cons_self) (not_mem_of_suffix hsuffix hnodup)
    · exact absurd (h.subset List.mem_cons_self) (not_mem_of_suffix hsuffix' hnodup)
  · exact fun hpath => ⟨earlier, hsuffix, hpath⟩

/-! ## The search that stops -/

section Stop

variable (next) (stop : List α → Prop) [DecidablePred stop]

/-- The elements seen, the last one first. -/
def dfsUntil : Nat → List α → List α → List α
  | 0, _, seen => seen
  | depth + 1, roots, seen =>
      roots.foldl (fun seen a =>
        if a ∈ seen then seen
        else if stop (a :: seen) then a :: seen
        else dfsUntil depth (next a) (a :: seen)) seen

variable {next stop}

@[simp] theorem dfsUntil_nil (depth : Nat) (seen : List α) :
    dfsUntil next stop depth [] seen = seen := by
  cases depth with
  | zero => rfl
  | succ depth => rfl

theorem dfsUntil_cons (depth : Nat) (a : α) (roots seen : List α) :
    dfsUntil next stop (depth + 1) (a :: roots) seen = dfsUntil next stop (depth + 1) roots
      (if a ∈ seen then seen else if stop (a :: seen) then a :: seen
        else dfsUntil next stop depth (next a) (a :: seen)) := rfl

theorem suffix_dfsUntil : ∀ (depth : Nat) (roots seen : List α),
    seen <:+ dfsUntil next stop depth roots seen := by
  intro depth
  induction depth with
  | zero => exact fun _ _ => List.suffix_refl _
  | succ depth ih =>
      intro roots
      induction roots with
      | nil => exact fun _ => List.suffix_refl _
      | cons a roots ihroots =>
          intro seen
          rw [dfsUntil_cons]
          apply List.IsSuffix.trans _ (ihroots _)
          split
          · exact List.suffix_refl _
          · split
            · exact List.suffix_cons a seen
            · exact List.IsSuffix.trans (List.suffix_cons a seen) (ih _ _)

variable (hstop : ∀ a seen, stop seen → stop (a :: seen))

include hstop in
omit [DecidableEq α] [DecidablePred stop] in
theorem stop_of_suffix {seen seen' : List α} (h : seen <:+ seen') (hseen : stop seen) :
    stop seen' := by
  obtain ⟨later, rfl⟩ := h
  induction later with
  | nil => exact hseen
  | cons a later ih => exact hstop a _ ih

include hstop in
/-- Once the condition holds, the roots are seen and nothing else. -/
theorem mem_dfsUntil_of_stop (depth : Nat) (roots : List α) : ∀ seen, stop seen → ∀ x,
    x ∈ dfsUntil next stop (depth + 1) roots seen ↔ x ∈ seen ∨ x ∈ roots := by
  induction roots with
  | nil =>
      intro seen _ x
      simp [dfsUntil]
  | cons a roots ih =>
      intro seen hseen x
      rw [dfsUntil_cons, if_pos (hstop a seen hseen)]
      split
      · next ha =>
          rw [ih seen hseen, List.mem_cons]
          constructor
          · exact fun h => h.imp_right Or.inr
          · rintro (h | rfl | h)
            · exact Or.inl h
            · exact Or.inl ha
            · exact Or.inr h
      · rw [ih _ (hstop a seen hseen), List.mem_cons, List.mem_cons]
        tauto

include hstop in
/-- A search that never meets the condition is the plain one. -/
theorem dfsUntil_eq_dfs : ∀ (depth : Nat) (roots seen : List α),
    ¬ stop (dfs next depth roots seen) →
      dfsUntil next stop depth roots seen = dfs next depth roots seen := by
  intro depth
  induction depth with
  | zero => exact fun _ _ _ => rfl
  | succ depth ih =>
      intro roots
      induction roots with
      | nil => exact fun _ _ => rfl
      | cons a roots ihroots =>
          intro seen hnot
          rw [dfs_cons] at hnot ⊢
          rw [dfsUntil_cons]
          have hhead : ¬ stop (if a ∈ seen then seen else dfs next depth (next a) (a :: seen)) :=
            fun h => hnot (stop_of_suffix hstop (suffix_dfs _ _ _) h)
          have heq : (if a ∈ seen then seen else if stop (a :: seen) then a :: seen
              else dfsUntil next stop depth (next a) (a :: seen)) =
              if a ∈ seen then seen else dfs next depth (next a) (a :: seen) := by
            split
            · rfl
            · next ha =>
                rw [if_neg ha] at hhead
                rw [if_neg fun h => hhead (stop_of_suffix hstop (suffix_dfs _ _ _) h),
                  ih _ _ hhead]
          rw [heq]
          exact ihroots _ hnot

variable {expands : Finset α}

variable (next stop) in
/-- The condition is met when `w` is seen, after `pre`. -/
structure StopsAt (roots seen order result pre : List α) (w : α) : Prop where
  order_suffix : w :: pre <:+ order
  seen_suffix : seen <:+ pre
  fresh : w ∉ pre
  meets : stop (w :: pre)
  before : ¬ stop pre
  result_suffix : w :: pre <:+ result
  mem : ∀ x, x ∈ result ↔
    x ∈ w :: pre ∨ x ∈ roots ∨ ∃ a ∈ pre, a ∉ seen ∧ x ∈ next a ∧ Leads next pre a w

include hstop in
/-- The condition is met when the first root is seen. -/
theorem stopsAt_root {depth : Nat} {a : α} {roots seen order : List α} (ha : a ∉ seen)
    (hnot : ¬ stop seen) (hhere : stop (a :: seen)) (horder : a :: seen <:+ order) :
    StopsAt next stop (a :: roots) seen order
      (dfsUntil next stop (depth + 1) roots (a :: seen)) seen a := by
  refine ⟨horder, List.suffix_refl _, ha, hhere, hnot, suffix_dfsUntil _ _ _, fun x => ?_⟩
  rw [mem_dfsUntil_of_stop hstop depth roots _ hhere]
  constructor
  · exact fun h => h.imp_right fun h => Or.inl (List.mem_cons_of_mem _ h)
  · rintro (h | h | ⟨b, hb, hnot, _⟩)
    · exact Or.inl h
    · rcases List.mem_cons.1 h with rfl | h
      · exact Or.inl List.mem_cons_self
      · exact Or.inr h
    · exact absurd hb hnot

include hstop in
/-- The condition is met below the first root. -/
theorem stopsAt_below {depth : Nat} {a w : α} {roots seen pre order : List α} (ha : a ∉ seen)
    (hbelow : StopsAt next stop (next a) (a :: seen) (dfs next depth (next a) (a :: seen))
      (dfsUntil next stop depth (next a) (a :: seen)) pre w)
    (horder : dfs next depth (next a) (a :: seen) <:+ order) :
    StopsAt next stop (a :: roots) seen order (dfsUntil next stop (depth + 1) roots
      (dfsUntil next stop depth (next a) (a :: seen))) pre w := by
  have hmem : a ∈ pre := hbelow.seen_suffix.subset List.mem_cons_self
  have hstopped := stop_of_suffix hstop hbelow.result_suffix hbelow.meets
  -- the search is in `a`
  have hleads : Leads next pre a w := by
    refine ⟨seen, hbelow.seen_suffix, ?_⟩
    rcases of_mem_dfs depth (next a) (a :: seen) (hbelow.order_suffix.subset List.mem_cons_self)
      with hw | ⟨b, hb, hnot, hpath⟩
    · exact absurd (hbelow.seen_suffix.subset hw) hbelow.fresh
    · exact .head ⟨hb, hnot⟩ hpath
  refine ⟨hbelow.order_suffix.trans horder, (List.suffix_cons a seen).trans hbelow.seen_suffix, hbelow.fresh,
    hbelow.meets, hbelow.before, hbelow.result_suffix.trans (suffix_dfsUntil _ _ _), fun x => ?_⟩
  rw [mem_dfsUntil_of_stop hstop depth roots _ hstopped, hbelow.mem]
  constructor
  · rintro ((h | h | ⟨b, hb, hnot, hx, hleads'⟩) | h)
    · exact Or.inl h
    · exact Or.inr (Or.inr ⟨a, hmem, ha, h, hleads⟩)
    · exact Or.inr (Or.inr ⟨b, hb, fun h => hnot (List.mem_cons_of_mem _ h), hx, hleads'⟩)
    · exact Or.inr (Or.inl (List.mem_cons_of_mem _ h))
  · rintro (h | h | ⟨b, hb, hnot, hx, hleads'⟩)
    · exact Or.inl (Or.inl h)
    · rcases List.mem_cons.1 h with rfl | h
      · exact Or.inl (Or.inl (List.mem_cons_of_mem _ hmem))
      · exact Or.inr h
    · by_cases heq : b = a
      · subst heq
        exact Or.inl (Or.inr (Or.inl hx))
      · refine Or.inl (Or.inr (Or.inr ⟨b, hb, fun h => ?_, hx, hleads'⟩))
        rcases List.mem_cons.1 h with h | h
        · exact heq h
        · exact hnot h

omit [DecidableEq α] [DecidablePred stop] in
/-- The condition is met after the first root. -/
theorem stopsAt_after {a w : α} {roots seen seen' pre order result : List α}
    (hsub : seen <:+ seen') (ha : a ∈ seen') (hentered : Entered next seen seen')
    (hafter : StopsAt next stop roots seen' order result pre w) :
    StopsAt next stop (a :: roots) seen order result pre w := by
  refine ⟨hafter.order_suffix, hsub.trans hafter.seen_suffix, hafter.fresh, hafter.meets, hafter.before,
    hafter.result_suffix, fun x => ?_⟩
  rw [hafter.mem]
  constructor
  · rintro (h | h | ⟨b, hb, hnot, hx, hleads⟩)
    · exact Or.inl h
    · exact Or.inr (Or.inl (List.mem_cons_of_mem _ h))
    · exact Or.inr (Or.inr ⟨b, hb, fun h => hnot (hsub.subset h), hx, hleads⟩)
  · rintro (h | h | ⟨b, hb, hnot, hx, hleads⟩)
    · exact Or.inl h
    · rcases List.mem_cons.1 h with rfl | h
      · exact Or.inl (List.mem_cons_of_mem _ (hafter.seen_suffix.subset ha))
      · exact Or.inr (Or.inl h)
    · refine Or.inr (Or.inr ⟨b, hb, fun hmem => ?_, hx, hleads⟩)
      exact not_leads hentered hsub hafter.seen_suffix hmem hnot hafter.fresh hleads

include hstop in
/-- **What a search that meets the condition has seen.** -/
theorem exists_stopsAt (hexpands : ∀ a, next a ≠ [] → a ∈ expands) : ∀ (depth : Nat)
    (roots seen : List α), (expands.filter (· ∉ seen)).card < depth → ¬ stop seen →
      stop (dfs next depth roots seen) → ∃ w pre, StopsAt next stop roots seen
        (dfs next depth roots seen) (dfsUntil next stop depth roots seen) pre w := by
  intro depth
  induction depth with
  | zero => exact fun _ _ h => absurd h (Nat.not_lt_zero _)
  | succ depth ih =>
      intro roots
      induction roots with
      | nil => exact fun seen _ hnot hmeets => absurd hmeets hnot
      | cons a roots ihroots =>
          intro seen hcard hnot hmeets
          rw [dfs_cons] at hmeets ⊢
          rw [dfsUntil_cons]
          obtain ⟨seen', hseen'⟩ : ∃ seen', seen' =
              if a ∈ seen then seen else dfs next depth (next a) (a :: seen) := ⟨_, rfl⟩
          have hone : seen' = dfs next (depth + 1) [a] seen := hseen'
          have hsub : seen <:+ seen' := hone ▸ suffix_dfs _ _ _
          obtain ⟨hroot, hentered⟩ := entered_dfs hexpands (depth + 1) [a] seen hcard
          rw [← hone] at hroot hentered
          rw [← hseen'] at hmeets ⊢
          by_cases hstopped : stop seen'
          · -- the condition is met at `a` or below it
            have ha : a ∉ seen := by
              intro ha
              rw [if_pos ha] at hseen'
              exact hnot (hseen' ▸ hstopped)
            rw [if_neg ha] at hseen' ⊢
            subst hseen'
            by_cases hhere : stop (a :: seen)
            · rw [if_pos hhere]
              exact ⟨a, seen, stopsAt_root hstop ha hnot hhere
                ((suffix_dfs _ _ _).trans (suffix_dfs _ _ _))⟩
            · rw [if_neg hhere]
              have hnext : next a ≠ [] := by
                intro hnil
                rw [hnil, dfs_nil] at hstopped
                exact hhere hstopped
              have hlt := card_unseen_cons (hexpands a hnext) ha
              obtain ⟨w, pre, hbelow⟩ := ih (next a) (a :: seen) (by omega) hhere hstopped
              exact ⟨w, pre, stopsAt_below hstop ha hbelow (suffix_dfs _ _ _)⟩
          · -- it is met later
            have heq : (if a ∈ seen then seen else if stop (a :: seen) then a :: seen
                else dfsUntil next stop depth (next a) (a :: seen)) = seen' := by
              rw [hone] at hstopped
              rw [hone, ← dfsUntil_eq_dfs hstop _ _ _ hstopped]
              rfl
            rw [heq]
            obtain ⟨w, pre, hafter⟩ := ihroots seen'
              (lt_of_le_of_lt (card_unseen_mono hsub.subset) hcard) hstopped hmeets
            exact ⟨w, pre, stopsAt_after hsub (hroot List.mem_cons_self) hentered hafter⟩

end Stop

end Cape.Library
