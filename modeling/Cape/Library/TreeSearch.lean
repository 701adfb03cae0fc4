import Mathlib.Data.Fintype.Basic
import Mathlib.Logic.Relation
import Mathlib.Order.WellFounded
import Mathlib.Tactic

/-!
# Depth-first search without a visited set

A search space gives every configuration the list of its children and, possibly, a goal. The search
descends into the children in order, stops at the first success below, and looks at the
configuration itself last. It keeps no visited set, so on a cyclic space it may not end.

Main results:

* `SearchSpace.terminates_iff_acc`: the search ends if and only if its start is accessible along
  `Climb`, the calls that are made because the earlier ones cannot succeed.
* `SearchSpace.terminates_iff_acyclic`: on a finite space, if and only if no cycle of climbs is
  reachable.
* `SearchSpace.allTerminate_iff`: a list of searches, tried in order, ends if and only if each
  search that is tried does.
-/

set_option autoImplicit false

namespace Cape.Library

universe u v

variable {σ : Type u} {τ : Type v}

/-- Try the searches in order up to the first success. `none` is a search that does not end;
`some none` is a failure. -/
def firstSome (f : σ → Option (Option τ)) : List σ → Option (Option τ)
  | [] => some none
  | c :: rest =>
      match f c with
      | none => none
      | some (some t) => some (some t)
      | some none => firstSome f rest

/-- The children of a configuration in the order of the search, and its own goal. -/
structure SearchSpace (σ : Type u) (τ : Type v) where
  children : σ → List σ
  goal : σ → Option τ

namespace SearchSpace

variable (S : SearchSpace σ τ)

/-- The search, with at most `fuel` nested calls. -/
def search : Nat → σ → Option (Option τ)
  | 0, _ => none
  | fuel + 1, c =>
      match firstSome (search fuel) (S.children c) with
      | none => none
      | some (some t) => some (some t)
      | some none => some (S.goal c)

/-- Descent to a child. -/
def Child (c d : σ) : Prop := d ∈ S.children c

/-- A goal lies at the configuration or below. -/
def Finds (c : σ) : Prop := ∃ d, Relation.ReflTransGen S.Child c d ∧ (S.goal d).isSome

/-- `c` is in the list, and nothing before it finds a goal. -/
def Tried (l : List σ) (c : σ) : Prop :=
  ∃ before after, l = before ++ c :: after ∧ ∀ d ∈ before, ¬ S.Finds d

/-- A call from `c` to its child `d` after calls that cannot succeed. -/
def Climb (c d : σ) : Prop := S.Tried (S.children c) d

/-- The search ends with some number of nested calls. -/
def Terminates (c : σ) : Prop := ∃ fuel, (S.search fuel c).isSome

/-- The searches tried in order end. -/
def AllTerminate (l : List σ) : Prop := ∃ fuel, (firstSome (S.search fuel) l).isSome

variable {S}

theorem finds_of_child {c d : σ} (hcd : S.Child c d) (hd : S.Finds d) : S.Finds c := by
  obtain ⟨e, hde, he⟩ := hd
  exact ⟨e, .head hcd hde, he⟩

theorem finds_iff (c : σ) : S.Finds c ↔ (S.goal c).isSome ∨ ∃ d, S.Child c d ∧ S.Finds d := by
  constructor
  · rintro ⟨e, hce, he⟩
    rcases Relation.ReflTransGen.cases_head hce with rfl | ⟨d, hcd, hde⟩
    · exact Or.inl he
    · exact Or.inr ⟨d, hcd, e, hde, he⟩
  · rintro (hc | ⟨d, hcd, hd⟩)
    · exact ⟨c, .refl, hc⟩
    · exact finds_of_child hcd hd

/-! ## Trying a list -/

theorem tried_head (c : σ) (rest : List σ) : S.Tried (c :: rest) c :=
  ⟨[], rest, rfl, fun _ hd => absurd hd List.not_mem_nil⟩

theorem tried_cons {c d : σ} {rest : List σ} (hc : ¬ S.Finds c) (hd : S.Tried rest d) :
    S.Tried (c :: rest) d := by
  obtain ⟨before, after, rfl, hbefore⟩ := hd
  refine ⟨c :: before, after, rfl, fun e he => ?_⟩
  rcases List.mem_cons.1 he with rfl | he
  · exact hc
  · exact hbefore e he

theorem tried_cons_iff {c d : σ} {rest : List σ} :
    S.Tried (c :: rest) d ↔ d = c ∨ (¬ S.Finds c ∧ S.Tried rest d) := by
  constructor
  · rintro ⟨before, after, hl, hbefore⟩
    cases before with
    | nil =>
        obtain ⟨rfl, rfl⟩ := List.cons.inj hl
        exact Or.inl rfl
    | cons b before =>
        obtain ⟨rfl, rfl⟩ := List.cons.inj hl
        refine Or.inr ⟨hbefore c List.mem_cons_self, before, after, rfl, fun e he => ?_⟩
        exact hbefore e (List.mem_cons_of_mem _ he)
  · rintro (rfl | ⟨hc, hd⟩)
    · exact tried_head d rest
    · exact tried_cons hc hd

/-- A search that ends answers whether a goal can be found. -/
def Sound (S : SearchSpace σ τ) (f : σ → Option (Option τ)) : Prop :=
  ∀ c r, f c = some r → (r.isSome ↔ S.Finds c)

theorem firstSome_isSome_iff {f : σ → Option (Option τ)} (hf : Sound S f) (l : List σ) :
    (firstSome f l).isSome ↔ ∀ c, S.Tried l c → (f c).isSome := by
  induction l with
  | nil =>
      refine ⟨fun _ c hc => ?_, fun _ => rfl⟩
      obtain ⟨before, after, hl, -⟩ := hc
      simp at hl
  | cons c rest ih =>
      rw [firstSome]
      cases hfc : f c with
      | none =>
          apply iff_of_false Bool.false_ne_true
          intro hall
          have hc := hall c (tried_head c rest)
          rw [hfc] at hc
          cases hc
      | some r =>
          have hsound := hf c r hfc
          cases r with
          | some t =>
              -- the search stops here, and nothing behind it is tried
              apply iff_of_true rfl
              intro d hd
              rcases tried_cons_iff.1 hd with rfl | ⟨hno, -⟩
              · rw [hfc]
                rfl
              · exact absurd (hsound.1 rfl) hno
          | none =>
              have hno : ¬ S.Finds c := fun hfinds => nomatch hsound.2 hfinds
              refine ih.trans ⟨fun hall d hd => ?_, fun hall d hd => hall d (tried_cons hno hd)⟩
              rcases tried_cons_iff.1 hd with rfl | ⟨-, hd⟩
              · rw [hfc]
                rfl
              · exact hall d hd

theorem firstSome_sound {f : σ → Option (Option τ)} (hf : Sound S f) {l : List σ} {r : Option τ}
    (hr : firstSome f l = some r) : r.isSome ↔ ∃ c ∈ l, S.Finds c := by
  induction l with
  | nil =>
      obtain rfl := Option.some.inj hr
      simp
  | cons c rest ih =>
      rw [firstSome] at hr
      cases hfc : f c with
      | none =>
          rw [hfc] at hr
          cases hr
      | some q =>
          rw [hfc] at hr
          have hsound := hf c q hfc
          cases q with
          | some t =>
              obtain rfl := Option.some.inj hr
              exact ⟨fun _ => ⟨c, List.mem_cons_self, hsound.1 rfl⟩, fun _ => rfl⟩
          | none =>
              have hno : ¬ S.Finds c := fun hfinds => nomatch hsound.2 hfinds
              rw [ih hr]
              simp [hno]

/-! ## The search -/

/-- **A search that ends finds a goal if and only if one lies below its start.** -/
theorem search_sound (S : SearchSpace σ τ) (fuel : Nat) : Sound S (S.search fuel) := by
  induction fuel with
  | zero =>
      intro c r hr
      cases hr
  | succ fuel ih =>
      intro c r hr
      rw [search] at hr
      cases hfirst : firstSome (S.search fuel) (S.children c) with
      | none =>
          rw [hfirst] at hr
          cases hr
      | some q =>
          rw [hfirst] at hr
          have hq := firstSome_sound ih hfirst
          rw [finds_iff]
          cases q with
          | some t =>
              obtain rfl := Option.some.inj hr
              obtain ⟨d, hd, hfinds⟩ := hq.1 rfl
              exact ⟨fun _ => Or.inr ⟨d, hd, hfinds⟩, fun _ => rfl⟩
          | none =>
              obtain rfl := Option.some.inj hr
              refine ⟨Or.inl, ?_⟩
              rintro (hgoal | hbelow)
              · exact hgoal
              · have hsome := hq.2 hbelow
                cases hsome

theorem search_succ_isSome (fuel : Nat) (c : σ) :
    (S.search (fuel + 1) c).isSome ↔ ∀ d, S.Climb c d → (S.search fuel d).isSome := by
  have hchildren := firstSome_isSome_iff (S.search_sound fuel) (S.children c)
  apply Iff.trans _ hchildren
  rw [search]
  cases firstSome (S.search fuel) (S.children c) with
  | none => exact Iff.rfl
  | some r =>
      cases r with
      | none => exact Iff.rfl
      | some t => exact Iff.rfl

theorem search_mono {fuel : Nat} : ∀ {c : σ}, (S.search fuel c).isSome →
    (S.search (fuel + 1) c).isSome := by
  induction fuel with
  | zero =>
      intro c h
      cases h
  | succ fuel ih =>
      intro c h
      rw [search_succ_isSome] at h ⊢
      exact fun d hd => ih (h d hd)

theorem search_mono_le {m n : Nat} (hmn : m ≤ n) {c : σ} (h : (S.search m c).isSome) :
    (S.search n c).isSome := by
  induction hmn with
  | refl => exact h
  | step _ ih => exact search_mono ih

/-- Finitely many searches that end do so with a common number of nested calls. -/
theorem exists_common_fuel (P : σ → Prop) (l : List σ) (hP : ∀ c, P c → c ∈ l)
    (hl : ∀ c, P c → S.Terminates c) : ∃ fuel, ∀ c, P c → (S.search fuel c).isSome := by
  induction l generalizing P with
  | nil => exact ⟨0, fun c hc => absurd (hP c hc) List.not_mem_nil⟩
  | cons a l ih =>
      obtain ⟨m, hm⟩ := ih (fun c => P c ∧ c ≠ a)
        (fun c hc => (List.mem_cons.1 (hP c hc.1)).resolve_left hc.2) (fun c hc => hl c hc.1)
      by_cases ha : P a
      · obtain ⟨n, hn⟩ := hl a ha
        refine ⟨max m n, fun c hc => ?_⟩
        by_cases hca : c = a
        · subst hca
          exact search_mono_le (le_max_right m n) hn
        · exact search_mono_le (le_max_left m n) (hm c ⟨hc, hca⟩)
      · exact ⟨m, fun c hc => hm c ⟨hc, fun hca => ha (hca ▸ hc)⟩⟩

theorem mem_of_tried {l : List σ} {c : σ} (h : S.Tried l c) : c ∈ l := by
  obtain ⟨before, after, rfl, -⟩ := h
  exact List.mem_append_right _ List.mem_cons_self

/-- The searches of a list end together if and only if each one that is tried ends. -/
theorem allTerminate_iff (l : List σ) :
    S.AllTerminate l ↔ ∀ c, S.Tried l c → S.Terminates c := by
  constructor
  · rintro ⟨fuel, h⟩ c hc
    exact ⟨fuel, (firstSome_isSome_iff (S.search_sound fuel) l).1 h c hc⟩
  · intro hall
    obtain ⟨fuel, hfuel⟩ := exists_common_fuel (S.Tried l) l (fun _ => mem_of_tried) hall
    exact ⟨fuel, (firstSome_isSome_iff (S.search_sound fuel) l).2 hfuel⟩

theorem terminates_iff (c : σ) : S.Terminates c ↔ ∀ d, S.Climb c d → S.Terminates d := by
  constructor
  · rintro ⟨fuel, h⟩ d hd
    cases fuel with
    | zero => cases h
    | succ fuel => exact ⟨fuel, (search_succ_isSome fuel c).1 h d hd⟩
  · intro hall
    obtain ⟨fuel, hfuel⟩ := exists_common_fuel (S.Climb c) (S.children c) (fun _ => mem_of_tried) hall
    exact ⟨fuel + 1, (search_succ_isSome fuel c).2 hfuel⟩

/-- **The search ends if and only if its start is accessible along climbs.** -/
theorem terminates_iff_acc (c : σ) : S.Terminates c ↔ Acc (fun d c => S.Climb c d) c := by
  constructor
  · rintro ⟨fuel, h⟩
    induction fuel generalizing c with
    | zero => cases h
    | succ fuel ih =>
        apply Acc.intro
        intro d hd
        exact ih d ((search_succ_isSome fuel c).1 h d hd)
  · intro hacc
    induction hacc with
    | intro c _ ih =>
        apply (terminates_iff c).2
        exact fun d hd => ih d hd

/-- When every configuration of a family has a first child in the family, no search from it ends. -/
theorem search_eq_none_of_head {P : σ → Prop}
    (hP : ∀ c, P c → ∃ d rest, S.children c = d :: rest ∧ P d) (fuel : Nat) :
    ∀ c, P c → S.search fuel c = none := by
  induction fuel with
  | zero => exact fun _ _ => rfl
  | succ fuel ih =>
      intro c hc
      obtain ⟨d, rest, hchildren, hd⟩ := hP c hc
      rw [search, hchildren, firstSome, ih d hd]

end SearchSpace

/-- On a finite type a start is accessible if and only if no cycle is reachable from it. -/
theorem acc_iff_acyclic {α : Type u} [Finite α] (r : α → α → Prop) (a : α) :
    Acc (fun y x => r x y) a ↔
      ∀ b, Relation.ReflTransGen r a b → ¬ Relation.TransGen r b b := by
  constructor
  · intro hacc
    induction hacc with
    | intro a ha ih =>
        intro b hab hbb
        rcases Relation.ReflTransGen.cases_head hab with rfl | ⟨c, hac, hcb⟩
        · -- a cycle through the start leads back to it from one of its children
          obtain ⟨c, hac, hca⟩ := Relation.TransGen.head'_iff.1 hbb
          exact ih c hac a hca hbb
        · exact ih c hac b hcb hbb
  · intro hno
    let s : α → α → Prop := fun y x => Relation.ReflTransGen r a x ∧ Relation.TransGen r x y
    have htrans : IsTrans α s :=
      ⟨fun x y z hxy hyz => ⟨hyz.1, hyz.2.trans hxy.2⟩⟩
    have hirrefl : Std.Irrefl s := ⟨fun x hx => hno x hx.1 hx.2⟩
    have hwf : WellFounded s := Finite.wellFounded_of_trans_of_irrefl s
    have key : ∀ x, Relation.ReflTransGen r a x → Acc (fun y x => r x y) x := by
      intro x
      induction x using hwf.induction with
      | h x ih =>
          intro hax
          apply Acc.intro
          intro y hxy
          exact ih y ⟨hax, .single hxy⟩ (hax.tail hxy)
    exact key a .refl

/-- **On a finite space the search ends if and only if no cycle of climbs can be reached.** -/
theorem SearchSpace.terminates_iff_acyclic [Finite σ] {S : SearchSpace σ τ} (c : σ) :
    S.Terminates c ↔
      ∀ d, Relation.ReflTransGen S.Climb c d → ¬ Relation.TransGen S.Climb d d := by
  rw [S.terminates_iff_acc, acc_iff_acyclic]

end Cape.Library
