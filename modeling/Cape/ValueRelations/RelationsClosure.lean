import Cape.ValueRelations.Saturation

/-!
# Soundness and order of the relations map

Whatever is added, with or without keeping the map closed, and however often it is closed then: all
relations of the map are entailed if and only if no strict relation is followed by a non-strict one
(`sound_iff`). The relations of a map that is kept closed do not depend on the order in which they
were added, if and only if moreover the disequalities are closed under the equalities
(`orderIndependent_iff`).
-/

set_option autoImplicit false

namespace Cape.ValueRelations

open Cape.Library Relation RelationsMap

universe u

variable {V : Type u}

/-! ## The relations over the values of a list -/

section Universe

variable [DecidableEq V]

/-- The values of the relations. -/
def valuesOf (L : List (VRRelation V)) : Finset V := (L.flatMap fun r => [r.lhs, r.rhs]).toFinset

/-- All relations of these values. -/
def relationsOver (L : List (VRRelation V)) : Finset (VRRelation V) :=
  (({.eq, .neq, .le, .lt, .ge, .gt} : Finset VRRelationType) ×ˢ valuesOf L ×ˢ valuesOf L).image
    fun p => ⟨p.1, p.2.1, p.2.2⟩

@[simp] theorem mem_relationsOver {L : List (VRRelation V)} {r : VRRelation V} :
    r ∈ relationsOver L ↔ r.lhs ∈ valuesOf L ∧ r.rhs ∈ valuesOf L := by
  obtain ⟨t, a, b⟩ := r
  simp only [relationsOver, Finset.mem_image, Finset.mem_product, Prod.exists, VRRelation.mk.injEq]
  constructor
  · rintro ⟨t', a', b', ⟨-, ha, hb⟩, rfl, rfl, rfl⟩
    exact ⟨ha, hb⟩
  · intro h
    exact ⟨t, a, b, ⟨by cases t <;> simp, h⟩, rfl, rfl, rfl⟩

theorem mem_relationsOver_of_mem {L : List (VRRelation V)} {r : VRRelation V} (h : r ∈ L) :
    r ∈ relationsOver L := by
  simp only [mem_relationsOver, valuesOf, List.mem_toFinset, List.mem_flatMap]
  exact ⟨⟨r, h, by simp⟩, r, h, by simp⟩

omit [DecidableEq V] in
/-- What follows has the values that were there. -/
theorem ends_of_follows {n it r : VRRelation V} (h : r ∈ ofRhs n it ∨ r ∈ ofLhs n it) {S : Set V}
    (hn : n.lhs ∈ S ∧ n.rhs ∈ S) (hit : it.lhs ∈ S ∧ it.rhs ∈ S) : r.lhs ∈ S ∧ r.rhs ∈ S := by
  obtain ⟨t, a, b⟩ := n
  obtain ⟨t', c, d⟩ := it
  cases t <;> cases t' <;> simp only [ofRhs, ofLhs, Option.mem_def, Option.some.injEq,
    reduceCtorEq, or_false, false_or] at h <;> first
    | exact h.elim
    | (obtain rfl | rfl := h <;> first
        | exact ⟨hn.1, hit.2⟩
        | exact ⟨hn.2, hit.2⟩
        | exact ⟨hit.2, hn.2⟩)

theorem follows_relationsOver (L : List (VRRelation V)) :
    Follows {r | r ∈ relationsOver L} {r | r ∈ relationsOver L} := by
  have hends : ∀ {n it r : VRRelation V}, n ∈ relationsOver L → it ∈ relationsOver L →
      r ∈ ofRhs n it ∨ r ∈ ofLhs n it → r ∈ relationsOver L := by
    intro n it r hn hit h
    rw [mem_relationsOver] at hn hit ⊢
    exact ends_of_follows h (S := {v | v ∈ valuesOf L}) hn hit
  refine ⟨fun _ h => h, fun r hr => ?_, fun n hn it hit _ r hr => hends hn hit (Or.inl hr),
    fun n hn it hit _ r hr => hends hn hit (Or.inr hr)⟩
  exact mem_relationsOver.2 (mem_relationsOver.1 hr).symm

end Universe

/-! ## What follows is derivable -/

theorem chain_trans_same {L : List (VRRelation V)} {k : Strength} {a b c : V}
    (h : MaxChain (link L) k a b) (h' : Same L b c) : MaxChain (link L) k a c := by
  induction h' with
  | refl => exact h
  | tail _ hlink ih =>
      have h := ih.tail hlink
      have hk : max k Strength.eq = k := max_eq_left (by cases k <;> decide)
      rwa [hk] at h

/-- The lesser value may be replaced by an equal one. -/
theorem derivable_of_same {L : List (VRRelation V)} {t : VRRelationType} {a b c : V}
    (h : Same L a b) (h' : Derivable L ⟨t, b, c⟩) : Derivable L ⟨t, a, c⟩ := by
  cases t with
  | eq => exact chain_of_same h h'
  | neq =>
      obtain ⟨d, e, hd, hde, he⟩ := h'
      exact ⟨d, e, h.trans hd, hde, he⟩
  | le => exact chain_of_same h h'
  | lt => exact chain_of_same h h'
  | ge => exact chain_trans_same h' h.symm
  | gt => exact chain_trans_same h' h.symm

theorem same_of_derivable {L : List (VRRelation V)} {a b : V} (h : Derivable L ⟨.eq, a, b⟩) :
    Same L a b :=
  same_of_chain h rfl

theorem derivable_ofRhs {L : List (VRRelation V)} {n it r : VRRelation V} (hn : Derivable L n)
    (hit : Derivable L it) (heq : it.lhs = n.rhs) (hr : r ∈ ofRhs n it) : Derivable L r := by
  obtain ⟨t, a, b⟩ := n
  obtain ⟨t', b', c⟩ := it
  obtain rfl : b' = b := heq
  have hchain : ∀ k m : Strength, Derivable L ⟨k.type, a, b'⟩ → Derivable L ⟨m.type, b', c⟩ →
      Derivable L ⟨(max k m).type, a, c⟩ := fun _ _ h h' =>
    derivable_iff.2 ((derivable_iff.1 h).trans (derivable_iff.1 h'))
  cases t with
  | eq =>
      obtain rfl := Option.some.inj hr
      exact derivable_of_same (same_of_derivable hn) hit
  | le =>
      cases t' <;> cases hr
      · exact hchain .le .eq hn hit
      · exact hchain .le .le hn hit
      · exact hchain .le .lt hn hit
  | lt =>
      cases t' <;> cases hr
      · exact hchain .lt .eq hn hit
      · exact hchain .lt .le hn hit
      · exact hchain .lt .lt hn hit
  | neq => cases hr
  | ge => cases hr
  | gt => cases hr

theorem derivable_ofLhs {L : List (VRRelation V)} {n it r : VRRelation V} (hn : Derivable L n)
    (hit : Derivable L it) (heq : it.lhs = n.lhs) (hok : n.relation = .le → it.relation ≠ .gt)
    (hr : r ∈ ofLhs n it) : Derivable L r := by
  obtain ⟨t, a, b⟩ := n
  obtain ⟨t', a', c⟩ := it
  obtain rfl : a' = a := heq
  -- the stored relation is read backwards
  have hit' := derivable_reverse.2 hit
  have hchain : ∀ k m : Strength, Derivable L ⟨m.type, c, a'⟩ → Derivable L ⟨k.type, a', b⟩ →
      Derivable L ⟨(max m k).type, c, b⟩ := fun _ _ h h' =>
    derivable_iff.2 ((derivable_iff.1 h).trans (derivable_iff.1 h'))
  cases t with
  | eq =>
      obtain rfl := Option.some.inj hr
      exact derivable_of_same (same_of_derivable hn).symm hit
  | le =>
      cases t' <;> cases hr
      · exact hchain .le .eq hit' hn
      · exact hchain .le .le hit' hn
      · exact absurd rfl (hok rfl)
  | lt =>
      cases t' <;> cases hr
      · exact hchain .lt .eq hit' hn
      · exact hchain .lt .le hit' hn
      · exact hchain .lt .lt hit' hn
  | neq => cases hr
  | ge => cases hr
  | gt => cases hr

theorem NoStrictThenLoose.noWrongPair {L : List (VRRelation V)} (hL : NoStrictThenLoose L) :
    NoWrongPair {r | Derivable L r} :=
  fun _ _ _ hgt hle => hL.not_chains hgt hle

/-- **What `_addTransitive` adds is derivable**, when no strict relation is followed by a non-strict
one. -/
theorem derivable_follows {L : List (VRRelation V)} (hL : NoStrictThenLoose L) :
    Follows {r | Derivable L r} {r | Derivable L r} := by
  refine ⟨fun _ h => h, fun r hr => derivable_reverse.2 hr,
    fun n hn it hit heq r hr => derivable_ofRhs hn hit heq hr, fun n hn it hit heq r hr => ?_⟩
  refine derivable_ofLhs hn hit heq (fun hle hgt => ?_) hr
  obtain ⟨t, a, b⟩ := n
  obtain ⟨t', a', c⟩ := it
  obtain rfl : t = .le := hle
  obtain rfl : t' = .gt := hgt
  obtain rfl : a' = a := heq
  exact hL.noWrongPair a' c b hit hn

/-- Strict relations only make strict ones. -/
theorem derivable_follows_strict (L : List (VRRelation V)) :
    Follows {r | Derivable L r ∧ (r.relation = .lt ∨ r.relation = .gt)} {r | Derivable L r} := by
  have hstrict : ∀ {n it r : VRRelation V}, n.relation = .lt ∨ n.relation = .gt →
      r ∈ ofRhs n it ∨ r ∈ ofLhs n it → r.relation = .lt := by
    rintro ⟨t, a, b⟩ ⟨t', c, d⟩ r (h | h) hr <;> obtain rfl : t = _ := h
    · cases t' <;> rcases hr with hr | hr <;> cases hr <;> rfl
    · rcases hr with hr | hr <;> cases hr
  refine ⟨fun _ h => h.1, fun r hr => ⟨derivable_reverse.2 hr.1, ?_⟩,
    fun n hn it hit heq r hr => ⟨derivable_ofRhs hn.1 hit heq hr,
      Or.inl (hstrict hn.2 (Or.inl hr))⟩,
    fun n hn it hit heq r hr => ⟨derivable_ofLhs hn.1 hit heq (fun hle => ?_) hr,
      Or.inl (hstrict hn.2 (Or.inr hr))⟩⟩
  · obtain ⟨t, a, b⟩ := r
    rcases hr.2 with h | h <;> obtain rfl : t = _ := h
    · exact Or.inr rfl
    · exact Or.inl rfl
  · rcases hn.2 with h | h <;> rw [h] at hle <;> cases hle

theorem RelationsMap.Follows.inter {A D B : Set (VRRelation V)} (h : Follows A D) (hB : Follows B B) :
    Follows {r | r ∈ A ∧ r ∈ B} {r | r ∈ D ∧ r ∈ B} where
  subset := fun _ hr => ⟨h.subset hr.1, hr.2⟩
  reverse := fun r hr => ⟨h.reverse r hr.1, hB.reverse r hr.2⟩
  ofRhs := fun n hn it hit heq r hr =>
    ⟨h.ofRhs n hn.1 it hit.1 heq r hr, hB.ofRhs n hn.2 it hit.2 heq r hr⟩
  ofLhs := fun n hn it hit heq r hr =>
    ⟨h.ofLhs n hn.1 it hit.1 heq r hr, hB.ofLhs n hn.2 it hit.2 heq r hr⟩

/-! ## Closed maps -/

/-- The map has all links, and nothing can be added. -/
structure ClosedOver (L : List (VRRelation V)) (m : RelationsMap V) : Prop where
  mem : ∀ r ∈ L, r ∈ m.relations ∧ r.reverse ∈ m.relations
  saturated : ∀ r ∈ m.relations, Saturated (normal r) m

theorem ClosedOver.of_link {L : List (VRRelation V)} {m : RelationsMap V} (h : ClosedOver L m)
    {k : Strength} {a b : V} (hlink : link L k a b) :
    ⟨k.type, a, b⟩ ∈ m.relations ∧ ⟨k.type.reverse, b, a⟩ ∈ m.relations := by
  rcases hlink with hmem | hmem
  · exact h.mem _ hmem
  · have hback := (h.mem _ hmem).2
    rw [VRRelation.reverse, VRRelationType.reverse_reverse] at hback
    exact ⟨hback, (h.mem _ hmem).1⟩

/-- Equal values have the same relations. -/
theorem ClosedOver.of_same {L : List (VRRelation V)} {m : RelationsMap V} (h : ClosedOver L m)
    {t : VRRelationType} {a b c : V} (hsame : Same L a b) (hmem : ⟨t, a, c⟩ ∈ m.relations) :
    ⟨t, b, c⟩ ∈ m.relations := by
  induction hsame with
  | refl => exact hmem
  | tail _ hlink ih => exact (h.saturated _ (h.of_link hlink).1).2 _ ih rfl _ rfl

/-- **The wrong relation**: of `a < b = c ≤ d` the closure makes `a > d`. -/
theorem ClosedOver.wrong {L : List (VRRelation V)} {m : RelationsMap V} (h : ClosedOver L m)
    {a b c d : V} (hab : link L .lt a b) (hbc : Same L b c) (hcd : link L .le c d) :
    ⟨.gt, a, d⟩ ∈ m.relations := by
  have hca := h.of_same hbc (h.of_link hab).2
  exact (h.saturated _ (h.of_link hcd).1).2 _ hca rfl _ rfl

theorem not_entails_wrong {L : List (VRRelation V)} (hL : Consistent L) {a b c d : V}
    (hab : link L .lt a b) (hbc : Same L b c) (hcd : link L .le c d) :
    ¬ Entails L ⟨.gt, a, d⟩ := by
  intro hwrong
  obtain ⟨val, hval⟩ := hL
  have hlt : Derivable L ⟨.lt, a, d⟩ :=
    (chain_trans_same (.single hab) hbc).trans (.single hcd)
  have h : val a < val d := hlt.entails val hval
  have h' : val a > val d := hwrong val hval
  omega

/-! ## Soundness -/

variable [LinearOrder V]

theorem ready_empty (L : List (VRRelation V)) (D : Set (VRRelation V)) (keep : Bool) {fuel : Nat}
    (hfuel : (relationsOver L).card < fuel) :
    Ready keep (relationsOver L) D fuel ⟨keep, []⟩ where
  mode := rfl
  subset := nofun
  reverse := fun _ => nofun
  rank := lt_of_le_of_lt (Finset.card_filter_le _ _) hfuel

theorem exists_addAll {L L' : List (VRRelation V)} {A D : Set (VRRelation V)} {keep : Bool}
    {fuel : Nat} (hA : Follows A D) (hU : ∀ r ∈ D, r ∈ relationsOver L) (hL' : ∀ r ∈ L', r ∈ A)
    {m : RelationsMap V} (hm : Ready keep (relationsOver L) D fuel m) :
    ∃ m' b, Attempt.each (add fuel) L' m = some (m', b) ∧
      Ready keep (relationsOver L) D fuel m' ∧ Grown keep (relationsOver L) A D m m' b ∧
        ∀ r ∈ L', r ∈ m'.relations :=
  exists_each_add (g := id) hA hU hL' hm

/-- Closing any number of times stays within a set that has what follows. -/
theorem exists_closeTimes {L : List (VRRelation V)} {D : Set (VRRelation V)} {keep : Bool}
    {fuel : Nat} (hD : Follows D D) (hU : ∀ r ∈ D, r ∈ relationsOver L) {m : RelationsMap V}
    (hm : Ready keep (relationsOver L) D fuel m) (n : Nat) :
    ∃ m', closeTimes fuel n m = some m' ∧ Ready keep (relationsOver L) D fuel m' := by
  induction n with
  | zero => exact ⟨m, rfl, hm⟩
  | succ n ih =>
      obtain ⟨m', hm', hready⟩ := ih
      obtain ⟨m'', hm'', hready', -⟩ := exists_transitivelyClose hD hU hready
      exact ⟨m'', by simp [closeTimes, hm', hm''], hready'⟩

/-- The relations are added, and the map is closed any number of times: with enough fuel for the
relations over their values all calls end, and all relations of the map are entailed. -/
def RemainsSound (keep : Bool) (L : List (VRRelation V)) : Prop :=
  ∀ fuel, (relationsOver L).card < fuel → ∀ n, ∃ m₀ m, addAll keep fuel L = some m₀ ∧
    closeTimes fuel n m₀ = some m ∧ ∀ rel, m.has rel = true → Entails L rel

/-- **Soundness of the relations map.** -/
theorem remainsSound_iff (keep : Bool) {L : List (VRRelation V)} (hL : Consistent L) :
    RemainsSound keep L ↔ NoStrictThenLoose L := by
  constructor
  · intro hsound a b c d hab hbc hcd
    have hU : Follows {r | r ∈ relationsOver L} {r | r ∈ relationsOver L} := follows_relationsOver L
    obtain ⟨m₀, m, hm₀, hm, hentails⟩ := hsound _ (Nat.lt_succ_self _) 1
    obtain ⟨m₀', b₀, hadd, hready, -, hmem⟩ := exists_addAll hU (fun r hr => hr)
      (fun r hr => mem_relationsOver_of_mem hr) (ready_empty L _ keep (Nat.lt_succ_self _))
    obtain ⟨m', hm', -, hclosed, hsat⟩ := exists_transitivelyClose hU (fun r hr => hr) hready
    have heq : m₀' = m₀ := by
      simpa [addAll, hadd] using hm₀
    subst heq
    have heq : m' = m := by
      simpa [closeTimes, hm'] using hm
    subst heq
    have hover : ClosedOver L m' := ⟨fun r hr => hclosed r (hmem r hr), hsat⟩
    exact not_entails_wrong hL hab hbc hcd (hentails _ (has_iff.2 (hover.wrong hab hbc hcd)))
  · intro hcond fuel hfuel n
    have hD := (derivable_follows hcond).inter (follows_relationsOver L)
    obtain ⟨m₀, b₀, hadd, hready, -⟩ := exists_addAll hD (fun r hr => hr.2)
      (fun r hr => ⟨derivable_of_mem hr, mem_relationsOver_of_mem hr⟩) (ready_empty L _ keep hfuel)
    obtain ⟨m, hm, hready'⟩ := exists_closeTimes hD (fun r hr => hr.2) hready n
    refine ⟨m₀, m, by simp [addAll, hadd], hm, fun rel hrel => ?_⟩
    exact (hready'.subset rel (has_iff.1 hrel)).1.entails

theorem remainsSound_iff_le :
    RemainsSound true [⟨.le, 0, 1⟩] ↔ NoStrictThenLoose [(⟨.le, 0, 1⟩ : VRRelation Nat)] :=
  remainsSound_iff true ⟨fun n => n, by simp [VRRelation.Holds, VRRelationType.Holds]⟩

/-- Of `1 > 0` and `1 ≤ 2` the map makes `0 > 2`. -/
theorem adds_wrong_order :
    Consistent [(⟨.gt, 1, 0⟩ : VRRelation Nat), ⟨.le, 1, 2⟩] ∧
      ¬ RemainsSound true [(⟨.gt, 1, 0⟩ : VRRelation Nat), ⟨.le, 1, 2⟩] := by
  have hval : ∀ r ∈ [(⟨.gt, 1, 0⟩ : VRRelation Nat), ⟨.le, 1, 2⟩], r.Holds fun n : Nat => (n : Int) := by
    simp [VRRelation.Holds, VRRelationType.Holds]
  refine ⟨⟨_, hval⟩, fun hsound => ?_⟩
  obtain ⟨m₀, m, hm₀, hm, hentails⟩ := hsound 60 (by decide +kernel) 0
  obtain rfl : m₀ = m := Option.some.inj hm
  have hhas : (addAll true 60 [(⟨.gt, 1, 0⟩ : VRRelation Nat), ⟨.le, 1, 2⟩]).map
      (fun m => m.has ⟨.gt, 0, 2⟩) = some true := by decide +kernel
  rw [hm₀] at hhas
  have hwrong : (0 : Int) > 2 := hentails _ (Option.some.inj hhas) _ hval
  exact absurd hwrong (by decide)

/-! ## Order of the additions -/

/-- A disequality of values that equal the sides of one of the list is in the list. -/
def DisequalitiesClosed (L : List (VRRelation V)) : Prop :=
  ∀ a b c d, Same L a c → Differ L c d → Same L d b → Differ L a b

/-- In every order the additions end with the same relations, and closing adds none. -/
def OrderIndependent (L : List (VRRelation V)) : Prop :=
  ∀ L₁ L₂ : List (VRRelation V), L₁.Perm L → L₂.Perm L →
    ∀ fuel, (relationsOver L).card < fuel → ∃ m₁ m₂, addAll true fuel L₁ = some m₁ ∧
      addAll true fuel L₂ = some m₂ ∧ (∀ rel, m₁.has rel = m₂.has rel) ∧
        ∃ m, transitivelyClose fuel m₁ = some m ∧ ∀ rel, m.has rel = m₁.has rel

/-- The map that is kept closed has exactly the derivable relations. -/
theorem exists_exact {L L' : List (VRRelation V)} (hL : NoStrictThenLoose L)
    (hneq : DisequalitiesClosed L) (hperm : L'.Perm L) {fuel : Nat}
    (hfuel : (relationsOver L).card < fuel) :
    ∃ m, addAll true fuel L' = some m ∧
      Ready true (relationsOver L) {r | r ∈ {r | Derivable L r} ∧ r ∈ {r | r ∈ relationsOver L}}
        fuel m ∧ ∀ r, r ∈ m.relations ↔ Derivable L r := by
  have hD := (derivable_follows hL).inter (follows_relationsOver L)
  obtain ⟨m, b, hadd, hready, hgrown, hmem⟩ := exists_addAll hD (fun r hr => hr.2)
    (fun r hr => ⟨derivable_of_mem (hperm.mem_iff.1 hr),
      mem_relationsOver_of_mem (hperm.mem_iff.1 hr)⟩) (ready_empty L _ true hfuel)
  refine ⟨m, by simp [addAll, hadd], hready, fun r => ⟨fun hr => (hready.subset r hr).1, ?_⟩⟩
  have hL' : ∀ r ∈ L, r ∈ m.relations := fun r hr => hmem r (hperm.mem_iff.2 hr)
  -- the map composes, so it has all chains
  have hcomplete := hgrown.complete rfl fun a b c hgt hle => hL.noWrongPair a b c hgt.1 hle.1
  have hchain : ∀ {k : Strength} {a b : V}, MaxChain (link L) k a b →
      ⟨k.type, a, b⟩ ∈ m.relations := by
    intro k a b h
    refine h.least (S := fun k a b => ⟨k.type, a, b⟩ ∈ m.relations) ?_ ?_
    · intro k a b hlink
      rcases hlink with hmem | hmem
      · exact hL' _ hmem
      · have hback := hready.reverse rfl _ (hL' _ hmem)
        rwa [VRRelation.reverse, VRRelationType.reverse_reverse] at hback
    · exact fun h h' => hcomplete _ _ _ _ _ h h' (Or.inl List.not_mem_nil)
  intro hr
  obtain ⟨t, a, b⟩ := r
  cases t with
  | eq => exact hchain (k := .eq) hr
  | neq =>
      obtain ⟨c, d, hc, hcd, hd⟩ := hr
      -- disequalities are not composed by the map: they were given for all equal values
      rcases hneq a b c d hc hcd hd with h | h
      · exact hL' _ h
      · exact hready.reverse rfl _ (hL' _ h)
  | le => exact hchain (k := .le) hr
  | lt => exact hchain (k := .lt) hr
  | ge => exact hready.reverse rfl _ (hchain (k := .le) hr)
  | gt => exact hready.reverse rfl _ (hchain (k := .lt) hr)

/-- First relations of one kind are added, then those of another. -/
theorem exists_two_parts {L L₁ L₂ : List (VRRelation V)} {D₁ A D : Set (VRRelation V)}
    (hD₁ : Follows D₁ D₁) (hA : Follows A D) (hsub : D₁ ⊆ D)
    (h₁ : ∀ r ∈ L₁, r ∈ D₁) (h₂ : ∀ r ∈ L₂, r ∈ A)
    (hover : ∀ r ∈ L₁ ++ L₂, r ∈ relationsOver L) {fuel : Nat}
    (hfuel : (relationsOver L).card < fuel) :
    ∃ m, addAll true fuel (L₁ ++ L₂) = some m ∧
      Ready true (relationsOver L) {r | r ∈ D ∧ r ∈ {r | r ∈ relationsOver L}} fuel m ∧
        ∀ r ∈ L₁ ++ L₂, r ∈ m.relations := by
  have hU := follows_relationsOver L
  obtain ⟨m₁, b₁, hadd₁, hready₁, -, hmem₁⟩ := exists_addAll (hD₁.inter hU) (fun r hr => hr.2)
    (fun r hr => ⟨h₁ r hr, hover r (List.mem_append_left L₂ hr)⟩) (ready_empty L _ true hfuel)
  have hready₁' : Ready true (relationsOver L) {r | r ∈ D ∧ r ∈ {r | r ∈ relationsOver L}} fuel
      m₁ :=
    ⟨hready₁.mode, fun r hr => ⟨hsub (hready₁.subset r hr).1, (hready₁.subset r hr).2⟩,
      hready₁.reverse, hready₁.rank⟩
  obtain ⟨m₂, b₂, hadd₂, hready₂, hgrown₂, hmem₂⟩ := exists_addAll (hA.inter hU)
    (fun r hr => hr.2) (fun r hr => ⟨h₂ r hr, hover r (List.mem_append_right L₁ hr)⟩) hready₁'
  refine ⟨m₂, ?_, hready₂, fun r hr => ?_⟩
  · simp [addAll, Attempt.each_append, Attempt.andThen, hadd₁, hadd₂]
  · rcases List.mem_append.1 hr with hr | hr
    · exact hgrown₂.grows r (hmem₁ r hr)
    · exact hmem₂ r hr

/-- Closing the map that an order gives adds nothing: it is closed. -/
theorem OrderIndependent.closedOver {L L' : List (VRRelation V)} (h : OrderIndependent L)
    (hperm : L'.Perm L) {fuel : Nat} (hfuel : (relationsOver L).card < fuel) {m : RelationsMap V}
    (hm : addAll true fuel L' = some m) :
    ∃ m', ClosedOver L m' ∧ (∀ r, r ∈ m'.relations ↔ r ∈ m.relations) ∧
      ∀ r ∈ m'.relations, r.reverse ∈ m'.relations := by
  have hU : Follows {r | r ∈ relationsOver L} {r | r ∈ relationsOver L} := follows_relationsOver L
  obtain ⟨m₁, -, hm₁, -, -, m', hclose, hhas⟩ := h L' L' hperm hperm fuel hfuel
  obtain rfl : m = m₁ := Option.some.inj (hm.symm.trans hm₁)
  obtain ⟨m₂, b, hadd, hready, -, hmem⟩ := exists_addAll hU (fun r hr => hr)
    (fun r hr => mem_relationsOver_of_mem (hperm.mem_iff.1 hr)) (ready_empty L _ true hfuel)
  have heq : m₂ = m := by
    simpa [addAll, hadd] using hm
  subst heq
  obtain ⟨m'', hclose', hready', hclosed, hsat⟩ := exists_transitivelyClose hU (fun r hr => hr) hready
  obtain rfl : m' = m'' := Option.some.inj (hclose.symm.trans hclose')
  refine ⟨m', ⟨fun r hr => hclosed r (hmem r (hperm.mem_iff.2 hr)), hsat⟩, fun r => ?_,
    hready'.reverse rfl⟩
  rw [← has_iff, ← has_iff, hhas r]

omit [LinearOrder V] in
/-- What is derivable from a part of the list. -/
theorem Derivable.of_filter {L : List (VRRelation V)} {p : VRRelation V → Bool} {r : VRRelation V}
    (h : Derivable (L.filter p) r) : Derivable L r := by
  have hlink : ∀ {k : Strength} {a b : V}, link (L.filter p) k a b → link L k a b := fun h =>
    h.imp (fun h => List.mem_of_mem_filter h) fun h => List.mem_of_mem_filter h
  have hsame : ∀ {a b : V}, Same (L.filter p) a b → Same L a b := fun h =>
    ReflTransGen.mono (fun _ _ => hlink) _ _ h
  obtain ⟨t, a, b⟩ := r
  cases t with
  | neq =>
      obtain ⟨c, d, hc, hcd, hd⟩ := h
      exact ⟨c, d, hsame hc, hcd.imp (fun h => List.mem_of_mem_filter h)
        fun h => List.mem_of_mem_filter h, hsame hd⟩
  | eq => exact MaxChain.mono hlink h
  | le => exact MaxChain.mono hlink h
  | lt => exact MaxChain.mono hlink h
  | ge => exact MaxChain.mono hlink h
  | gt => exact MaxChain.mono hlink h

/-- Strict relations come last: the map is sound, so that closing it would be sound too. -/
theorem OrderIndependent.noStrictThenLoose {L : List (VRRelation V)} (hL : Consistent L)
    (h : OrderIndependent L) : NoStrictThenLoose L := by
  intro a b c d hab hbc hcd
  let strict : VRRelation V → Bool := fun r => r.relation = .lt || r.relation = .gt
  have hperm : (L.filter (fun r => !strict r) ++ L.filter fun r => !!strict r).Perm L :=
    List.filter_append_perm _ L
  have hfirst : NoStrictThenLoose (L.filter fun r => !strict r) := by
    intro a b c d hab _ _
    rcases hab with hab | hab
    · simpa [strict, Strength.type] using List.of_mem_filter hab
    · simpa [strict, Strength.type, VRRelationType.reverse] using List.of_mem_filter hab
  obtain ⟨m, hm, hready, -⟩ := exists_two_parts (derivable_follows hfirst)
    (derivable_follows_strict L) (fun r hr => Derivable.of_filter hr) (fun r hr => derivable_of_mem hr)
    (fun r hr => ⟨derivable_of_mem (List.mem_of_mem_filter hr),
      by simpa [strict] using List.of_mem_filter hr⟩)
    (fun r hr => mem_relationsOver_of_mem (hperm.mem_iff.1 hr)) (Nat.lt_succ_self _)
  obtain ⟨m', hclosed, hsame, -⟩ := h.closedOver hperm (Nat.lt_succ_self _) hm
  have hwrong := hready.subset _ ((hsame _).1 (hclosed.wrong hab hbc hcd))
  have hderivable : Derivable L ⟨.gt, a, d⟩ := hwrong.1
  exact not_entails_wrong hL hab hbc hcd hderivable.entails

omit [LinearOrder V] in
/-- Disequalities make no relations. -/
theorem differ_follows (L : List (VRRelation V)) (D : Set (VRRelation V)) :
    Follows {r | r.relation = .neq ∧ Differ L r.lhs r.rhs}
      {r | r ∈ D ∨ (r.relation = .neq ∧ Differ L r.lhs r.rhs)} := by
  refine ⟨fun r hr => Or.inr hr, ?_, ?_, ?_⟩
  · rintro ⟨t, a, b⟩ ⟨ht, hab⟩
    obtain rfl : t = .neq := ht
    exact ⟨rfl, hab.symm⟩
  · rintro ⟨t, a, b⟩ ⟨ht, hab⟩ it _ _ r hr
    obtain rfl : t = .neq := ht
    cases hr
  · rintro ⟨t, a, b⟩ ⟨ht, hab⟩ it _ _ r hr
    obtain rfl : t = .neq := ht
    cases hr

/-- Disequalities come last: the map has those of the list only. -/
theorem OrderIndependent.disequalitiesClosed {L : List (VRRelation V)}
    (hL : NoStrictThenLoose L) (h : OrderIndependent L) : DisequalitiesClosed L := by
  intro a b c d hac hcd hdb
  let differs : VRRelation V → Bool := fun r => r.relation = .neq
  have hperm : (L.filter (fun r => !differs r) ++ L.filter fun r => !!differs r).Perm L :=
    List.filter_append_perm _ L
  have hfirst : NoStrictThenLoose (L.filter fun r => !differs r) := by
    intro a b c d hab hbc hcd
    have hlt : Derivable (L.filter fun r => !differs r) ⟨.lt, a, c⟩ :=
      chain_trans_same (.single hab) hbc
    have hle : Derivable (L.filter fun r => !differs r) ⟨.le, c, d⟩ := .single hcd
    have hlt' : Derivable L ⟨.lt, a, c⟩ := Derivable.of_filter hlt
    have hle' : Derivable L ⟨.le, c, d⟩ := Derivable.of_filter hle
    exact hL.not_chains hlt' hle'
  have hnone : ∀ {x y : V}, ¬ Derivable (L.filter fun r => !differs r) ⟨.neq, x, y⟩ := by
    rintro x y ⟨c, d, -, hcd | hcd, -⟩
    · simpa [differs] using List.of_mem_filter hcd
    · simpa [differs] using List.of_mem_filter hcd
  obtain ⟨m, hm, hready, -⟩ := exists_two_parts (derivable_follows hfirst)
    (differ_follows L {r | Derivable (L.filter fun r => !differs r) r}) (fun r hr => Or.inl hr)
    (fun r hr => derivable_of_mem hr) (fun r hr => by
      have hneq : r.relation = .neq := by simpa [differs] using List.of_mem_filter hr
      have hmem := List.mem_of_mem_filter hr
      obtain ⟨t, x, y⟩ := r
      obtain rfl : t = .neq := hneq
      exact ⟨rfl, Or.inl hmem⟩)
    (fun r hr => mem_relationsOver_of_mem (hperm.mem_iff.1 hr)) (Nat.lt_succ_self _)
  obtain ⟨m', hclosed, hsame, hreverse⟩ := h.closedOver hperm (Nat.lt_succ_self _) hm
  -- the closed map has the disequalities of all equal values
  have hmem : ⟨.neq, a, b⟩ ∈ m'.relations := by
    have hcd' : ⟨.neq, c, d⟩ ∈ m'.relations := by
      rcases hcd with h | h
      · exact (hclosed.mem _ h).1
      · exact (hclosed.mem _ h).2
    have had := hclosed.of_same hac.symm hcd'
    exact hreverse _ (hclosed.of_same hdb (hreverse _ had))
  rcases (hready.subset _ ((hsame _).1 hmem)).1 with hderivable | hdiffer
  · exact absurd hderivable hnone
  · exact hdiffer.2

/-- **Order of the additions to a map that is kept closed.** -/
theorem orderIndependent_iff {L : List (VRRelation V)} (hL : Consistent L) :
    OrderIndependent L ↔ NoStrictThenLoose L ∧ DisequalitiesClosed L := by
  constructor
  · intro h
    have hcond := h.noStrictThenLoose hL
    exact ⟨hcond, h.disequalitiesClosed hcond⟩
  · rintro ⟨hcond, hneq⟩ L₁ L₂ h₁ h₂ fuel hfuel
    have hD := (derivable_follows hcond).inter (follows_relationsOver L)
    obtain ⟨m₁, hm₁, hready, hexact₁⟩ := exists_exact hcond hneq h₁ hfuel
    obtain ⟨m₂, hm₂, -, hexact₂⟩ := exists_exact hcond hneq h₂ hfuel
    obtain ⟨m, hm, hready', hgrows, -⟩ := exists_transitivelyClose hD (fun r hr => hr.2) hready
    refine ⟨m₁, m₂, hm₁, hm₂, fun r => ?_, m, hm, fun r => ?_⟩
    · rw [Bool.eq_iff_iff, has_iff, has_iff, hexact₁, hexact₂]
    · rw [Bool.eq_iff_iff, has_iff, has_iff]
      refine ⟨fun hr => ?_, fun hr => (hgrows r hr).1⟩
      rw [hexact₁]
      exact (hready'.subset r hr).1

theorem orderIndependent_iff_le :
    OrderIndependent [⟨.le, 0, 1⟩] ↔ NoStrictThenLoose [(⟨.le, 0, 1⟩ : VRRelation Nat)] ∧
      DisequalitiesClosed [(⟨.le, 0, 1⟩ : VRRelation Nat)] :=
  orderIndependent_iff ⟨fun n => n, by simp [VRRelation.Holds, VRRelationType.Holds]⟩

/-- From `0 = 1` and `0 ≠ 2` the map gets `1 ≠ 2` when the disequality comes first. -/
theorem order_matters :
    Consistent [(⟨.eq, 0, 1⟩ : VRRelation Nat), ⟨.neq, 0, 2⟩] ∧
      ¬ OrderIndependent [(⟨.eq, 0, 1⟩ : VRRelation Nat), ⟨.neq, 0, 2⟩] := by
  constructor
  · exact ⟨fun n => if n = 2 then 1 else 0, by simp [VRRelation.Holds, VRRelationType.Holds]⟩
  · intro h
    obtain ⟨m₁, m₂, hm₁, hm₂, hhas, -⟩ := h [⟨.eq, 0, 1⟩, ⟨.neq, 0, 2⟩] [⟨.neq, 0, 2⟩, ⟨.eq, 0, 1⟩]
      (List.Perm.refl _) (List.Perm.swap _ _ _) 60 (by decide +kernel)
    have hlast : (addAll true 60 [(⟨.eq, 0, 1⟩ : VRRelation Nat), ⟨.neq, 0, 2⟩]).map
        (fun m => m.has ⟨.neq, 1, 2⟩) = some false := by decide +kernel
    have hfirst : (addAll true 60 [(⟨.neq, 0, 2⟩ : VRRelation Nat), ⟨.eq, 0, 1⟩]).map
        (fun m => m.has ⟨.neq, 1, 2⟩) = some true := by decide +kernel
    rw [hm₁] at hlast
    rw [hm₂] at hfirst
    exact absurd ((Option.some.inj hlast).symm.trans ((hhas _).trans (Option.some.inj hfirst)))
      Bool.false_ne_true

end Cape.ValueRelations
