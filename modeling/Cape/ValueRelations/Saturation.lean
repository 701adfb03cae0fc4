import Cape.ValueRelations.Derivations

/-!
# What `add` and `transitivelyClose` do

`add` ends, adds nothing but what follows, and, when the map is kept closed, leaves every relation
that is new composed with the others (`meets_add`). `transitivelyClose` ends with a map to which
nothing can be added (`exists_transitivelyClose`).
-/

set_option autoImplicit false

namespace Cape.ValueRelations.RelationsMap

open Cape.Library

universe u

variable {V : Type u} [LinearOrder V]

/-! ## Insertion -/

theorem mem_insertSorted {rel r : VRRelation V} {l : List (VRRelation V)} :
    r ∈ insertSorted rel l ↔ r = rel ∨ r ∈ l := by
  induction l with
  | nil => simp [insertSorted]
  | cons r' l ih =>
      rw [insertSorted]
      split
      · simp
      · simp only [List.mem_cons, ih]
        tauto

theorem mem_insert {rel r : VRRelation V} {m : RelationsMap V} :
    r ∈ (m.insert rel).1.relations ↔ r = rel ∨ r ∈ m.relations := by
  rw [insert]
  split
  · next h =>
      refine (or_iff_right_of_imp ?_).symm
      rintro rfl
      exact h
  · exact mem_insertSorted

@[simp] theorem keep_insert (rel : VRRelation V) (m : RelationsMap V) :
    (m.insert rel).1.keepTransitivelyClosed = m.keepTransitivelyClosed := by
  rw [insert]
  split <;> rfl

theorem insert_eq_false {rel : VRRelation V} {m : RelationsMap V} (h : (m.insert rel).2 = false) :
    rel ∈ m.relations ∧ (m.insert rel).1 = m := by
  rw [insert] at h ⊢
  split at h
  · next hmem => exact ⟨hmem, if_pos hmem ▸ rfl⟩
  · cases h

theorem insert_eq_true {rel : VRRelation V} {m : RelationsMap V} (h : (m.insert rel).2 = true) :
    rel ∉ m.relations := by
  rw [insert] at h
  split at h
  · cases h
  · next hmem => exact hmem

@[simp] theorem mem_get {m : RelationsMap V} {v : V} {r : VRRelation V} :
    r ∈ m.get v ↔ r ∈ m.relations ∧ r.lhs = v := by
  simp [get]

@[simp] theorem has_iff {m : RelationsMap V} {r : VRRelation V} :
    m.has r = true ↔ r ∈ m.relations := by
  simp [has]

/-! ## What follows -/

/-- The form of a relation that `_addTransitive1` works on. -/
def normal (rel : VRRelation V) : VRRelation V :=
  match rel.relation with
  | .ge | .gt => rel.reverse
  | _ => rel

/-- What is added for a relation of the right-hand side. -/
def ofRhs (rel it : VRRelation V) : Option (VRRelation V) :=
  match rel.relation, it.relation with
  | .eq, _ => some (it.sameOp rel.lhs it.rhs)
  | .lt, .eq | .lt, .lt | .lt, .le => some (rel.sameOp rel.lhs it.rhs)
  | .le, .eq | .le, .le => some (rel.sameOp rel.lhs it.rhs)
  | .le, .lt => some (it.sameOp rel.lhs it.rhs)
  | _, _ => none

/-- What is added for a relation of the left-hand side. -/
def ofLhs (rel it : VRRelation V) : Option (VRRelation V) :=
  match rel.relation, it.relation with
  | .eq, _ => some (it.sameOp rel.rhs it.rhs)
  | .lt, .eq | .lt, .gt | .lt, .ge => some (rel.sameOp it.rhs rel.rhs)
  | .le, .eq | .le, .ge => some (rel.sameOp it.rhs rel.rhs)
  | .le, .gt => some (it.sameOp it.rhs rel.rhs)
  | _, _ => none

theorem eachOf_none (add : VRRelation V → Attempt (RelationsMap V)) (v : V) (m : RelationsMap V) :
    eachOf add v (fun _ => none) m = some (m, false) := by
  rw [eachOf]
  induction m.get v with
  | nil => rfl
  | cons r l ih => simp [Attempt.each, Attempt.andThen, Attempt.skip, ih]

theorem addTransitive1_eq (add : VRRelation V → Attempt (RelationsMap V)) (rel : VRRelation V) :
    addTransitive1 add rel = (eachOf add (normal rel).rhs (ofRhs (normal rel))).andThen
      (eachOf add (normal rel).lhs (ofLhs (normal rel))) := by
  have hlt : ∀ {r : VRRelation V}, r.relation = .lt → addTransitiveLt add r =
      (eachOf add r.rhs (ofRhs r)).andThen (eachOf add r.lhs (ofLhs r)) := by
    intro r h
    rw [addTransitiveLt]
    congr 2 <;> funext it <;> simp only [ofRhs, ofLhs, h] <;> cases it.relation <;> rfl
  have hle : ∀ {r : VRRelation V}, r.relation = .le → addTransitiveLe add r =
      (eachOf add r.rhs (ofRhs r)).andThen (eachOf add r.lhs (ofLhs r)) := by
    intro r h
    rw [addTransitiveLe]
    congr 2 <;> funext it <;> simp only [ofRhs, ofLhs, h] <;> cases it.relation <;> rfl
  obtain ⟨t, a, b⟩ := rel
  cases t with
  | eq => rfl
  | neq =>
      funext m
      have h : ∀ it, ofRhs (⟨.neq, a, b⟩ : VRRelation V) it = none := fun _ => rfl
      have h' : ∀ it, ofLhs (⟨.neq, a, b⟩ : VRRelation V) it = none := fun _ => rfl
      show Attempt.skip m = _
      simp only [Attempt.andThen, normal, funext h, funext h', eachOf_none]
      rfl
  | le => exact hle rfl
  | lt => exact hlt rfl
  | ge => exact hle rfl
  | gt => exact hlt rfl

/-- All that `_addTransitive1` adds for the relation is there. -/
def Saturated (n : VRRelation V) (m : RelationsMap V) : Prop :=
  (∀ it ∈ m.relations, it.lhs = n.rhs → ∀ r ∈ ofRhs n it, r ∈ m.relations) ∧
    ∀ it ∈ m.relations, it.lhs = n.lhs → ∀ r ∈ ofLhs n it, r ∈ m.relations

/-- The set `A` has what follows from its relations and those of `D`. -/
structure Follows (A D : Set (VRRelation V)) : Prop where
  subset : A ⊆ D
  reverse : ∀ r ∈ A, r.reverse ∈ A
  ofRhs : ∀ n ∈ A, ∀ it ∈ D, it.lhs = n.rhs → ∀ r ∈ ofRhs n it, r ∈ A
  ofLhs : ∀ n ∈ A, ∀ it ∈ D, it.lhs = n.lhs → ∀ r ∈ ofLhs n it, r ∈ A

omit [LinearOrder V] in
theorem Follows.normal {A D : Set (VRRelation V)} (h : Follows A D) {rel : VRRelation V}
    (hrel : rel ∈ A) : normal rel ∈ A := by
  rw [RelationsMap.normal]
  split
  · exact h.reverse rel hrel
  · exact h.reverse rel hrel
  · exact hrel

omit [LinearOrder V] in
/-- A relation that composes is in normal form, or it is an equality. -/
theorem normal_cases {rel : VRRelation V} {k : Strength} {a b : V}
    (h : ⟨k.type, a, b⟩ = rel ∨ ⟨k.type, a, b⟩ = rel.reverse) :
    normal rel = ⟨k.type, a, b⟩ ∨ (k = .eq ∧ normal rel = ⟨.eq, b, a⟩) := by
  rcases h with rfl | h
  · left
    cases k <;> rfl
  · have hrel : rel = ⟨k.type.reverse, b, a⟩ := by
      rw [← VRRelation.reverse_reverse rel, ← h]
      rfl
    subst hrel
    cases k with
    | eq => exact Or.inr ⟨rfl, rfl⟩
    | le => exact Or.inl rfl
    | lt => exact Or.inl rfl

omit [LinearOrder V] in
theorem ofRhs_compose (k k' : Strength) (a b c : V) :
    ofRhs ⟨k.type, a, b⟩ ⟨k'.type, b, c⟩ = some ⟨(max k k').type, a, c⟩ := by
  cases k <;> cases k' <;> rfl

omit [LinearOrder V] in
/-- Against the direction it goes wrong when a strict relation is followed by a non-strict one. -/
theorem ofLhs_compose {k k' : Strength} (a b c : V) (h : ¬ (k = .le ∧ k' = .lt)) :
    ∃ r ∈ ofLhs ⟨k.type, a, b⟩ ⟨k'.type.reverse, a, c⟩,
      r = ⟨(max k' k).type, c, b⟩ ∨ r.reverse = ⟨(max k' k).type, c, b⟩ := by
  cases k <;> cases k' <;> first
    | exact absurd ⟨rfl, rfl⟩ h
    | exact ⟨_, rfl, Or.inl rfl⟩
    | exact ⟨_, rfl, Or.inr rfl⟩

/-! ## The calls of `add` -/

/-- How many relations of the finite set are not in the map. -/
def rank (U : Finset (VRRelation V)) (m : RelationsMap V) : Nat :=
  (U.filter (· ∉ m.relations)).card

theorem rank_lt {U : Finset (VRRelation V)} {m m' : RelationsMap V}
    (h : ∀ r ∈ m.relations, r ∈ m'.relations) {r : VRRelation V} (hU : r ∈ U)
    (hnew : r ∉ m.relations) (hr : r ∈ m'.relations) : rank U m' < rank U m := by
  apply Finset.card_lt_card
  refine Finset.ssubset_iff_of_subset ?_ |>.2 ⟨r, Finset.mem_filter.2 ⟨hU, hnew⟩, fun hmem => ?_⟩
  · intro r' hr'
    obtain ⟨hU', hnew'⟩ := Finset.mem_filter.1 hr'
    exact Finset.mem_filter.2 ⟨hU', fun hr => hnew' (h r' hr)⟩
  · exact (Finset.mem_filter.1 hmem).2 hr

/-- Of two relations that compose, one of them new, the composition is there. -/
def Complete (m m' : RelationsMap V) : Prop :=
  ∀ (k k' : Strength) (a b c : V), ⟨k.type, a, b⟩ ∈ m'.relations → ⟨k'.type, b, c⟩ ∈ m'.relations →
    ⟨k.type, a, b⟩ ∉ m.relations ∨ ⟨k'.type, b, c⟩ ∉ m.relations →
      ⟨(max k k').type, a, c⟩ ∈ m'.relations

/-- `_addTransitive` never finds a greater value than the lesser side of a non-strict relation. -/
def NoWrongPair (D : Set (VRRelation V)) : Prop :=
  ∀ a b c, (⟨.gt, a, b⟩ : VRRelation V) ∈ D → ⟨.le, a, c⟩ ∉ D

section Calls

variable (keep : Bool) (U : Finset (VRRelation V)) (A D : Set (VRRelation V))

/-- What holds between the calls. -/
structure Ready (fuel : Nat) (m : RelationsMap V) : Prop where
  mode : m.keepTransitivelyClosed = keep
  subset : ∀ r ∈ m.relations, r ∈ D
  reverse : keep = true → ∀ r ∈ m.relations, r.reverse ∈ m.relations
  rank : rank U m < fuel

/-- What a call does. -/
structure Grown (m m' : RelationsMap V) (changed : Bool) : Prop where
  grows : ∀ r ∈ m.relations, r ∈ m'.relations
  added : ∀ r ∈ m'.relations, r ∈ m.relations ∨ r ∈ A
  same : changed = false → m' = m
  rank : changed = true → rank U m' < rank U m
  complete : keep = true → NoWrongPair D → Complete m m'

variable {keep U A D}

theorem Grown.rank_le {m m' : RelationsMap V} {changed : Bool} (h : Grown keep U A D m m' changed) :
    RelationsMap.rank U m' ≤ RelationsMap.rank U m := by
  cases changed with
  | false => rw [h.same rfl]
  | true => exact (h.rank rfl).le

theorem composes_grown : Attempt.Composes (Grown keep U A D) where
  refl m := ⟨fun _ h => h, fun _ h => Or.inl h, fun _ => rfl, fun h => absurd h Bool.false_ne_true,
    fun _ _ k k' a b c h h' hnew => hnew.elim (absurd h) (absurd h')⟩
  trans := by
    intro m m' m'' b b' h h'
    refine ⟨fun r hr => h'.grows r (h.grows r hr), fun r hr => ?_, fun hb => ?_, fun hb => ?_, ?_⟩
    · rcases h'.added r hr with hr | hr
      · exact h.added r hr
      · exact Or.inr hr
    · obtain ⟨hb, hb'⟩ := Bool.or_eq_false_iff.1 hb
      rw [h'.same hb', h.same hb]
    · rcases Bool.or_eq_true_iff.1 hb with hb | hb
      · exact lt_of_le_of_lt h'.rank_le (h.rank hb)
      · exact lt_of_lt_of_le (h'.rank hb) h.rank_le
    · intro hkeep hD k k' x y z hxy hyz hnew
      by_cases hboth : ⟨k.type, x, y⟩ ∈ m'.relations ∧ ⟨k'.type, y, z⟩ ∈ m'.relations
      · exact h'.grows _ (h.complete hkeep hD k k' x y z hboth.1 hboth.2 hnew)
      · exact h'.complete hkeep hD k k' x y z hxy hyz (not_and_or.1 hboth)

theorem meets_eachOf {fuel : Nat} {add : VRRelation V → Attempt (RelationsMap V)}
    (hadd : ∀ r ∈ A, Attempt.Meets (Ready keep U D fuel) (Grown keep U A D) (add r)) {v : V}
    {follows : VRRelation V → Option (VRRelation V)}
    (hA : ∀ it ∈ D, it.lhs = v → ∀ r ∈ follows it, r ∈ A) :
    Attempt.Meets (Ready keep U D fuel) (Grown keep U A D) (eachOf add v follows) := by
  intro m hm
  refine Attempt.Meets.each composes_grown (fun it hit => ?_) m hm
  obtain ⟨hmem, hlhs⟩ := mem_get.1 hit
  have hr := hA it (hm.subset it hmem) hlhs
  cases hf : follows it with
  | none => exact Attempt.meets_skip composes_grown
  | some r => exact hadd r (hr r hf)

theorem meets_addTransitive1 {fuel : Nat} {add : VRRelation V → Attempt (RelationsMap V)}
    (hA : Follows A D)
    (hadd : ∀ r ∈ A, Attempt.Meets (Ready keep U D fuel) (Grown keep U A D) (add r))
    {rel : VRRelation V} (hrel : rel ∈ A) :
    Attempt.Meets (Ready keep U D fuel) (Grown keep U A D) (addTransitive1 add rel) := by
  rw [addTransitive1_eq]
  have hn := hA.normal hrel
  exact (meets_eachOf hadd fun it hit heq => hA.ofRhs _ hn it hit heq).andThen composes_grown
    (meets_eachOf hadd fun it hit heq => hA.ofLhs _ hn it hit heq)

/-- A call that adds nothing finds its relation in the map. -/
theorem mem_of_add {fuel : Nat} {rel : VRRelation V} {m m' : RelationsMap V}
    (h : add fuel rel m = some (m', false)) : rel ∈ m.relations := by
  cases fuel with
  | zero => cases h
  | succ fuel =>
      by_contra hnew
      have hins : (m.insert rel).2 = true := by
        rw [insert, if_neg hnew]
      simp only [add, hins, Bool.true_or, Bool.true_and] at h
      split_ifs at h
      all_goals simp at h

/-- The last turn of a loop, when it reports nothing, reports nothing. -/
theorem saturated_of_addTransitive1 {fuel : Nat} {m m' : RelationsMap V} {rel : VRRelation V}
    (hA : Follows A D)
    (hadd : ∀ r ∈ A, Attempt.Meets (Ready keep U D fuel) (Grown keep U A D) (add fuel r))
    (hm : Ready keep U D fuel m) (hrel : rel ∈ A)
    (h : addTransitive1 (add fuel) rel m = some (m', false)) : m' = m ∧ Saturated (normal rel) m := by
  have hn := hA.normal hrel
  -- a turn that reports nothing has found all that follows in the map already
  have heach : ∀ {v : V} {follows : VRRelation V → Option (VRRelation V)} {t : RelationsMap V},
      (∀ it ∈ D, it.lhs = v → ∀ r ∈ follows it, r ∈ A) →
      eachOf (add fuel) v follows m = some (t, false) →
        t = m ∧ ∀ it ∈ m.relations, it.lhs = v → ∀ r ∈ follows it, r ∈ m.relations := by
    intro v follows t hfollows ht
    have hmem : ∀ it ∈ m.get v, ∀ r ∈ follows it, r ∈ A := fun it hit =>
      hfollows it (hm.subset it (mem_get.1 hit).1) (mem_get.1 hit).2
    obtain ⟨rfl, hall⟩ := Attempt.each_eq_false (fun it hit t ht => by
      cases hf : follows it with
      | none =>
          rw [hf] at ht
          exact (Prod.mk.inj (Option.some.inj ht)).1.symm
      | some r =>
          rw [hf] at ht
          exact (hadd r (hmem it hit r hf)).eq_of_false (fun _ _ h => h.same rfl) hm ht) ht
    refine ⟨rfl, fun it hit hv r hr => ?_⟩
    have hdone := hall it (mem_get.2 ⟨hit, hv⟩)
    rw [Option.mem_def.1 hr] at hdone
    exact mem_of_add hdone
  rw [addTransitive1_eq] at h
  have hrhs := hA.ofRhs _ hn
  have hlhs := hA.ofLhs _ hn
  obtain ⟨h₁, h₂⟩ := Attempt.andThen_eq_false (fun t ht => (heach hrhs ht).1) h
  exact ⟨(heach hlhs h₂).1, (heach hrhs h₁).2, (heach hlhs h₂).2⟩

theorem meets_addTransitive {fuel : Nat} (hA : Follows A D)
    (hadd : ∀ r ∈ A, Attempt.Meets (Ready keep U D fuel) (Grown keep U A D) (add fuel r))
    {rel : VRRelation V} (hrel : rel ∈ A) {m : RelationsMap V} (hm : Ready keep U D fuel m) :
    ∃ m' b, addTransitive fuel (add fuel) rel m = some (m', b) ∧ Ready keep U D fuel m' ∧
      Grown keep U A D m m' b ∧ Saturated (normal rel) m' := by
  -- for an equality and its negation there is no second part
  obtain ⟨second, hsecond, hloop⟩ : ∃ second,
      (second = Attempt.skip ∨ second = addTransitive1 (add fuel) rel.reverse) ∧
      addTransitive fuel (add fuel) rel =
        Attempt.repeatWhile ((addTransitive1 (add fuel) rel).andThen second) fuel := by
    refine ⟨_, ?_, rfl⟩
    cases rel.relation with
    | eq => exact Or.inl rfl
    | neq => exact Or.inl rfl
    | le => exact Or.inr rfl
    | lt => exact Or.inr rfl
    | ge => exact Or.inr rfl
    | gt => exact Or.inr rfl
  rw [hloop]
  have hbody : Attempt.Meets (Ready keep U D fuel) (Grown keep U A D)
      ((addTransitive1 (add fuel) rel).andThen second) := by
    refine (meets_addTransitive1 hA hadd hrel).andThen composes_grown ?_
    obtain rfl | rfl := hsecond
    · exact Attempt.meets_skip composes_grown
    · exact meets_addTransitive1 hA hadd (hA.reverse rel hrel)
  -- the loop ends with a turn that reports nothing, on the map that it leaves
  obtain ⟨t, b, ht, hready, hgrown, u, hu, hlast, hsame⟩ :=
    hbody.repeatWhile composes_grown (fun _ _ _ _ h => h.rank rfl) m hm hm.rank
  obtain rfl : t = u := hsame.same rfl
  refine ⟨t, b, ht, hready, hgrown, ?_⟩
  have hfirst := (Attempt.andThen_eq_false (fun t' ht' =>
    (saturated_of_addTransitive1 hA hadd hready hrel ht').1) hlast).1
  exact (saturated_of_addTransitive1 hA hadd hready hrel hfirst).2

/-- The new relation is composed with all others. -/
theorem compose_of_saturated {fuel : Nat} {m : RelationsMap V} {rel : VRRelation V}
    (hkeep : keep = true) (hD : NoWrongPair D) (hm : Ready keep U D fuel m)
    (hsat : Saturated (normal rel) m) {k k' : Strength} {a b c : V}
    (h : ⟨k.type, a, b⟩ ∈ m.relations) (h' : ⟨k'.type, b, c⟩ ∈ m.relations)
    (hnew : (⟨k.type, a, b⟩ = rel ∨ ⟨k.type, a, b⟩ = rel.reverse) ∨
      (⟨k'.type, b, c⟩ = rel ∨ ⟨k'.type, b, c⟩ = rel.reverse)) :
    ⟨(max k k').type, a, c⟩ ∈ m.relations := by
  -- only the relation that is normal is saturated: the other one is read through its reverse
  have hback : ∀ {t : VRRelationType} {x y : V}, (⟨t, x, y⟩ : VRRelation V) ∈ m.relations →
      ⟨t.reverse, y, x⟩ ∈ m.relations := fun hxy => hm.reverse hkeep _ hxy
  have heq : ∀ k : Strength, max Strength.eq k = k ∧ max k Strength.eq = k := by
    intro k
    cases k <;> exact ⟨rfl, rfl⟩
  rcases hnew with hnew | hnew
  · rcases normal_cases hnew with hn | ⟨rfl, hn⟩
    · rw [hn] at hsat
      exact hsat.1 _ h' rfl _ (ofRhs_compose k k' a b c)
    · rw [hn] at hsat
      rw [(heq k').1]
      exact hsat.2 _ h' rfl _ rfl
  · rcases normal_cases hnew with hn | ⟨rfl, hn⟩
    · rw [hn] at hsat
      have hok : ¬ (k' = .le ∧ k = .lt) := by
        rintro ⟨rfl, rfl⟩
        exact hD b a c (hm.subset _ (hback h)) (hm.subset _ h')
      obtain ⟨r, hr, hcase⟩ := ofLhs_compose b c a hok
      have hmem := hsat.2 _ (hback h) rfl r hr
      rcases hcase with rfl | hcase
      · exact hmem
      · rw [← hcase]
        exact hm.reverse hkeep r hmem
    · rw [hn] at hsat
      rw [(heq k).2]
      have hmem := hsat.1 _ (hback h) rfl _ rfl
      rw [← VRRelationType.reverse_reverse k.type]
      exact hback hmem

/-- **A call of `add`** ends, adds only what follows, and leaves what is new composed. -/
theorem exists_add (hA : Follows A D) (hU : ∀ r ∈ D, r ∈ U) :
    ∀ {fuel : Nat} {rel : VRRelation V}, rel ∈ A → ∀ {m : RelationsMap V},
      Ready keep U D fuel m → ∃ m' b, add fuel rel m = some (m', b) ∧ Ready keep U D fuel m' ∧
        Grown keep U A D m m' b ∧ rel ∈ m'.relations := by
  intro fuel
  induction fuel with
  | zero => exact fun _ _ hm => absurd hm.rank (Nat.not_lt_zero _)
  | succ fuel ih =>
      intro rel hrel m hm
      have hadd : ∀ r ∈ A, Attempt.Meets (Ready keep U D fuel) (Grown keep U A D) (add fuel r) :=
        fun r hr m hm =>
          let ⟨m', b, h, hm', hgrown, _⟩ := ih hr hm
          ⟨m', b, h, hm', hgrown⟩
      have hrev := hA.reverse rel hrel
      have hUrel := hU rel (hA.subset hrel)
      have hUrev := hU _ (hA.subset hrev)
      cases keep with
      | false =>
          have hstep : add (fuel + 1) rel m = some (m.insert rel) := by
            simp [add, hm.mode]
          have hgrows : ∀ r ∈ m.relations, r ∈ (m.insert rel).1.relations := fun r hr =>
            mem_insert.2 (Or.inr hr)
          have hgrown : Grown false U A D m (m.insert rel).1 (m.insert rel).2 := by
            refine ⟨hgrows, fun r hr => ?_, fun h => (insert_eq_false h).2, fun h => ?_, nofun⟩
            · rcases mem_insert.1 hr with rfl | hr
              · exact Or.inr hrel
              · exact Or.inl hr
            · exact rank_lt hgrows hUrel (insert_eq_true h) (mem_insert.2 (Or.inl rfl))
          refine ⟨_, _, hstep, ⟨(keep_insert rel m).trans hm.mode, fun r hr => ?_, nofun,
            lt_of_le_of_lt hgrown.rank_le hm.rank⟩, hgrown, mem_insert.2 (Or.inl rfl)⟩
          rcases mem_insert.1 hr with rfl | hr
          · exact hA.subset hrel
          · exact hm.subset r hr
      | true =>
          have hmem : ∀ {r : VRRelation V}, r ∈ ((m.insert rel).1.insert rel.reverse).1.relations ↔
              r = rel.reverse ∨ r = rel ∨ r ∈ m.relations := by
            intro r
            rw [mem_insert, mem_insert]
          have hgrows : ∀ r ∈ m.relations,
              r ∈ ((m.insert rel).1.insert rel.reverse).1.relations := fun r hr =>
            hmem.2 (Or.inr (Or.inr hr))
          have hmode : ((m.insert rel).1.insert rel.reverse).1.keepTransitivelyClosed = true := by
            rw [keep_insert, keep_insert, hm.mode]
          by_cases hret : ((m.insert rel).2 || ((m.insert rel).1.insert rel.reverse).2) = true
          · have hrank : rank U ((m.insert rel).1.insert rel.reverse).1 < rank U m := by
              rcases Bool.or_eq_true_iff.1 hret with h | h
              · exact rank_lt hgrows hUrel (insert_eq_true h) (hmem.2 (Or.inr (Or.inl rfl)))
              · refine rank_lt hgrows hUrev (fun hr => insert_eq_true h ?_) (hmem.2 (Or.inl rfl))
                exact mem_insert.2 (Or.inr hr)
            have hready : Ready true U D fuel ((m.insert rel).1.insert rel.reverse).1 := by
              refine ⟨hmode, fun r hr => ?_, fun _ r hr => ?_, by have := hm.rank; omega⟩
              · rcases hmem.1 hr with rfl | rfl | hr
                · exact hA.subset hrev
                · exact hA.subset hrel
                · exact hm.subset r hr
              · rcases hmem.1 hr with rfl | rfl | hr
                · rw [VRRelation.reverse_reverse]
                  exact hmem.2 (Or.inr (Or.inl rfl))
                · exact hmem.2 (Or.inl rfl)
                · exact hgrows _ (hm.reverse rfl r hr)
            obtain ⟨m', b, hm', hready', hgrown, hsat⟩ := meets_addTransitive hA hadd hrel hready
            have hstep : add (fuel + 1) rel m = some (m', true) := by
              simp [add, hm.mode, hret, hm']
            have hnewer : ∀ {r : VRRelation V}, r ∉ m.relations →
                (r = rel ∨ r = rel.reverse) ∨
                  r ∉ ((m.insert rel).1.insert rel.reverse).1.relations := by
              intro r hr
              by_cases hr' : r ∈ ((m.insert rel).1.insert rel.reverse).1.relations
              · rcases hmem.1 hr' with h | h | h
                · exact Or.inl (Or.inr h)
                · exact Or.inl (Or.inl h)
                · exact absurd h hr
              · exact Or.inr hr'
            refine ⟨m', true, hstep, ⟨hready'.mode, hready'.subset, hready'.reverse,
              hready'.rank.trans (Nat.lt_succ_self fuel)⟩, ⟨fun r hr => ?_, fun r hr => ?_, nofun,
              fun _ => lt_of_le_of_lt hgrown.rank_le hrank, fun _ hD k k' x y z h h' hnew => ?_⟩,
              hgrown.grows rel (hmem.2 (Or.inr (Or.inl rfl)))⟩
            · exact hgrown.grows r (hgrows r hr)
            · rcases hgrown.added r hr with hr | hr
              · rcases hmem.1 hr with rfl | rfl | hr
                · exact Or.inr hrev
                · exact Or.inr hrel
                · exact Or.inl hr
              · exact Or.inr hr
            · -- new in this call, or new in a nested one
              by_cases hrelated : (⟨k.type, x, y⟩ = rel ∨ ⟨k.type, x, y⟩ = rel.reverse) ∨
                  (⟨k'.type, y, z⟩ = rel ∨ ⟨k'.type, y, z⟩ = rel.reverse)
              · exact compose_of_saturated rfl hD hready' hsat h h' hrelated
              · refine hgrown.complete rfl hD k k' x y z h h' ?_
                obtain ⟨hne, hne'⟩ := not_or.1 hrelated
                exact hnew.imp (fun h => (hnewer h).resolve_left hne)
                  fun h => (hnewer h).resolve_left hne'
          · obtain ⟨h₁, h₂⟩ := Bool.or_eq_false_iff.1 (Bool.not_eq_true _ ▸ hret)
            have hsame : ((m.insert rel).1.insert rel.reverse).1 = m := by
              rw [(insert_eq_false h₂).2, (insert_eq_false h₁).2]
            have hstep : add (fuel + 1) rel m = some (m, false) := by
              simp [add, hm.mode, h₁, h₂, hsame]
            exact ⟨m, false, hstep, hm, composes_grown.refl m, (insert_eq_false h₁).1⟩

theorem meets_add (hA : Follows A D) (hU : ∀ r ∈ D, r ∈ U) {fuel : Nat} :
    ∀ rel ∈ A, Attempt.Meets (Ready keep U D fuel) (Grown keep U A D) (add fuel rel) :=
  fun _ hrel _ hm =>
    let ⟨m', b, h, hm', hgrown, _⟩ := exists_add hA hU hrel hm
    ⟨m', b, h, hm', hgrown⟩

/-- Calls of `add`, one after the other. -/
theorem exists_each_add (hA : Follows A D) (hU : ∀ r ∈ D, r ∈ U) {fuel : Nat}
    {g : VRRelation V → VRRelation V} {rels : List (VRRelation V)} (hrels : ∀ r ∈ rels, g r ∈ A)
    {m : RelationsMap V} (hm : Ready keep U D fuel m) :
    ∃ m' b, Attempt.each (fun rel => add fuel (g rel)) rels m = some (m', b) ∧
      Ready keep U D fuel m' ∧ Grown keep U A D m m' b ∧ ∀ r ∈ rels, g r ∈ m'.relations := by
  induction rels generalizing m with
  | nil => exact ⟨m, false, rfl, hm, composes_grown.refl m, nofun⟩
  | cons r rels ih =>
      obtain ⟨m₁, b₁, h₁, hm₁, hgrown₁, hr⟩ := exists_add hA hU (hrels r List.mem_cons_self) hm
      obtain ⟨m₂, b₂, h₂, hm₂, hgrown₂, hrest⟩ :=
        ih (fun r' hr' => hrels r' (List.mem_cons_of_mem r hr')) hm₁
      refine ⟨m₂, b₁ || b₂, by simp [Attempt.each, Attempt.andThen, h₁, h₂], hm₂,
        composes_grown.trans hgrown₁ hgrown₂, fun r' hr' => ?_⟩
      rcases List.mem_cons.1 hr' with rfl | hr'
      · exact hgrown₂.grows _ hr
      · exact hrest r' hr'

/-- **A call of `transitivelyClose`** ends with a map that has the reverse relations and to which
nothing can be added. -/
theorem exists_transitivelyClose (hD : Follows D D) (hU : ∀ r ∈ D, r ∈ U) {fuel : Nat}
    {m : RelationsMap V} (hm : Ready keep U D fuel m) :
    ∃ m', transitivelyClose fuel m = some m' ∧ Ready keep U D fuel m' ∧
      (∀ r ∈ m.relations, r ∈ m'.relations ∧ r.reverse ∈ m'.relations) ∧
        ∀ r ∈ m'.relations, Saturated (normal r) m' := by
  have hadd : ∀ r ∈ D, Attempt.Meets (Ready keep U D fuel) (Grown keep U D D) (add fuel r) :=
    meets_add hD hU
  obtain ⟨m₁, b₁, h₁, hm₁, hgrown₁, hrev⟩ := exists_each_add hD hU (g := VRRelation.reverse)
    (fun r hr => hD.reverse r (hm.subset r hr)) hm
  have htransitive : ∀ r ∈ D, Attempt.Meets (Ready keep U D fuel) (Grown keep U D D)
      (addTransitive fuel (add fuel) r) := fun r hr m hm =>
    let ⟨m', b, h, hm', hgrown, _⟩ := meets_addTransitive hD hadd hr hm
    ⟨m', b, h, hm', hgrown⟩
  have hpass : Attempt.Meets (Ready keep U D fuel) (Grown keep U D D)
      fun m => Attempt.each (addTransitive fuel (add fuel)) m.relations m :=
    Attempt.Meets.on (g := RelationsMap.relations) fun m hm =>
      Attempt.Meets.each composes_grown fun r hr => htransitive r (hm.subset r hr)
  obtain ⟨m₂, b₂, h₂, hm₂, hgrown₂, u, -, hlast, hsame⟩ :=
    hpass.repeatWhile composes_grown (fun _ _ _ _ h => h.rank rfl) m₁ hm₁ hm₁.rank
  obtain rfl : m₂ = u := hsame.same rfl
  refine ⟨m₂, ?_, hm₂, fun r hr => ⟨hgrown₂.grows r (hgrown₁.grows r hr),
    hgrown₂.grows _ (hrev r hr)⟩, fun r hr => ?_⟩
  · simp [transitivelyClose, h₁, h₂]
  · -- the last pass has come to the relation and added nothing
    have hsilent := (Attempt.each_eq_false (fun r hr t ht =>
      (htransitive r (hm₂.subset r hr)).eq_of_false (fun _ _ h => h.same rfl) hm₂ ht) hlast).2 r hr
    obtain ⟨m₃, b₃, h₃, -, -, hsat⟩ := meets_addTransitive hD hadd (hm₂.subset r hr) hm₂
    obtain ⟨rfl, -⟩ := Prod.mk.inj (Option.some.inj (hsilent.symm.trans h₃))
    exact hsat

end Calls

end Cape.ValueRelations.RelationsMap
