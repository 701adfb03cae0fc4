import Cape.Library.FittingRuns
import Cape.Library.LiveIteration
import Cape.ValueRelations.SharedClasses

/-!
# Runs of equality maps

The additions to equality maps and their intersection. The loop over a set or a map is over the one in
memory, which the additions may change: the set that is added may be a class of the map it is added
to, and a map may be added to itself. The set of a class is destroyed with the last key that refers
to it.

The specification of a map are pairs, and its classes the equivalence that they generate. A run of the
operations meets it unless it adds, to a value of a class, another class of the same map: the first
addition merges the two and destroys the set that the loop goes over (`equalityMap_right_iff`).
-/

set_option autoImplicit false

namespace Cape.ValueRelations

open Cape.Library Cape.Library.GeneratedEquivalence Attempt LiveIteration

variable {ι V : Type} [DecidableEq ι] [LinearOrder V]

namespace SharedMap

def keys (m : SharedMap V) : List V := m.map.map Prod.fst

/-- `intersect`: a new map with the pairs of `rhs` that are in one class of the map, too. -/
def intersect (m rhs : SharedMap V) : SharedMap V :=
  rhs.map.foldl
    (fun tmp it =>
      match m.get it.1 with
      | none => tmp
      | some ourS =>
          ourS.foldl (fun tmp x => if x ∈ rhs.set it.2 then (tmp.add it.1 x).1 else tmp) tmp)
    empty

end SharedMap

/-- The maps of a run. -/
abbrev Maps (ι V : Type) := ι → SharedMap V

/-- `add(a, b)` on the map `i` -/
def addPair (i : ι) (a b : V) : Attempt (Maps ι V) := fun maps =>
  some (Function.update maps i ((maps i).add a b).1, ((maps i).add a b).2)

omit [DecidableEq ι] [LinearOrder V] in
/-- The set of a class, which is there as long as a key refers to it. -/
def classSet (j : ι) (c : ℕ) (maps : Maps ι V) : Option (List V) :=
  if (maps j).map.any (·.2 = c) then some ((maps j).set c) else none

/-- `add(a, S)` for a set that is no class -/
def addSet (i : ι) (a : V) (S : List V) : Attempt (Maps ι V) := each (addPair i a) S

/-- `add(a, S)` for the class of `b` in the map `j`: nothing is called where it has none. The loop can
meet one value more than the class had, `a` itself. -/
def addClass (i : ι) (a : V) (j : ι) (b : V) : Attempt (Maps ι V) := fun maps =>
  match (maps j).find b with
  | none => skip maps
  | some c => eachLive (classSet j c) (addPair i a) (((maps j).set c).length + 2) none maps

/-- `add` for the map `j` -/
def addMap (i j : ι) : Attempt (Maps ι V) := fun maps =>
  eachLive (fun maps : Maps ι V => some (maps j).keys) (fun key => addClass i key j key)
    ((maps j).keys.length + 1) none maps

/-- The operations on the maps. -/
inductive MapOp (ι V : Type) where
  | add (i : ι) (a b : V)
  | addSet (i : ι) (a : V) (S : List V)
  | addClass (i : ι) (a : V) (j : ι) (b : V)
  | addMap (i j : ι)
  | intersect (i j : ι)

namespace MapOp

/-- An operation, with what it returns; `intersect` returns nothing. -/
def step : MapOp ι V → Attempt (Maps ι V)
  | .add i a b => addPair i a b
  | .addSet i a S => ValueRelations.addSet i a S
  | .addClass i a j b => ValueRelations.addClass i a j b
  | .addMap i j => ValueRelations.addMap i j
  | .intersect i j => fun maps =>
      some (Function.update maps i ((maps i).intersect (maps j)), false)

omit [DecidableEq ι] [LinearOrder V] in
/-- The map that is changed. -/
def target : MapOp ι V → ι
  | .add i _ _ | .addSet i _ _ | .addClass i _ _ _ | .addMap i _ | .intersect i _ => i

omit [DecidableEq ι] [LinearOrder V] in
/-- What the pairs of the changed map are afterwards: the added ones are new, and an intersection has
the pairs that are equal in both maps. -/
def pairs (P : ι → V → V → Prop) : MapOp ι V → V → V → Prop
  | .add i a b => Both (P i) fun x y => x = a ∧ y = b
  | .addSet i a S => Both (P i) fun x y => x = a ∧ y ∈ S
  | .addClass i a j b => Both (P i) fun x y => x = a ∧ Related (P j) b y
  | .addMap i j => Both (P i) (Related (P j))
  | .intersect i j => fun x y => Related (P i) x y ∧ Related (P j) x y

/-- A class of the map itself is not added to a value of another of its classes. -/
def Fits (maps : Maps ι V) : MapOp ι V → Prop
  | .addClass i a j b =>
      ¬ (i = j ∧ (maps i).find a ≠ none ∧ (maps i).find b ≠ none ∧ ¬ (maps i).Same a b)
  | _ => True

end MapOp

/-- The maps with their specification. -/
structure Specified (ι V : Type) where
  maps : Maps ι V
  pairs : ι → V → V → Prop

namespace Specified

def start : Specified ι V := ⟨fun _ => SharedMap.empty, fun _ _ _ => False⟩

/-- An operation on both. -/
def step (op : MapOp ι V) (s : Specified ι V) : Option (Specified ι V × Bool) :=
  (op.step s.maps).map fun r =>
    (⟨r.1, Function.update s.pairs op.target (op.pairs s.pairs)⟩, r.2)

/-- Two values are in one class of a map exactly when its pairs relate them. -/
def Refines (s : Specified ι V) : Prop :=
  ∀ i x y, (s.maps i).Same x y ↔ Related (s.pairs i) x y

/-- The result refines its specification, and an addition tells whether the relation has grown. -/
def Right (op : MapOp ι V) (s : Specified ι V) (r : Specified ι V × Bool) : Prop :=
  r.1.Refines ∧ (r.2 = true ↔ ∃ x y, Related (r.1.pairs op.target) x y ∧
    ¬ Related (s.pairs op.target) x y)

end Specified

/-! ## Additions -/

/-- The pairs are added to the map `i`, with a report of whether its relation has grown. -/
structure Joins (i : ι) (Q : V → V → Prop) (maps : Maps ι V) (r : Maps ι V × Bool) : Prop where
  shared : ∀ k, (r.1 k).Shared
  others : ∀ k, k ≠ i → r.1 k = maps k
  same : (r.1 i).Same = Related (Both (maps i).Same Q)
  grown : r.2 = true ↔ ∃ x y, (r.1 i).Same x y ∧ ¬ (maps i).Same x y

omit [DecidableEq ι] in
theorem joins_skip {maps : Maps ι V} (hmaps : ∀ k, (maps k).Shared) (i : ι) {Q : V → V → Prop}
    (hQ : ∀ x y, ¬ Q x y) : Joins i Q maps (maps, false) where
  shared := hmaps
  others _ _ := rfl
  same := by
    have hboth : Both (maps i).Same Q = (maps i).Same := by
      funext x y
      exact propext (or_iff_left (hQ x y))
    rw [hboth, related_eq_self (hmaps i).classes]
  grown := by simp

omit [DecidableEq ι] in
theorem Joins.trans {i : ι} {Q Q' : V → V → Prop} {maps : Maps ι V} {r r' : Maps ι V × Bool}
    (h : Joins i Q maps r) (h' : Joins i Q' r.1 r') :
    Joins i (Both Q Q') maps (r'.1, r.2 || r'.2) where
  shared := h'.shared
  others k hk := (h'.others k hk).trans (h.others k hk)
  same := by
    rw [h'.same, h.same, related_join]
    congr 1
    funext x y
    exact propext or_assoc
  grown := by
    have hmore : ∀ {x y}, (maps i).Same x y → (r.1 i).Same x y := fun hxy => by
      rw [h.same]
      exact related_of (Or.inl hxy)
    have hmore' : ∀ {x y}, (r.1 i).Same x y → (r'.1 i).Same x y := fun hxy => by
      rw [h'.same]
      exact related_of (Or.inl hxy)
    rw [Bool.or_eq_true, h.grown, h'.grown]
    constructor
    · rintro (⟨x, y, hnew, hold⟩ | ⟨x, y, hnew, hold⟩)
      · exact ⟨x, y, hmore' hnew, hold⟩
      · exact ⟨x, y, hnew, fun h => hold (hmore h)⟩
    · rintro ⟨x, y, hnew, hold⟩
      -- the pair is there after the first part, or it is new in the second
      by_cases hmid : (r.1 i).Same x y
      · exact Or.inl ⟨x, y, hmid, hold⟩
      · exact Or.inr ⟨x, y, hnew, hmid⟩

omit [DecidableEq ι] in
theorem joins_congr {i : ι} {Q Q' : V → V → Prop} {maps : Maps ι V} {r : Maps ι V × Bool}
    (h : Joins i Q maps r) (heq : ∀ x y, Q x y ↔ Q' x y) : Joins i Q' maps r := by
  obtain rfl : Q = Q' := by
    funext x y
    exact propext (heq x y)
  exact h

theorem addPair_joins {maps : Maps ι V} (hmaps : ∀ k, (maps k).Shared) (i : ι) (a b : V) :
    ∃ r, addPair i a b maps = some r ∧ Joins i (fun x y => x = a ∧ y = b) maps r := by
  refine ⟨_, rfl, fun k => ?_, fun k hk => Function.update_of_ne hk _ _, ?_, ?_⟩
  · by_cases hk : k = i
    · subst hk
      simpa using SharedMap.shared_add (hmaps k) a b
    · simpa [hk] using hmaps k
  · simpa using SharedMap.same_add (hmaps i) a b
  · rw [SharedMap.add_snd (hmaps i)]
    simp only [Function.update_self, SharedMap.same_add (hmaps i)]
    constructor
    · exact fun h => ⟨a, b, related_of (Or.inr ⟨rfl, rfl⟩), h⟩
    · -- where the two were in one class, nothing is generated that was not there
      rintro ⟨x, y, hnew, hold⟩ hab
      refine hold (related_least (hmaps i).classes ?_ hnew)
      rintro u v (h | ⟨rfl, rfl⟩)
      · exact h
      · exact hab

omit [DecidableEq ι] in
/-- An addition for every element of a list. -/
theorem each_joins {β : Type} {i : ι} {f : β → Attempt (Maps ι V)} {Q : β → V → V → Prop}
    {P : Maps ι V → Prop} {l : List β}
    (hf : ∀ b ∈ l, ∀ maps, (∀ k, (maps k).Shared) → P maps →
      ∃ r, f b maps = some r ∧ Joins i (Q b) maps r ∧ P r.1)
    {maps : Maps ι V} (hmaps : ∀ k, (maps k).Shared) (hP : P maps) :
    ∃ r, each f l maps = some r ∧ Joins i (fun x y => ∃ b ∈ l, Q b x y) maps r := by
  induction l generalizing maps with
  | nil => exact ⟨_, rfl, joins_skip hmaps i (by simp)⟩
  | cons b l ih =>
      obtain ⟨r, hr, hjoin, hPr⟩ := hf b List.mem_cons_self maps hmaps hP
      obtain ⟨r', hr', hjoin'⟩ := ih (fun b hb => hf b (List.mem_cons_of_mem _ hb)) hjoin.shared hPr
      refine ⟨(r'.1, r.2 || r'.2), by simp [each, andThen, hr, hr'],
        joins_congr (hjoin.trans hjoin') fun x y => ?_⟩
      simp [Both]

theorem addSet_joins {maps : Maps ι V} (hmaps : ∀ k, (maps k).Shared) (i : ι) (a : V)
    (S : List V) :
    ∃ r, addSet i a S maps = some r ∧ Joins i (fun x y => x = a ∧ y ∈ S) maps r := by
  obtain ⟨r, hr, hjoin⟩ := each_joins (P := fun _ => True) (l := S)
    (fun b _ maps hmaps _ => (addPair_joins hmaps i a b).imp fun r h => ⟨h.1, h.2, trivial⟩)
    hmaps trivial
  refine ⟨r, hr, joins_congr hjoin fun x y => ?_⟩
  constructor
  · rintro ⟨b, hb, hx, rfl⟩
    exact ⟨hx, hb⟩
  · rintro ⟨hx, hy⟩
    exact ⟨y, hy, hx, rfl⟩

/-! ## Additions of classes -/

theorem addPair_of_same {maps : Maps ι V} (hmaps : ∀ k, (maps k).Shared) {i : ι} {a b : V}
    (h : (maps i).Same a b) : addPair i a b maps = some (maps, false) := by
  simp [addPair, SharedMap.add_of_same (hmaps i) h]

theorem each_of_same {maps : Maps ι V} (hmaps : ∀ k, (maps k).Shared) {i : ι} {a : V}
    {l : List V} (h : ∀ b ∈ l, (maps i).Same a b) :
    each (addPair i a) l maps = some (maps, false) := by
  induction l with
  | nil => rfl
  | cons b l ih =>
      have hb := addPair_of_same hmaps (h b List.mem_cons_self)
      have hrest := ih fun b hb => h b (List.mem_cons_of_mem _ hb)
      simp [each, andThen, hb, hrest]

omit [DecidableEq ι] in
/-- The set of a class is there while a key refers to it. -/
theorem classSet_of_find {maps : Maps ι V} {j : ι} (hj : (maps j).Shared) {b : V} {c : ℕ}
    (h : (maps j).find b = some c) : classSet j c maps = some ((maps j).set c) := by
  apply if_pos
  rw [List.any_eq_true]
  exact ⟨(b, c), hj.keys.find_eq_some_iff.1 h, by simp⟩

omit [DecidableEq ι] in
theorem classSet_eq_none {maps : Maps ι V} {j : ι} (hj : (maps j).Shared) {c : ℕ}
    (h : ∀ x, (maps j).find x ≠ some c) : classSet j c maps = none := by
  apply if_neg
  rw [List.any_eq_true]
  rintro ⟨⟨x, d⟩, hmem, hd⟩
  obtain rfl : d = c := by simpa using hd
  exact h x (hj.keys.find_eq_some_iff.2 hmem)

/-- The loop over a class leaves the class alone: it is the loop over its values. -/
theorem addClass_other {maps : Maps ι V} (hmaps : ∀ k, (maps k).Shared) {i j : ι} (hne : i ≠ j)
    (a : V) {b : V} {c : ℕ} (hb : (maps j).find b = some c) :
    addClass i a j b maps = each (addPair i a) ((maps j).set c) maps := by
  simp only [addClass, hb]
  refine eachLive_all (P := fun s => s j = maps j) ((hmaps j).sorted c) (fun s hs => ?_)
    (fun x _ s hs r hr => ?_) (by omega) rfl
  · rw [classSet_of_find (b := b) (by rw [hs]; exact hmaps j) (by rw [hs]; exact hb), hs]
  · obtain rfl := Option.some.inj hr
    dsimp only
    rw [Function.update_of_ne hne.symm, hs]

theorem addClass_same {maps : Maps ι V} (hmaps : ∀ k, (maps k).Shared) {i : ι} {a b : V}
    (h : (maps i).Same a b) : addClass i a i b maps = some (maps, false) := by
  obtain ⟨c, ha, hb⟩ := (hmaps i).same_iff.1 h
  have hall : ∀ x ∈ (maps i).set c, (maps i).Same a x := fun x hx =>
    (SharedMap.same_of_find ha).2 hx
  simp only [addClass, hb]
  rw [eachLive_all (P := fun s => s = maps) ((hmaps i).sorted c) (fun s hs => ?_)
    (fun x hx s hs r hr => ?_) (by omega) rfl]
  · exact each_of_same hmaps hall
  · rw [hs]
    exact classSet_of_find (hmaps i) hb
  · rw [hs, addPair_of_same hmaps (hall x hx)] at hr
    obtain rfl := Option.some.inj hr
    rfl

/-- The first addition of a value without a class puts it into the class that the loop goes over. -/
theorem addClass_new {maps : Maps ι V} (hmaps : ∀ k, (maps k).Shared) {i : ι} {a b : V} {c : ℕ}
    (ha : (maps i).find a = none) (hb : (maps i).find b = some c) :
    addClass i a i b maps = each (addPair i a) ((maps i).set c) maps := by
  have hsorted := (hmaps i).sorted c
  have hfind := fun x => (hmaps i).mem_set_iff hb x
  have hlt : c < (maps i).sets.length := SharedMap.lt_of_mem_set ((hmaps i).own hb)
  simp only [addClass, hb]
  cases hl : (maps i).set c with
  | nil =>
      have hmem := (hmaps i).own hb
      rw [hl] at hmem
      exact absurd hmem List.not_mem_nil
  | cons x l =>
      have hx : (maps i).find x = some c := (hfind x).1 (hl ▸ List.mem_cons_self)
      have hadd : (maps i).add a x = (((maps i).insert c a).store a c, true) := by
        simp [SharedMap.add, ha, hx]
      obtain ⟨r, hr, hjoin⟩ := addPair_joins hmaps i a x
      have hri : r.1 i = ((maps i).insert c a).store a c := by
        obtain rfl := Option.some.inj hr
        simp [hadd]
      have hset : (r.1 i).set c = insertValue a (x :: l) := by
        rw [hri, SharedMap.set_store, SharedMap.set_insert_of_lt hlt, hl]
      have hra : (r.1 i).find a = some c := by simp [hri]
      have hall : ∀ y ∈ (r.1 i).set c, (r.1 i).Same a y := fun y hy =>
        (SharedMap.same_of_find hra).2 hy
      have hshort : (((r.1 i).set c).filter (Ahead (some x) ·)).length < (x :: l).length + 1 := by
        have hmem : x ∈ (r.1 i).set c := by
          rw [hset, mem_insertValue]
          exact Or.inr List.mem_cons_self
        have hless := List.length_filter_lt_length_iff_exists
          (p := fun y => decide (Ahead (some x) y)).2 ⟨x, hmem, by simp⟩
        have hlength := length_insertValue_le a (x :: l)
        rw [← hset] at hlength
        omega
      -- what is left of the loop changes nothing
      have hrest : eachLive (classSet i c) (addPair i a) ((x :: l).length + 1) (some x) r.1 =
          some (r.1, false) := by
        rw [eachLive_eq (P := fun s => s = r.1) ((hjoin.shared i).sorted c) (fun s hs => ?_)
          (fun y hy s hs r' hr' => ?_) hshort rfl]
        · exact each_of_same hjoin.shared fun y hy => hall y (List.mem_of_mem_filter hy)
        · rw [hs]
          exact classSet_of_find (hjoin.shared i) hra
        · rw [hs, addPair_of_same hjoin.shared (hall y hy)] at hr'
          obtain rfl := Option.some.inj hr'
          rfl
      have hlist : each (addPair i a) l r.1 = some (r.1, false) := by
        refine each_of_same hjoin.shared fun y hy => hall y ?_
        rw [hset, mem_insertValue]
        exact Or.inr (List.mem_cons_of_mem x hy)
      rw [eachLive_first ((classSet_of_find (hmaps i) hb).trans (congrArg some hl))]
      simp only [andThen, each, hr, Option.bind_some, hrest, hlist, Option.map_some]

/-- A class of the map itself that another class absorbs is destroyed by the first addition. -/
theorem addClass_fails {maps : Maps ι V} (hmaps : ∀ k, (maps k).Shared) {i : ι} {a b : V}
    {A c : ℕ} (ha : (maps i).find a = some A) (hb : (maps i).find b = some c) (hne : A ≠ c) :
    addClass i a i b maps = none := by
  simp only [addClass, hb]
  cases hl : (maps i).set c with
  | nil =>
      have hmem := (hmaps i).own hb
      rw [hl] at hmem
      exact absurd hmem List.not_mem_nil
  | cons x l =>
      have hx : (maps i).find x = some c := ((hmaps i).mem_set_iff hb x).1 (hl ▸ List.mem_cons_self)
      have hlt : A < (maps i).sets.length := SharedMap.lt_of_mem_set ((hmaps i).own ha)
      have hadd : ((maps i).add a x).1 = ((maps i).absorb A ((maps i).set c)).insert A x := by
        simp [SharedMap.add, ha, hx, hne]
      obtain ⟨r, hr, hjoin⟩ := addPair_joins hmaps i a x
      have hri : r.1 i = ((maps i).absorb A ((maps i).set c)).insert A x := by
        obtain rfl := Option.some.inj hr
        simp [hadd]
      -- no key refers to the set any more
      have hgone : classSet i c r.1 = none := by
        refine classSet_eq_none (hjoin.shared i) fun y hy => ?_
        rw [hri, SharedMap.find_insert, (SharedMap.absorb_spec hlt _).2.1] at hy
        split at hy
        · exact hne (Option.some.inj hy)
        · next hnot => exact hnot ((hmaps i).own hy)
      rw [eachLive_first ((classSet_of_find (hmaps i) hb).trans (congrArg some hl))]
      simp [andThen, hr, eachLive_gone hgone]

/-- The addition of a class that fits is the addition of its values. -/
theorem addClass_eq {maps : Maps ι V} (hmaps : ∀ k, (maps k).Shared) {i j : ι} {a b : V} {c : ℕ}
    (hfit : (MapOp.addClass i a j b).Fits maps) (hb : (maps j).find b = some c) :
    addClass i a j b maps = each (addPair i a) ((maps j).set c) maps := by
  by_cases hij : i = j
  · subst hij
    cases ha : (maps i).find a with
    | none => exact addClass_new hmaps ha hb
    | some A =>
        have hsame : (maps i).Same a b := by
          by_contra hnot
          exact hfit ⟨rfl, by simp [ha], by simp [hb], hnot⟩
        obtain ⟨d, -, hb'⟩ := (hmaps i).same_iff.1 hsame
        obtain rfl := Option.some.inj (hb.symm.trans hb')
        rw [addClass_same hmaps hsame, each_of_same hmaps fun x hx => ?_]
        exact (hmaps i).classes.trans hsame ((SharedMap.same_of_find hb).2 hx)
  · exact addClass_other hmaps hij a hb

theorem addClass_joins {maps : Maps ι V} (hmaps : ∀ k, (maps k).Shared) {i j : ι} {a b : V}
    (hfit : (MapOp.addClass i a j b).Fits maps) :
    ∃ r, addClass i a j b maps = some r ∧
      Joins i (fun x y => x = a ∧ (maps j).Same b y) maps r := by
  cases hb : (maps j).find b with
  | none =>
      refine ⟨(maps, false), by simp [addClass, hb, skip], joins_skip hmaps i ?_⟩
      exact fun x y h => SharedMap.not_same_of_find hb y h.2
  | some c =>
      obtain ⟨r, hr, hjoin⟩ := addSet_joins hmaps i a ((maps j).set c)
      refine ⟨r, (addClass_eq hmaps hfit hb).trans hr, joins_congr hjoin fun x y => ?_⟩
      rw [SharedMap.same_of_find hb]

theorem addMap_joins {maps : Maps ι V} (hmaps : ∀ k, (maps k).Shared) (i j : ι) :
    ∃ r, addMap i j maps = some r ∧ Joins i (maps j).Same maps r := by
  -- each turn leaves the map `j` as it is, also when it is the map `i`
  have hturn : ∀ key ∈ (maps j).keys, ∀ s : Maps ι V, (∀ k, (s k).Shared) → s j = maps j →
      ∃ r, addClass i key j key s = some r ∧
        Joins i (fun x y => x = key ∧ (maps j).Same key y) s r ∧ r.1 j = maps j := by
    intro key hkey s hs hj
    by_cases hij : i = j
    · subst hij
      have hself : (s i).Same key key := by
        obtain ⟨⟨k, c⟩, hmem, rfl⟩ := List.mem_map.1 hkey
        have hfind := (hs i).keys.find_eq_some_iff.2 (hj ▸ hmem)
        exact (hs i).same_iff.2 ⟨c, hfind, hfind⟩
      obtain ⟨r, hr, hjoin⟩ := addClass_joins (i := i) (j := i) (a := key) (b := key) hs
        (fun h => h.2.2.2 hself)
      rw [addClass_same hs hself] at hr
      obtain rfl := Option.some.inj hr
      rw [hj] at hjoin
      exact ⟨_, addClass_same hs hself, hjoin, hj⟩
    · obtain ⟨r, hr, hjoin⟩ := addClass_joins (i := i) (j := j) (a := key) (b := key) hs
        (fun h => hij h.1)
      rw [hj] at hjoin
      exact ⟨r, hr, hjoin, (hjoin.others j (Ne.symm hij)).trans hj⟩
  have hkeys : (maps j).keys.Pairwise (· < ·) := List.pairwise_map.2 (hmaps j).keys
  have hloop : addMap i j maps = each (fun key => addClass i key j key) (maps j).keys maps := by
    refine eachLive_all (P := fun s : Maps ι V => (∀ k, (s k).Shared) ∧ s j = maps j) hkeys
      (fun s hs => by rw [hs.2]) (fun key hkey s hs r hr => ?_) (by omega) ⟨hmaps, rfl⟩
    obtain ⟨r', hr', hjoin, hj⟩ := hturn key hkey s hs.1 hs.2
    obtain rfl := Option.some.inj (hr.symm.trans hr')
    exact ⟨hjoin.shared, hj⟩
  obtain ⟨r, hr, hjoin⟩ := each_joins hturn hmaps rfl
  refine ⟨r, hloop.trans hr, joins_congr hjoin fun x y => ?_⟩
  constructor
  · rintro ⟨key, -, rfl, h⟩
    exact h
  · intro h
    obtain ⟨c, hx, -⟩ := (hmaps j).same_iff.1 h
    exact ⟨x, List.mem_map.2 ⟨(x, c), (hmaps j).keys.find_eq_some_iff.1 hx, rfl⟩, rfl, h⟩

/-! ## Intersections -/

namespace SharedMap

/-- The pairs that an intersection adds to the new map. -/
def commonPairs (m rhs : SharedMap V) : List (V × V) :=
  rhs.map.flatMap fun it =>
    (((m.get it.1).getD []).filter (· ∈ rhs.set it.2)).map fun x => (it.1, x)

theorem intersect_eq (m rhs : SharedMap V) :
    m.intersect rhs = (m.commonPairs rhs).foldl (fun tmp p => (tmp.add p.1 p.2).1) empty := by
  rw [intersect, commonPairs, List.foldl_flatMap]
  congr 1
  funext tmp it
  cases m.get it.1 with
  | none => rfl
  | some ourS => simp [List.foldl_map, List.foldl_filter]

theorem mem_commonPairs {m rhs : SharedMap V} (hrhs : rhs.Shared) {x y : V} :
    (x, y) ∈ m.commonPairs rhs ↔ m.Same x y ∧ rhs.Same x y := by
  simp only [commonPairs, List.mem_flatMap, List.mem_map, List.mem_filter, decide_eq_true_eq,
    Prod.mk.injEq]
  constructor
  · rintro ⟨⟨k, c⟩, hmem, z, ⟨hz, hset⟩, rfl, rfl⟩
    refine ⟨?_, (same_of_find (hrhs.keys.find_eq_some_iff.2 hmem)).2 hset⟩
    cases hget : m.get k with
    | none => simp [hget] at hz
    | some s => exact ⟨s, hget, by simpa [hget] using hz⟩
  · rintro ⟨⟨s, hs, hy⟩, hsame⟩
    obtain ⟨c, hx, hset⟩ := same_iff_mem.1 hsame
    exact ⟨(x, c), hrhs.keys.find_eq_some_iff.1 hx, y, ⟨by simpa [hs] using hy, hset⟩, rfl, rfl⟩

theorem addAll_spec {m : SharedMap V} (hm : m.Shared) (l : List (V × V)) :
    (l.foldl (fun tmp p => (tmp.add p.1 p.2).1) m).Shared ∧
    (l.foldl (fun tmp p => (tmp.add p.1 p.2).1) m).Same =
      Related (Both m.Same fun x y => (x, y) ∈ l) := by
  induction l generalizing m with
  | nil =>
      have hboth : (Both m.Same fun x y => (x, y) ∈ ([] : List (V × V))) = m.Same := by
        funext x y
        simp [Both]
      rw [hboth, related_eq_self hm.classes]
      exact ⟨hm, rfl⟩
  | cons p l ih =>
      obtain ⟨hshared, hsame⟩ := ih (shared_add hm p.1 p.2)
      refine ⟨hshared, hsame.trans ?_⟩
      rw [same_add hm, related_join]
      congr 1
      funext x y
      simp [Both, or_assoc, Prod.ext_iff]

/-- **`intersect`** has the pairs that are in one class of both maps. -/
theorem intersect_spec {m rhs : SharedMap V} (hm : m.Shared) (hrhs : rhs.Shared) :
    (m.intersect rhs).Shared ∧ (m.intersect rhs).Same = fun x y => m.Same x y ∧ rhs.Same x y := by
  obtain ⟨hshared, hsame⟩ := addAll_spec shared_empty (m.commonPairs rhs)
  rw [intersect_eq]
  refine ⟨hshared, hsame.trans ?_⟩
  have hclasses : Classes fun x y => m.Same x y ∧ rhs.Same x y :=
    ⟨fun h => ⟨hm.classes.symm h.1, hrhs.classes.symm h.2⟩,
      fun h h' => ⟨hm.classes.trans h.1 h'.1, hrhs.classes.trans h.2 h'.2⟩⟩
  have hboth : (Both (empty : SharedMap V).Same fun x y => (x, y) ∈ m.commonPairs rhs) =
      fun x y => m.Same x y ∧ rhs.Same x y := by
    funext x y
    rw [Both, mem_commonPairs hrhs]
    exact propext (or_iff_right (not_same_of_find rfl y))
  rw [hboth, related_eq_self hclasses]

end SharedMap

/-! ## Runs -/

namespace Specified

/-- What the operations keep. -/
structure Inv (s : Specified ι V) : Prop where
  shared : ∀ i, (s.maps i).Shared
  refines : s.Refines

omit [DecidableEq ι] in
theorem Inv.same {s : Specified ι V} (hs : s.Inv) (i : ι) :
    (s.maps i).Same = Related (s.pairs i) := by
  funext x y
  exact propext (hs.refines i x y)

omit [DecidableEq ι] in
theorem inv_start : (start : Specified ι V).Inv where
  shared _ := SharedMap.shared_empty
  refines i x y := by
    refine iff_of_false (SharedMap.not_same_of_find rfl y) ?_
    rintro ⟨⟨z, h⟩, -⟩
    exact h.elim id id

/-- What is the same for the other maps and right for the changed one is right. -/
theorem right_of_target {s : Specified ι V} (hs : s.Inv) {op : MapOp ι V} {r : Maps ι V × Bool}
    (hstep : op.step s.maps = some r) (hshared : ∀ k, (r.1 k).Shared)
    (hothers : ∀ k, k ≠ op.target → r.1 k = s.maps k)
    (hsame : (r.1 op.target).Same = Related (op.pairs s.pairs))
    (hgrown : r.2 = true ↔
      ∃ x y, (r.1 op.target).Same x y ∧ ¬ (s.maps op.target).Same x y) :
    ∃ r, s.step op = some r ∧ Right op s r ∧ r.1.Inv := by
  have hrefines : Refines ⟨r.1, Function.update s.pairs op.target (op.pairs s.pairs)⟩ := by
    intro k x y
    dsimp only
    by_cases hk : k = op.target
    · rw [hk, Function.update_self, hsame]
    · rw [Function.update_of_ne hk, hothers k hk]
      exact hs.refines k x y
  refine ⟨_, by rw [step, hstep]; rfl, ⟨hrefines, ?_⟩, hshared, hrefines⟩
  dsimp only
  rw [hgrown, Function.update_self, hsame, hs.same]

theorem right_of_joins {s : Specified ι V} (hs : s.Inv) {op : MapOp ι V} {r : Maps ι V × Bool}
    {Q : V → V → Prop} (hstep : op.step s.maps = some r) (hjoin : Joins op.target Q s.maps r)
    (hpairs : op.pairs s.pairs = Both (s.pairs op.target) Q) :
    ∃ r, s.step op = some r ∧ Right op s r ∧ r.1.Inv := by
  refine right_of_target hs hstep hjoin.shared hjoin.others ?_ hjoin.grown
  rw [hjoin.same, hs.same, related_join, hpairs]

theorem right_intersect {s : Specified ι V} (hs : s.Inv) (i j : ι) :
    ∃ r, s.step (.intersect i j) = some r ∧ Right (.intersect i j) s r ∧ r.1.Inv := by
  obtain ⟨hshared, hsame⟩ := SharedMap.intersect_spec (hs.shared i) (hs.shared j)
  have hboth : ((s.maps i).intersect (s.maps j)).Same =
      fun x y => Related (s.pairs i) x y ∧ Related (s.pairs j) x y := by
    rw [hsame, hs.same, hs.same]
  -- what is in one class of both maps generates nothing more
  have hclasses : Classes fun x y => Related (s.pairs i) x y ∧ Related (s.pairs j) x y := by
    rw [← hboth]
    exact hshared.classes
  refine right_of_target hs (r := _) rfl (fun k => ?_)
    (fun k hk => Function.update_of_ne hk _ _) ?_ ?_
  · by_cases hk : k = i
    · subst hk
      simpa using hshared
    · simpa [hk] using hs.shared k
  · simp only [MapOp.target, Function.update_self, MapOp.pairs]
    rw [hboth, related_eq_self hclasses]
  · simp only [MapOp.target, Function.update_self, hsame]
    exact iff_of_false Bool.false_ne_true fun ⟨x, y, hnew, hold⟩ => hold hnew.1

/-- An operation that fits is right. -/
theorem step_fits (op : MapOp ι V) (s : Specified ι V) (hs : s.Inv) (hfit : op.Fits s.maps) :
    ∃ r, s.step op = some r ∧ Right op s r ∧ r.1.Inv := by
  cases op with
  | add i a b =>
      obtain ⟨r, hr, hjoin⟩ := addPair_joins hs.shared i a b
      exact right_of_joins hs hr hjoin rfl
  | addSet i a S =>
      obtain ⟨r, hr, hjoin⟩ := addSet_joins hs.shared i a S
      exact right_of_joins hs hr hjoin rfl
  | addClass i a j b =>
      obtain ⟨r, hr, hjoin⟩ := addClass_joins hs.shared hfit
      refine right_of_joins hs hr hjoin ?_
      rw [hs.same]
      rfl
  | addMap i j =>
      obtain ⟨r, hr, hjoin⟩ := addMap_joins hs.shared i j
      refine right_of_joins hs hr hjoin ?_
      rw [hs.same]
      rfl
  | intersect i j => exact right_intersect hs i j

/-- An operation that does not fit does not come to an end. -/
theorem fits_of_step (op : MapOp ι V) (s : Specified ι V) (r : Specified ι V × Bool) (hs : s.Inv)
    (hstep : s.step op = some r) : op.Fits s.maps := by
  cases op with
  | addClass i a j b =>
      rintro ⟨rfl, ha, hb, hnot⟩
      obtain ⟨A, ha⟩ := Option.ne_none_iff_exists'.1 ha
      obtain ⟨c, hb⟩ := Option.ne_none_iff_exists'.1 hb
      have hne : A ≠ c := by
        rintro rfl
        exact hnot ((hs.shared i).same_iff.2 ⟨A, ha, hb⟩)
      have hnone := addClass_fails hs.shared ha hb hne
      simp [step, MapOp.step, hnone] at hstep
  | _ => trivial

end Specified

open FittingRuns in
/-- **The equality maps hold the generated equivalences.** A run of the operations on empty maps comes
to an end with every map refining its pairs after each operation, and with each addition reporting
whether the relation of its map has grown, exactly when no operation adds to a value of a class another
class of the same map. -/
theorem equalityMap_right_iff (ops : List (MapOp ι V)) :
    RightRun (fun op s => Specified.step op s) Prod.fst Specified.Right ops
        (Specified.start : Specified ι V) ↔
      FitRun (fun op s => Specified.step op s) Prod.fst (fun op s => op.Fits s.maps) ops
        (Specified.start : Specified ι V) :=
  rightRun_iff (fun op s hs hfit => Specified.step_fits op s hs hfit)
    (fun op s r hs hstep _ => Specified.fits_of_step op s r hs hstep) Specified.inv_start ops

open FittingRuns in
/-- The class of `1` is added to the value `0`, which has a class of its own. -/
theorem equalityMap_class_destroyed :
    ¬ RightRun (fun op s => Specified.step op s) Prod.fst Specified.Right
      [MapOp.add () 0 0, .add () 1 1, .addClass () 0 () 1] (Specified.start : Specified Unit ℕ) := by
  rw [RightRun]
  rintro ⟨r₁, h₁, -, r₂, h₂, -, r₃, h₃, -⟩
  obtain rfl := Option.some.inj h₁
  obtain rfl := Option.some.inj h₂
  have hnone : (none : Option (Specified Unit ℕ × Bool)) = some r₃ := h₃
  exact Option.some_ne_none r₃ hnone.symm

end Cape.ValueRelations
