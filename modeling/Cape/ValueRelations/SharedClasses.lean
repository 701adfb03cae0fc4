import Cape.Library.GeneratedEquivalence
import Cape.Library.OrderedMap
import Cape.ValueRelations.EqualityMap

/-!
# Classes that are shared

`EqualityMap` as the source has it: a map from a value to the set of its class, where the values of one
class share the set. Merging two classes moves the values of one set into the other and points their
keys to it; the set they leave is referred to by no key then.

`Shared` is what the operations keep: a value is in the set that its key refers to, and the keys of the
values of that set refer to it. With it, `add` joins two classes (`same_add`), as it does in the list
of classes that the analysis of value relations is modelled with (`agrees_additions`).
-/

set_option autoImplicit false

namespace Cape.ValueRelations

open Cape.Library

variable {V : Type} [LinearOrder V]

theorem pairwise_insertValue {s : List V} (hs : s.Pairwise (· < ·)) (a : V) :
    (insertValue a s).Pairwise (· < ·) := by
  rw [insertValue]
  split
  · exact hs
  · next ha =>
      have hle : (s.orderedInsert (· ≤ ·) a).Pairwise (· ≤ ·) :=
        List.Pairwise.orderedInsert a s (hs.imp le_of_lt)
      have hnodup : (s.orderedInsert (· ≤ ·) a).Nodup :=
        (List.perm_orderedInsert (· ≤ ·) a s).nodup_iff.2
          (List.nodup_cons.2 ⟨ha, hs.imp ne_of_lt⟩)
      exact (hle.and hnodup).imp fun h => lt_of_le_of_ne h.1 h.2

theorem length_insertValue_le (a : V) (s : List V) : (insertValue a s).length ≤ s.length + 1 := by
  rw [insertValue]
  split
  · omega
  · rw [List.orderedInsert_length]

omit [LinearOrder V] in
/-- `EqualityMap`: the sets of values made so far, and the map to the set of the class. A class is the
place of its set. -/
structure SharedMap (V : Type) where
  sets : List (List V)
  map : List (V × ℕ)
  deriving DecidableEq

namespace SharedMap

/-- The map with no value. -/
def empty : SharedMap V := ⟨[], []⟩

def find (m : SharedMap V) (a : V) : Option ℕ := OrderedMap.find a m.map

/-- The values of a class. -/
def set (m : SharedMap V) (c : ℕ) : List V := m.sets.getD c []

def get (m : SharedMap V) (a : V) : Option (List V) := (m.find a).map m.set

/-- The set of a new class, the last one. -/
def newClass (m : SharedMap V) (vals : List V) : SharedMap V := { m with sets := m.sets ++ [vals] }

/-- `insert` on the set of a class. -/
def insert (m : SharedMap V) (c : ℕ) (val : V) : SharedMap V :=
  { m with sets := m.sets.modify c (insertValue val) }

/-- `_map[a] = c` -/
def store (m : SharedMap V) (a : V) (c : ℕ) : SharedMap V :=
  { m with map := OrderedMap.store a c m.map }

/-- The loop of a merge: the values of a class go to the class `A`. -/
def absorb (m : SharedMap V) (A : ℕ) (vals : List V) : SharedMap V :=
  vals.foldl (fun m val => (m.insert A val).store val A) m

/-- `add`, with what it returns. -/
def add (m : SharedMap V) (a b : V) : SharedMap V × Bool :=
  match m.find a, m.find b with
  | none, none =>
      let newcls := m.sets.length
      if a = b then ((m.newClass [a]).store a newcls, true)
      else (((m.newClass (insertValue b [a])).store b newcls).store a newcls, true)
  | none, some B => ((m.insert B a).store a B, true)
  | some A, none => ((m.insert A b).store b A, true)
  | some A, some B =>
      if A = B then (m, false)
      else ((m.absorb A (m.set B)).insert A b, true)

/-- The two values are in one class. -/
def Same (m : SharedMap V) (a b : V) : Prop := ∃ s, m.get a = some s ∧ b ∈ s

/-! ## What the parts of an addition change -/

@[simp] theorem find_empty (x : V) : (empty : SharedMap V).find x = none := rfl

@[simp] theorem find_newClass (m : SharedMap V) (vals : List V) (x : V) :
    (m.newClass vals).find x = m.find x := rfl

@[simp] theorem find_insert (m : SharedMap V) (c : ℕ) (val x : V) :
    (m.insert c val).find x = m.find x := rfl

@[simp] theorem find_store (m : SharedMap V) (a : V) (c : ℕ) (x : V) :
    (m.store a c).find x = if x = a then some c else m.find x := OrderedMap.find_store a x c m.map

@[simp] theorem set_store (m : SharedMap V) (a : V) (c d : ℕ) : (m.store a c).set d = m.set d := rfl

omit [LinearOrder V] in
theorem set_newClass (m : SharedMap V) (vals : List V) (d : ℕ) :
    (m.newClass vals).set d = if d = m.sets.length then vals else m.set d := by
  simp only [set, newClass, List.getD_eq_getElem?_getD]
  rcases lt_trichotomy d m.sets.length with h | h | h
  · rw [List.getElem?_append_left h, if_neg (ne_of_lt h)]
  · simp [h]
  · rw [if_neg (ne_of_gt h), List.getElem?_append_right (le_of_lt h),
      List.getElem?_eq_none (by simp; omega), List.getElem?_eq_none (le_of_lt h)]

omit [LinearOrder V] in
theorem set_of_le {m : SharedMap V} {c : ℕ} (h : m.sets.length ≤ c) : m.set c = [] := by
  rw [set, List.getD_eq_getElem?_getD, List.getElem?_eq_none h, Option.getD_none]

omit [LinearOrder V] in
theorem lt_of_mem_set {m : SharedMap V} {c : ℕ} {x : V} (h : x ∈ m.set c) : c < m.sets.length := by
  by_contra hle
  rw [set_of_le (not_lt.1 hle)] at h
  exact List.not_mem_nil h

theorem set_insert_of_lt {m : SharedMap V} {c : ℕ} (hc : c < m.sets.length) (val : V) :
    (m.insert c val).set c = insertValue val (m.set c) := by
  simp [set, insert, List.getD_eq_getElem?_getD, hc]

theorem set_insert_of_ne {m : SharedMap V} {c d : ℕ} (hne : d ≠ c) (val : V) :
    (m.insert c val).set d = m.set d := by
  simp only [set, insert, List.getD_eq_getElem?_getD, List.getElem?_modify]
  simp [hne.symm]

@[simp] theorem length_insert (m : SharedMap V) (c : ℕ) (val : V) :
    (m.insert c val).sets.length = m.sets.length := List.length_modify _ _ _

@[simp] theorem length_store (m : SharedMap V) (a : V) (c : ℕ) :
    (m.store a c).sets.length = m.sets.length := rfl

/-- The loop of a merge: the keys refer to `A`, and its set has their values. -/
theorem absorb_spec {m : SharedMap V} {A : ℕ} (hA : A < m.sets.length) (vals : List V) :
    (m.absorb A vals).sets.length = m.sets.length ∧
    (∀ x, (m.absorb A vals).find x = if x ∈ vals then some A else m.find x) ∧
    (∀ x, x ∈ (m.absorb A vals).set A ↔ x ∈ vals ∨ x ∈ m.set A) ∧
    ∀ d, d ≠ A → (m.absorb A vals).set d = m.set d := by
  induction vals generalizing m with
  | nil => simp [absorb]
  | cons val vals ih =>
      have ih := ih (m := (m.insert A val).store val A) (by simpa using hA)
      rw [show m.absorb A (val :: vals) = ((m.insert A val).store val A).absorb A vals from rfl]
      obtain ⟨hlength, hfind, hset, hother⟩ := ih
      refine ⟨by simpa using hlength, fun x => ?_, fun x => ?_, fun d hd => ?_⟩
      · simp only [hfind, find_store, find_insert, List.mem_cons]
        split
        · next hx => rw [if_pos (Or.inr hx)]
        · next hx => simp [hx]
      · rw [hset, set_store, set_insert_of_lt hA, mem_insertValue, List.mem_cons]
        tauto
      · rw [hother d hd, set_store, set_insert_of_ne hd]

/-! ## What the operations keep -/

/-- The keys of the values of a class refer to its set, and to no other. -/
structure Shared (m : SharedMap V) : Prop where
  own : ∀ {a c}, m.find a = some c → a ∈ m.set c
  only : ∀ {a c x}, m.find a = some c → x ∈ m.set c → m.find x = some c
  keys : OrderedMap.Sorted m.map
  sorted : ∀ c, (m.set c).Pairwise (· < ·)

theorem shared_empty : (empty : SharedMap V).Shared where
  own h := absurd h (by simp)
  only h := absurd h (by simp)
  keys := List.Pairwise.nil
  sorted _ := List.Pairwise.nil

theorem sorted_insert {m : SharedMap V} (h : ∀ c, (m.set c).Pairwise (· < ·)) (c : ℕ) (val : V) :
    ∀ d, ((m.insert c val).set d).Pairwise (· < ·) := by
  intro d
  by_cases hd : d = c
  · subst hd
    by_cases hlt : d < m.sets.length
    · rw [set_insert_of_lt hlt]
      exact pairwise_insertValue (h d) val
    · rw [set_of_le (by simpa using hlt)]
      exact List.Pairwise.nil
  · rw [set_insert_of_ne hd]
    exact h d

theorem sorted_newClass {m : SharedMap V} (h : ∀ c, (m.set c).Pairwise (· < ·)) {vals : List V}
    (hvals : vals.Pairwise (· < ·)) : ∀ d, ((m.newClass vals).set d).Pairwise (· < ·) := by
  intro d
  rw [set_newClass]
  split
  · exact hvals
  · exact h d

theorem sorted_absorb {m : SharedMap V} (h : ∀ c, (m.set c).Pairwise (· < ·)) (A : ℕ)
    (vals : List V) : ∀ d, ((m.absorb A vals).set d).Pairwise (· < ·) := by
  induction vals generalizing m with
  | nil => exact h
  | cons val vals ih => exact ih (sorted_insert h A val)

theorem keys_absorb {m : SharedMap V} (h : OrderedMap.Sorted m.map) (A : ℕ) (vals : List V) :
    OrderedMap.Sorted (m.absorb A vals).map := by
  induction vals generalizing m with
  | nil => exact h
  | cons val vals ih => exact ih (h.store val A)

theorem get_eq_some {m : SharedMap V} {a : V} {s : List V} :
    m.get a = some s ↔ ∃ c, m.find a = some c ∧ m.set c = s := Option.map_eq_some_iff

theorem same_iff_mem {m : SharedMap V} {a x : V} :
    m.Same a x ↔ ∃ c, m.find a = some c ∧ x ∈ m.set c := by
  constructor
  · rintro ⟨s, hs, hx⟩
    obtain ⟨c, hc, rfl⟩ := get_eq_some.1 hs
    exact ⟨c, hc, hx⟩
  · rintro ⟨c, hc, hx⟩
    exact ⟨m.set c, get_eq_some.2 ⟨c, hc, rfl⟩, hx⟩

theorem same_of_find {m : SharedMap V} {a x : V} {c : ℕ} (h : m.find a = some c) :
    m.Same a x ↔ x ∈ m.set c := by
  simp [same_iff_mem, h]

theorem not_same_of_find {m : SharedMap V} {a : V} (h : m.find a = none) (x : V) :
    ¬ m.Same a x := by
  simp [same_iff_mem, h]

/-- Two values are in one class where their keys refer to one set. -/
theorem Shared.same_iff {m : SharedMap V} (hm : m.Shared) {x y : V} :
    m.Same x y ↔ ∃ c, m.find x = some c ∧ m.find y = some c := by
  rw [same_iff_mem]
  constructor
  · rintro ⟨c, hx, hy⟩
    exact ⟨c, hx, hm.only hx hy⟩
  · rintro ⟨c, hx, hy⟩
    exact ⟨c, hx, hm.own hy⟩

theorem Shared.classes {m : SharedMap V} (hm : m.Shared) :
    GeneratedEquivalence.Classes m.Same where
  symm h := by
    rw [hm.same_iff] at h ⊢
    obtain ⟨c, hx, hy⟩ := h
    exact ⟨c, hy, hx⟩
  trans h h' := by
    rw [hm.same_iff] at h h' ⊢
    obtain ⟨c, hx, hy⟩ := h
    obtain ⟨d, hy', hz⟩ := h'
    obtain rfl := Option.some.inj (hy.symm.trans hy')
    exact ⟨c, hx, hz⟩

/-- One class `c` takes the place of the classes of `a` and `b`; the rest stays. -/
structure Joined (m : SharedMap V) (a b : V) (c : ℕ) (m' : SharedMap V) : Prop where
  near : ∀ {x}, GeneratedEquivalence.Near m.Same a b x → m'.find x = some c
  far : ∀ {x}, ¬ GeneratedEquivalence.Near m.Same a b x → m'.find x = m.find x ∧ m.find x ≠ some c
  values : ∀ x, x ∈ m'.set c ↔ GeneratedEquivalence.Near m.Same a b x
  others : ∀ d, d ≠ c → m'.set d = m.set d
  keys : OrderedMap.Sorted m'.map
  sorted : ∀ d, (m'.set d).Pairwise (· < ·)

theorem Joined.shared {m m' : SharedMap V} {a b : V} {c : ℕ} (hm : m.Shared)
    (h : Joined m a b c m') : m'.Shared where
  own := by
    intro x d hx
    by_cases hnear : GeneratedEquivalence.Near m.Same a b x
    · obtain rfl := Option.some.inj ((h.near hnear).symm.trans hx)
      exact (h.values x).2 hnear
    · obtain ⟨heq, hne⟩ := h.far hnear
      rw [heq] at hx
      rw [h.others d fun hdc => hne (hdc ▸ hx)]
      exact hm.own hx
  only := by
    intro x d y hx hy
    by_cases hnear : GeneratedEquivalence.Near m.Same a b x
    · obtain rfl := Option.some.inj ((h.near hnear).symm.trans hx)
      exact h.near ((h.values y).1 hy)
    · obtain ⟨heq, hne⟩ := h.far hnear
      rw [heq] at hx
      rw [h.others d fun hdc => hne (hdc ▸ hx)] at hy
      -- the class of `x` is far as a whole
      have hfar : ¬ GeneratedEquivalence.Near m.Same a b y := fun hy' =>
        hnear (GeneratedEquivalence.near_of_class hm.classes ((same_of_find hx).2 hy) hy')
      rw [(h.far hfar).1]
      exact hm.only hx hy
  keys := h.keys
  sorted := h.sorted

theorem Joined.same {m m' : SharedMap V} {a b : V} {c : ℕ} (hm : m.Shared)
    (h : Joined m a b c m') {x y : V} :
    m'.Same x y ↔ m.Same x y ∨
      GeneratedEquivalence.Near m.Same a b x ∧ GeneratedEquivalence.Near m.Same a b y := by
  have hm' := h.shared hm
  have hback : ∀ {x y}, m.Same x y → GeneratedEquivalence.Near m.Same a b y →
      GeneratedEquivalence.Near m.Same a b x := GeneratedEquivalence.near_of_class hm.classes
  by_cases hx : GeneratedEquivalence.Near m.Same a b x
  · -- the values near the two have the key of the joined class, and no others
    by_cases hy : GeneratedEquivalence.Near m.Same a b y
    · exact iff_of_true (hm'.same_iff.2 ⟨c, h.near hx, h.near hy⟩) (Or.inr ⟨hx, hy⟩)
    · refine iff_of_false ?_ ?_
      · intro hsame
        obtain ⟨d, hx', hy'⟩ := hm'.same_iff.1 hsame
        obtain rfl := Option.some.inj ((h.near hx).symm.trans hx')
        rw [(h.far hy).1] at hy'
        exact (h.far hy).2 hy'
      · rintro (hsame | ⟨-, hy'⟩)
        · exact hy (hback (hm.classes.symm hsame) hx)
        · exact hy hy'
  · rw [same_iff_mem, same_iff_mem, (h.far hx).1, or_iff_left fun h' => hx h'.1]
    refine exists_congr fun d => and_congr_right fun hd => ?_
    rw [h.others d fun hdc => (h.far hx).2 (hdc ▸ hd)]

/-! ## What an addition does -/

theorem add_of_same {m : SharedMap V} (hm : m.Shared) {a b : V} (h : m.Same a b) :
    m.add a b = (m, false) := by
  obtain ⟨c, ha, hb⟩ := hm.same_iff.1 h
  simp [add, ha, hb]

theorem joined_new {m : SharedMap V} (hm : m.Shared) {a b : V} (ha : m.find a = none)
    (hb : m.find b = none) {vals : List V} (hvals : ∀ x, x ∈ vals ↔ x = a ∨ x = b)
    (hsorted : vals.Pairwise (· < ·)) {m' : SharedMap V}
    (hmap : ∀ x, m'.find x = if x = a ∨ x = b then some m.sets.length else m.find x)
    (hset : ∀ d, m'.set d = (m.newClass vals).set d) (hkeys : OrderedMap.Sorted m'.map) :
    Joined m a b m.sets.length m' := by
  have hnear : ∀ x, GeneratedEquivalence.Near m.Same a b x ↔ x = a ∨ x = b := by
    simp [GeneratedEquivalence.Near, not_same_of_find ha, not_same_of_find hb]
  refine ⟨fun hx => ?_, fun hx => ⟨?_, fun heq => ?_⟩, fun x => ?_, fun d hd => ?_, hkeys,
    fun d => ?_⟩
  · rw [hmap, if_pos ((hnear _).1 hx)]
  · rw [hmap, if_neg fun h => hx ((hnear _).2 h)]
  · exact lt_irrefl _ (lt_of_mem_set (hm.own heq))
  · rw [hset, set_newClass, if_pos rfl, hvals, hnear]
  · rw [hset, set_newClass, if_neg hd]
  · rw [hset]
    exact sorted_newClass hm.sorted hsorted d

/-- A value without a class comes to the class of the other. -/
theorem joined_insert {m : SharedMap V} (hm : m.Shared) {a b v : V} {c : ℕ}
    (hv : m.find v = none)
    (hnear : ∀ x, GeneratedEquivalence.Near m.Same a b x ↔ x = v ∨ m.find x = some c)
    (hc : c < m.sets.length) (hset : ∀ x, x ∈ m.set c ↔ m.find x = some c) :
    Joined m a b c ((m.insert c v).store v c) := by
  refine ⟨fun {x} hx => ?_, fun {x} hx => ?_, fun x => ?_, fun d hd => ?_, hm.keys.store v c,
    fun d => sorted_insert hm.sorted c v d⟩
  · rw [find_store, find_insert]
    rcases (hnear x).1 hx with rfl | hx
    · exact if_pos rfl
    · rw [if_neg, hx]
      rintro rfl
      exact absurd (hv.symm.trans hx) (by simp)
  · rw [hnear, not_or] at hx
    rw [find_store, find_insert, if_neg hx.1]
    exact ⟨rfl, hx.2⟩
  · rw [set_store, set_insert_of_lt hc, mem_insertValue, hset, hnear]
  · rw [set_store, set_insert_of_ne hd]

theorem Shared.mem_set_iff {m : SharedMap V} (hm : m.Shared) {a : V} {c : ℕ}
    (ha : m.find a = some c) (x : V) : x ∈ m.set c ↔ m.find x = some c :=
  ⟨hm.only ha, hm.own⟩

/-- What `add` does where the values are not in one class. -/
theorem joined_add {m : SharedMap V} (hm : m.Shared) {a b : V} (h : ¬ m.Same a b) :
    (m.add a b).2 = true ∧ ∃ c, Joined m a b c (m.add a b).1 := by
  rw [add]
  -- the cases of the source: which of the two have a class
  cases ha : m.find a with
  | none =>
      cases hb : m.find b with
      | none =>
          dsimp only
          split
          · next heq =>
              subst heq
              refine ⟨rfl, m.sets.length, joined_new hm ha hb (show ∀ x, x ∈ [a] ↔ x = a ∨ x = a by simp)
                (List.pairwise_singleton _ _) (fun x => ?_) (fun _ => rfl) (hm.keys.store _ _)⟩
              simp
          · refine ⟨rfl, m.sets.length, joined_new hm ha hb
              (show ∀ x, x ∈ insertValue b [a] ↔ x = a ∨ x = b from fun x => ?_) (pairwise_insertValue (List.pairwise_singleton _ _) b) (fun x => ?_)
              (fun _ => rfl) ((hm.keys.store _ _).store _ _)⟩
            · rw [mem_insertValue, List.mem_singleton, or_comm]
            · simp only [find_store, find_newClass]
              split
              · next hx => simp [hx]
              · next hx => simp [hx]
      | some B =>
          refine ⟨rfl, B, joined_insert hm ha (fun x => ?_) (lt_of_mem_set (hm.own hb))
            (hm.mem_set_iff hb)⟩
          rw [GeneratedEquivalence.Near, same_of_find hb, hm.mem_set_iff hb]
          constructor
          · rintro (rfl | rfl | hx | hx)
            · exact Or.inl rfl
            · exact Or.inr hb
            · exact absurd hx (not_same_of_find ha x)
            · exact Or.inr hx
          · rintro (rfl | hx)
            · exact Or.inl rfl
            · exact Or.inr (Or.inr (Or.inr hx))
  | some A =>
      cases hb : m.find b with
      | none =>
          refine ⟨rfl, A, joined_insert hm hb (fun x => ?_) (lt_of_mem_set (hm.own ha))
            (hm.mem_set_iff ha)⟩
          rw [GeneratedEquivalence.Near, same_of_find ha, hm.mem_set_iff ha]
          constructor
          · rintro (rfl | rfl | hx | hx)
            · exact Or.inr ha
            · exact Or.inl rfl
            · exact Or.inr hx
            · exact absurd hx (not_same_of_find hb x)
          · rintro (rfl | hx)
            · exact Or.inr (Or.inl rfl)
            · exact Or.inr (Or.inr (Or.inl hx))
      | some B =>
          have hne : A ≠ B := by
            rintro rfl
            exact h (hm.same_iff.2 ⟨A, ha, hb⟩)
          have hA : A < m.sets.length := lt_of_mem_set (hm.own ha)
          obtain ⟨hlength, hfind, hset, hother⟩ := absorb_spec hA (m.set B)
          have hnear : ∀ x, GeneratedEquivalence.Near m.Same a b x ↔ x ∈ m.set B ∨ x ∈ m.set A := by
            intro x
            rw [GeneratedEquivalence.Near, same_of_find ha, same_of_find hb]
            constructor
            · rintro (rfl | rfl | hx | hx)
              · exact Or.inr (hm.own ha)
              · exact Or.inl (hm.own hb)
              · exact Or.inr hx
              · exact Or.inl hx
            · rintro (hx | hx)
              · exact Or.inr (Or.inr (Or.inr hx))
              · exact Or.inr (Or.inr (Or.inl hx))
          dsimp only
          rw [if_neg hne]
          refine ⟨rfl, A, fun {x} hx => ?_, fun {x} hx => ?_, fun x => ?_, fun d hd => ?_,
            keys_absorb hm.keys A _, sorted_insert (sorted_absorb hm.sorted A _) A b⟩
          · rw [find_insert, hfind]
            rcases (hnear x).1 hx with hx | hx
            · exact if_pos hx
            · rw [(hm.mem_set_iff ha x).1 hx]
              exact ite_self _
          · rw [hnear, not_or] at hx
            rw [find_insert, hfind, if_neg hx.1]
            exact ⟨rfl, fun heq => hx.2 (hm.own heq)⟩
          · rw [set_insert_of_lt (by rw [hlength]; exact hA), mem_insertValue, hset, hnear]
            refine or_iff_right_of_imp ?_
            rintro rfl
            exact Or.inl (hm.own hb)
          · rw [set_insert_of_ne hd, hother d hd]

theorem shared_add {m : SharedMap V} (hm : m.Shared) (a b : V) : (m.add a b).1.Shared := by
  by_cases h : m.Same a b
  · rw [add_of_same hm h]
    exact hm
  · obtain ⟨c, hjoined⟩ := (joined_add hm h).2
    exact hjoined.shared hm

/-- **`add`** generates the equivalence with the new pair. -/
theorem same_add {m : SharedMap V} (hm : m.Shared) (a b : V) :
    (m.add a b).1.Same = GeneratedEquivalence.Related
      (GeneratedEquivalence.Both m.Same fun u v => u = a ∧ v = b) := by
  funext x y
  rw [GeneratedEquivalence.related_pair hm.classes a b]
  by_cases h : m.Same a b
  · rw [add_of_same hm h]
    refine propext (or_iff_left_of_imp ?_).symm
    exact fun ⟨hx, hy⟩ => GeneratedEquivalence.of_near hm.classes h hx hy
  · obtain ⟨c, hjoined⟩ := (joined_add hm h).2
    exact propext (hjoined.same hm)

/-- An addition is reported where the values were not in one class. -/
theorem add_snd {m : SharedMap V} (hm : m.Shared) (a b : V) :
    (m.add a b).2 = true ↔ ¬ m.Same a b := by
  by_cases h : m.Same a b
  · simp [add_of_same hm h, h]
  · simp [(joined_add hm h).1, h]

/-! ## Refinement of the list of classes -/

omit [LinearOrder V] in
theorem classes_equalityMap (e : EqualityMap V) : GeneratedEquivalence.Classes e.Same where
  symm := fun ⟨C, hC, hx, hy⟩ => ⟨C, hC, hy, hx⟩
  trans := by
    rintro x y z ⟨C, hC, hx, hy⟩ ⟨D, hD, hy', hz⟩
    obtain rfl := EqualityMap.eq_of_mem hC hD hy hy'
    exact ⟨C, hC, hx, hz⟩

theorem same_add_equalityMap (e : EqualityMap V) (a b : V) {x y : V} :
    (e.add a b).1.Same x y ↔ e.Same x y ∨
      GeneratedEquivalence.Near e.Same a b x ∧ GeneratedEquivalence.Near e.Same a b y := by
  have hE := classes_equalityMap e
  rcases e.add_cases a b with ⟨hsame, hadd⟩ | ⟨-, C, hC, hadd, ha, hb, hA, hB⟩
  · rw [hadd]
    refine (or_iff_left_of_imp ?_).symm
    exact fun ⟨hx, hy⟩ => GeneratedEquivalence.of_near hE hsame hx hy
  · -- the new class has the values near the two
    have hmem : ∀ z, GeneratedEquivalence.Near e.Same a b z → z ∈ C := by
      rintro z (rfl | rfl | hz | hz)
      · exact ha
      · exact hb
      · exact hA z hz
      · exact hB z hz
    constructor
    · intro h
      rw [hadd, EqualityMap.same_withClass] at h
      rcases h with ⟨hx, hy⟩ | ⟨D, hD, -, -, hx, hy⟩
      · exact Or.inr ⟨hC x hx, hC y hy⟩
      · exact Or.inl ⟨D, hD, hx, hy⟩
    · rintro (h | ⟨hx, hy⟩)
      · exact EqualityMap.Same.add h a b
      · rw [hadd, EqualityMap.same_withClass]
        exact Or.inl ⟨hmem x hx, hmem y hy⟩

/-- The map has the classes of the list of classes. -/
def Agrees (m : SharedMap V) (e : EqualityMap V) : Prop := ∀ x y, m.Same x y ↔ e.Same x y

theorem agrees_empty : Agrees (empty : SharedMap V) EqualityMap.empty := by
  intro x y
  refine iff_of_false (not_same_of_find rfl y) ?_
  rintro ⟨C, hC, -⟩
  exact List.not_mem_nil hC

/-- **Refinement.** The map with shared classes does what the list of classes does. -/
theorem agrees_add {m : SharedMap V} {e : EqualityMap V} (hm : m.Shared) (h : Agrees m e)
    (a b : V) : Agrees (m.add a b).1 (e.add a b).1 ∧ ((m.add a b).2 = (e.add a b).2) := by
  have heq : m.Same = e.Same := by
    funext x y
    exact propext (h x y)
  constructor
  · intro x y
    rw [same_add hm a b, GeneratedEquivalence.related_pair hm.classes a b, heq,
      same_add_equalityMap]
  · rw [Bool.eq_iff_iff, add_snd hm, EqualityMap.add_snd, heq]

/-- The same for any additions to empty maps. -/
theorem agrees_additions (pairs : List (V × V)) :
    Agrees (pairs.foldl (fun m pair => (m.add pair.1 pair.2).1) empty)
      (pairs.foldl (fun e pair => (e.add pair.1 pair.2).1) EqualityMap.empty) := by
  have hrun : ∀ (pairs : List (V × V)) (m : SharedMap V) (e : EqualityMap V), m.Shared →
      Agrees m e → Agrees (pairs.foldl (fun m pair => (m.add pair.1 pair.2).1) m)
        (pairs.foldl (fun e pair => (e.add pair.1 pair.2).1) e) := by
    intro pairs
    induction pairs with
    | nil => exact fun _ _ _ h => h
    | cons pair pairs ih =>
        exact fun m e hm h => ih _ _ (shared_add hm pair.1 pair.2) (agrees_add hm h pair.1 pair.2).1
  exact hrun pairs empty EqualityMap.empty shared_empty agrees_empty

end SharedMap

end Cape.ValueRelations
