import Mathlib.Data.List.Lattice
import Mathlib.Data.List.Sort
import Mathlib.Tactic

/-!
# Equality maps and maps of reads

`EqualityMap`: classes of equal values. The source has a map from a value to its class, here the map
is the list of its classes, of which no two share a value. `ReadsMap`: what a load from a pointer
gives.

`Same` is the view of an equality map that the rest needs: adding an equality joins two classes, and
it is reported exactly where they were two.
-/

set_option autoImplicit false

namespace Cape.ValueRelations

variable {V : Type} [LinearOrder V]

scoped instance lawfulBEqOfOrder : LawfulBEq V := inferInstance

/-- `std::set::insert` -/
def insertValue (a : V) (s : List V) : List V := if a ∈ s then s else s.orderedInsert (· ≤ ·) a

@[simp] theorem mem_insertValue {a x : V} {s : List V} : x ∈ insertValue a s ↔ x = a ∨ x ∈ s := by
  rw [insertValue]
  split
  · next h => exact ⟨Or.inr, fun hx => hx.elim (fun heq => heq ▸ h) id⟩
  · rw [List.mem_orderedInsert]

/-- The values of one class inserted into another. -/
def insertValues (s t : List V) : List V := t.foldl (fun s val => insertValue val s) s

@[simp] theorem mem_insertValues {x : V} {s t : List V} :
    x ∈ insertValues s t ↔ x ∈ s ∨ x ∈ t := by
  induction t generalizing s with
  | nil => simp [insertValues]
  | cons y t ih =>
      rw [insertValues, List.foldl_cons, ← insertValues, ih, mem_insertValue, List.mem_cons]
      tauto

omit [LinearOrder V] in
structure EqualityMap (V : Type) where
  classes : List (List V)
  disjoint : classes.Pairwise List.Disjoint
  deriving DecidableEq

namespace EqualityMap

/-- No equalities. -/
def empty : EqualityMap V := ⟨[], List.Pairwise.nil⟩

/-- The class of a value. -/
def get (m : EqualityMap V) (a : V) : Option (List V) := m.classes.find? (a ∈ ·)

/-- The two values are in one class. -/
def Same (m : EqualityMap V) (a b : V) : Prop := ∃ C ∈ m.classes, a ∈ C ∧ b ∈ C

omit [LinearOrder V] in
theorem eq_of_mem {m : EqualityMap V} {C D : List V} {x : V} (hC : C ∈ m.classes)
    (hD : D ∈ m.classes) (hxC : x ∈ C) (hxD : x ∈ D) : C = D := by
  by_contra hne
  have : Std.Symm (List.Disjoint (α := V)) := ⟨fun _ _ h => h.symm⟩
  exact m.disjoint.forall hC hD hne hxC hxD

/-- A class takes the place of the classes of `a` and of `b`, from which its values are. -/
def withClass (m : EqualityMap V) (a b : V) (C : List V)
    (hC : ∀ x ∈ C, x = a ∨ x = b ∨ m.Same a x ∨ m.Same b x) : EqualityMap V where
  classes := C :: m.classes.filter fun D => a ∉ D ∧ b ∉ D
  disjoint := by
    apply List.pairwise_cons.2
    refine ⟨fun D hD x hx hxD => ?_, m.disjoint.filter _⟩
    simp only [List.mem_filter, decide_eq_true_eq] at hD
    obtain ⟨hD, ha, hb⟩ := hD
    rcases hC x hx with rfl | rfl | ⟨E, hE, haE, hxE⟩ | ⟨E, hE, hbE, hxE⟩
    · exact ha hxD
    · exact hb hxD
    · exact ha (eq_of_mem hD hE hxD hxE ▸ haE)
    · exact hb (eq_of_mem hD hE hxD hxE ▸ hbE)

theorem get_eq_some {m : EqualityMap V} {a : V} {C : List V} :
    m.get a = some C ↔ C ∈ m.classes ∧ a ∈ C := by
  constructor
  · intro h
    exact ⟨List.mem_of_find?_eq_some h, by simpa using List.find?_some h⟩
  · rintro ⟨hC, ha⟩
    cases hget : m.get a with
    | none =>
        have hnone := List.find?_eq_none.1 hget C hC
        simp [ha] at hnone
    | some D =>
        have haD : a ∈ D := by simpa using List.find?_some hget
        rw [eq_of_mem (List.mem_of_find?_eq_some hget) hC haD ha]

theorem get_eq_none {m : EqualityMap V} {a : V} : m.get a = none ↔ ∀ x, ¬ m.Same a x := by
  constructor
  · rintro h x ⟨C, hC, ha, _⟩
    rw [get_eq_some.2 ⟨hC, ha⟩] at h
    exact Option.some_ne_none C h
  · intro h
    cases hget : m.get a with
    | none => rfl
    | some C =>
        obtain ⟨hC, ha⟩ := get_eq_some.1 hget
        exact absurd ⟨C, hC, ha, ha⟩ (h a)

theorem same_of_get {m : EqualityMap V} {a x : V} {C : List V} (h : m.get a = some C)
    (hx : x ∈ C) : m.Same a x :=
  ⟨C, (get_eq_some.1 h).1, (get_eq_some.1 h).2, hx⟩

/-- The values of the class of a value, none where it has no class. -/
theorem mem_class {m : EqualityMap V} {a x : V} : x ∈ (m.get a).getD [] ↔ m.Same a x := by
  constructor
  · intro hx
    cases hget : m.get a with
    | none =>
        rw [hget] at hx
        exact absurd hx List.not_mem_nil
    | some C =>
        rw [hget] at hx
        exact same_of_get hget hx
  · rintro ⟨C, hC, ha, hx⟩
    rw [get_eq_some.2 ⟨hC, ha⟩]
    exact hx

theorem from_new (m : EqualityMap V) (a b : V) :
    ∀ x ∈ insertValue b [a], x = a ∨ x = b ∨ m.Same a x ∨ m.Same b x := by
  intro x hx
  rcases mem_insertValue.1 hx with h | h
  · exact Or.inr (Or.inl h)
  · exact Or.inl (List.mem_singleton.1 h)

theorem from_right {m : EqualityMap V} {b : V} {B : List V} (a : V) (hB : m.get b = some B) :
    ∀ x ∈ insertValue a B, x = a ∨ x = b ∨ m.Same a x ∨ m.Same b x := by
  intro x hx
  rcases mem_insertValue.1 hx with h | h
  · exact Or.inl h
  · exact Or.inr (Or.inr (Or.inr (same_of_get hB h)))

theorem from_left {m : EqualityMap V} {a : V} {A : List V} (b : V) (hA : m.get a = some A) :
    ∀ x ∈ insertValue b A, x = a ∨ x = b ∨ m.Same a x ∨ m.Same b x := by
  intro x hx
  rcases mem_insertValue.1 hx with h | h
  · exact Or.inr (Or.inl h)
  · exact Or.inr (Or.inr (Or.inl (same_of_get hA h)))

theorem from_both {m : EqualityMap V} {a b : V} {A B : List V} (hA : m.get a = some A)
    (hB : m.get b = some B) :
    ∀ x ∈ insertValues A B, x = a ∨ x = b ∨ m.Same a x ∨ m.Same b x := by
  intro x hx
  rcases mem_insertValues.1 hx with h | h
  · exact Or.inr (Or.inr (Or.inl (same_of_get hA h)))
  · exact Or.inr (Or.inr (Or.inr (same_of_get hB h)))

/-- `add`, with whether something was added. -/
def add (m : EqualityMap V) (a b : V) : EqualityMap V × Bool :=
  match hA : m.get a, hB : m.get b with
  | none, none => (m.withClass a b (insertValue b [a]) (m.from_new a b), true)
  | none, some B => (m.withClass a b (insertValue a B) (from_right a hB), true)
  | some A, none => (m.withClass a b (insertValue b A) (from_left b hA), true)
  | some A, some B =>
      if A = B then (m, false)
      else (m.withClass a b (insertValues A B) (from_both hA hB), true)

/-- The values of the map with the values of their classes, in the order of the iteration. -/
def pairs (m : EqualityMap V) : List (V × V) :=
  (m.classes.flatten.insertionSort (· ≤ ·)).flatMap fun a =>
    ((m.get a).getD []).map fun b => (a, b)

@[simp] theorem mem_pairs {m : EqualityMap V} {a b : V} : (a, b) ∈ m.pairs ↔ m.Same a b := by
  simp only [pairs, List.mem_flatMap, List.mem_insertionSort, List.mem_flatten, List.mem_map,
    Prod.mk.injEq]
  constructor
  · rintro ⟨_, ⟨C, hC, ha⟩, _, hb, rfl, rfl⟩
    rw [get_eq_some.2 ⟨hC, ha⟩] at hb
    exact ⟨C, hC, ha, hb⟩
  · rintro ⟨C, hC, ha, hb⟩
    exact ⟨a, ⟨C, hC, ha⟩, b, by rw [get_eq_some.2 ⟨hC, ha⟩]; exact hb, rfl, rfl⟩

/-- What `add` does: the values are in one class already, or one class takes the place of theirs. -/
theorem add_cases (m : EqualityMap V) (a b : V) :
    (m.Same a b ∧ m.add a b = (m, false)) ∨
    (¬ m.Same a b ∧ ∃ C hC, m.add a b = (m.withClass a b C hC, true) ∧ a ∈ C ∧ b ∈ C ∧
      (∀ x, m.Same a x → x ∈ C) ∧ ∀ x, m.Same b x → x ∈ C) := by
  have hclass : ∀ {c : V} {C : List V}, m.get c = some C → ∀ x, m.Same c x → x ∈ C := by
    rintro c C hget x ⟨D, hD, hc, hx⟩
    rw [get_eq_some.2 ⟨hD, hc⟩] at hget
    exact Option.some.inj hget ▸ hx
  have hself : ∀ {c : V} {C : List V}, m.get c = some C → c ∈ C := fun h => (get_eq_some.1 h).2
  -- by whether the two values have a class, as in `add`
  rw [add]
  split
  · next hA hB =>
      refine Or.inr ⟨get_eq_none.1 hA b, _, m.from_new a b, rfl, mem_insertValue.2 (Or.inr
        List.mem_cons_self), mem_insertValue.2 (Or.inl rfl), ?_, ?_⟩
      · exact fun x hx => absurd hx (get_eq_none.1 hA x)
      · exact fun x hx => absurd hx (get_eq_none.1 hB x)
  · next B hA hB =>
      refine Or.inr ⟨get_eq_none.1 hA b, _, from_right a hB, rfl, mem_insertValue.2 (Or.inl rfl),
        mem_insertValue.2 (Or.inr (hself hB)), ?_, ?_⟩
      · exact fun x hx => absurd hx (get_eq_none.1 hA x)
      · exact fun x hx => mem_insertValue.2 (Or.inr (hclass hB x hx))
  · next A hA hB =>
      have hnot : ¬ m.Same a b := fun ⟨C, hC, ha, hb⟩ => get_eq_none.1 hB b ⟨C, hC, hb, hb⟩
      refine Or.inr ⟨hnot, _, from_left b hA, rfl, mem_insertValue.2 (Or.inr (hself hA)),
        mem_insertValue.2 (Or.inl rfl), ?_, ?_⟩
      · exact fun x hx => mem_insertValue.2 (Or.inr (hclass hA x hx))
      · exact fun x hx => absurd hx (get_eq_none.1 hB x)
  · next A B hA hB =>
      split
      · next heq => exact Or.inl ⟨same_of_get hA (heq ▸ hself hB), rfl⟩
      · next hne =>
          have hnot : ¬ m.Same a b := by
            rintro ⟨C, hC, ha, hb⟩
            rw [get_eq_some.2 ⟨hC, ha⟩] at hA
            rw [get_eq_some.2 ⟨hC, hb⟩, hA] at hB
            exact hne (Option.some.inj hB)
          refine Or.inr ⟨hnot, _, from_both hA hB, rfl, mem_insertValues.2 (Or.inl (hself hA)),
            mem_insertValues.2 (Or.inr (hself hB)), ?_, ?_⟩
          · exact fun x hx => mem_insertValues.2 (Or.inl (hclass hA x hx))
          · exact fun x hx => mem_insertValues.2 (Or.inr (hclass hB x hx))

theorem same_withClass {m : EqualityMap V} {a b : V} {C : List V}
    {hC : ∀ x ∈ C, x = a ∨ x = b ∨ m.Same a x ∨ m.Same b x} {x y : V} :
    (m.withClass a b C hC).Same x y ↔
      x ∈ C ∧ y ∈ C ∨ ∃ D ∈ m.classes, a ∉ D ∧ b ∉ D ∧ x ∈ D ∧ y ∈ D := by
  simp only [Same, withClass, List.mem_cons, List.mem_filter, decide_eq_true_eq]
  constructor
  · rintro ⟨D, rfl | ⟨hD, ha, hb⟩, hx, hy⟩
    · exact Or.inl ⟨hx, hy⟩
    · exact Or.inr ⟨D, hD, ha, hb, hx, hy⟩
  · rintro (⟨hx, hy⟩ | ⟨D, hD, ha, hb, hx, hy⟩)
    · exact ⟨C, Or.inl rfl, hx, hy⟩
    · exact ⟨D, Or.inr ⟨hD, ha, hb⟩, hx, hy⟩

theorem same_add_self (m : EqualityMap V) (a b : V) : (m.add a b).1.Same a b := by
  rcases m.add_cases a b with ⟨hsame, hadd⟩ | ⟨_, C, hC, hadd, ha, hb, _, _⟩
  · rw [hadd]
    exact hsame
  · rw [hadd, same_withClass]
    exact Or.inl ⟨ha, hb⟩

theorem Same.add {m : EqualityMap V} {x y : V} (h : m.Same x y) (a b : V) :
    (m.add a b).1.Same x y := by
  rcases m.add_cases a b with ⟨_, hadd⟩ | ⟨_, C, hC, hadd, _, _, hA, hB⟩
  · rw [hadd]
    exact h
  · rw [hadd, same_withClass]
    obtain ⟨D, hD, hx, hy⟩ := h
    by_cases ha : a ∈ D
    · exact Or.inl ⟨hA x ⟨D, hD, ha, hx⟩, hA y ⟨D, hD, ha, hy⟩⟩
    · by_cases hb : b ∈ D
      · exact Or.inl ⟨hB x ⟨D, hD, hb, hx⟩, hB y ⟨D, hD, hb, hy⟩⟩
      · exact Or.inr ⟨D, hD, ha, hb, hx, hy⟩

/-- An equality is reported where the values were not in one class. -/
theorem add_snd (m : EqualityMap V) (a b : V) : (m.add a b).2 = true ↔ ¬ m.Same a b := by
  rcases m.add_cases a b with ⟨hsame, hadd⟩ | ⟨hnot, _, _, hadd, _⟩
  · simp [hadd, hsame]
  · simp [hadd, hnot]

/-- What holds of the classes and of the new equality holds of the classes afterwards. -/
theorem respects_add {α : Type} {f : V → α} {m : EqualityMap V} {a b : V}
    (hm : ∀ x y, m.Same x y → f x = f y) (hab : f a = f b) :
    ∀ x y, (m.add a b).1.Same x y → f x = f y := by
  intro x y hxy
  rcases m.add_cases a b with ⟨_, hadd⟩ | ⟨_, C, hC, hadd, _⟩
  · rw [hadd] at hxy
    exact hm x y hxy
  · rw [hadd, same_withClass] at hxy
    -- all values of the class have the image of `a`
    have hall : ∀ z ∈ C, f z = f a := by
      intro z hz
      rcases hC z hz with rfl | rfl | h | h
      · rfl
      · exact hab.symm
      · exact (hm _ _ h).symm
      · rw [hab, hm _ _ h]
    rcases hxy with ⟨hx, hy⟩ | ⟨D, hD, _, _, hx, hy⟩
    · rw [hall x hx, hall y hy]
    · exact hm x y ⟨D, hD, hx, hy⟩

end EqualityMap

/-- `ReadsMap`: the pairs of a pointer and the value read from it, in the order of the iteration. -/
abbrev ReadsMap (V : Type) := List (V × V)

namespace ReadsMap

def get (m : ReadsMap V) (p : V) : Option V := m.lookup p

/-- The entry, put at its place. -/
def insertEntry (p v : V) : ReadsMap V → ReadsMap V
  | [] => [(p, v)]
  | entry :: m => if p < entry.1 then (p, v) :: entry :: m else entry :: insertEntry p v m

/-- `add`, with whether something was added: the value of a pointer is overwritten. -/
def add (m : ReadsMap V) (p v : V) : ReadsMap V × Bool :=
  match m.get p with
  | none => (m.insertEntry p v, true)
  | some u =>
      if u = v then (m, false)
      else (m.map fun entry => if entry.1 = p then (p, v) else entry, true)

theorem get_cons (entry : V × V) (m : ReadsMap V) (q : V) :
    get (entry :: m) q = if q = entry.1 then some entry.2 else m.get q := by
  obtain ⟨p, v⟩ := entry
  simp only [get, List.lookup_cons]
  by_cases h : q = p
  · simp [h]
  · rw [if_neg h, show (q == p) = false from beq_eq_false_iff_ne.2 h]

theorem get_insertEntry {m : ReadsMap V} {p v q : V} (h : m.get p = none) :
    get (m.insertEntry p v) q = if q = p then some v else m.get q := by
  induction m with
  | nil => rw [insertEntry, get_cons]
  | cons entry m ih =>
      rw [get_cons] at h
      have hne : p ≠ entry.1 := by
        intro heq
        rw [if_pos heq] at h
        exact Option.some_ne_none _ h
      rw [if_neg hne] at h
      simp only [insertEntry]
      split
      · rw [get_cons]
      · rw [get_cons, get_cons, ih h]
        by_cases hq : q = entry.1
        · rw [if_pos hq, if_pos hq, if_neg fun heq => hne (heq.symm.trans hq)]
        · rw [if_neg hq, if_neg hq]

theorem get_overwrite {m : ReadsMap V} {p v q : V} (h : (m.get p).isSome = true) :
    get (m.map fun entry => if entry.1 = p then (p, v) else entry) q =
      if q = p then some v else m.get q := by
  induction m with
  | nil => exact absurd h (by simp [get])
  | cons entry m ih =>
      rw [get_cons] at h
      rw [List.map_cons, get_cons, get_cons]
      by_cases heq : entry.1 = p
      · rw [if_pos heq]
        by_cases hq : q = p
        · rw [if_pos hq, if_pos hq]
        · rw [if_neg hq, if_neg hq, if_neg fun h' => hq (h'.trans heq)]
          -- the rest keeps what it has for other pointers
          clear h ih
          induction m with
          | nil => rfl
          | cons entry' m ih' =>
              rw [List.map_cons, get_cons, get_cons, ih']
              by_cases heq' : entry'.1 = p
              · rw [if_pos heq', if_neg hq, if_neg fun h' => hq (h'.trans heq')]
              · rw [if_neg heq']
      · rw [if_neg fun h' => heq h'.symm] at h
        rw [if_neg heq, ih h]
        by_cases hq : q = entry.1
        · rw [if_pos hq, if_pos hq, if_neg fun h' => heq (hq.symm.trans h')]
        · rw [if_neg hq, if_neg hq]

theorem get_add (m : ReadsMap V) (p v q : V) :
    get (m.add p v).1 q = if q = p then some v else m.get q := by
  rw [add]
  split
  · next h => exact get_insertEntry h
  · next u h =>
      split
      · next heq =>
          split
          · next hq => rw [hq, h, heq]
          · rfl
      · exact get_overwrite (by simp [h])

theorem add_snd (m : ReadsMap V) (p v : V) : (m.add p v).2 = true ↔ m.get p ≠ some v := by
  rw [add]
  split
  · next h => simp [h]
  · next u h =>
      split
      · next heq => simp [h, heq]
      · next hne => simp [h, hne]

end ReadsMap

end Cape.ValueRelations
