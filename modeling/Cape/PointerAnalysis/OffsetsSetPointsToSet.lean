import Cape.ADT.Bitvector
import Cape.PointerAnalysis.PointsToSet
import Mathlib.Data.List.AList

/-!
# Points-to sets by targets

`OffsetsSetPointsToSet` keeps for every target the vector of its offsets. An entry stays when its last
offset is removed, and `isSingleton` counts the entries.
-/

set_option autoImplicit false

namespace Cape.PointerAnalysis

universe u

variable {N : Type u}

/-- `OffsetsSetPointsToSet`. -/
structure OffsetsSetPointsToSet (N : Type u) where
  pointers : AList fun _ : PSNode N => SparseBitvector

namespace OffsetsSetPointsToSet

def empty : OffsetsSetPointsToSet N := ⟨∅⟩

variable [DecidableEq N]

/-- The offsets of a target are replaced. -/
def assign (S : OffsetsSetPointsToSet N) (t : PSNode N) (v : SparseBitvector) :
    OffsetsSetPointsToSet N :=
  ⟨S.pointers.insert t v⟩

def addWithUnknownOffset (t : PSNode N) (S : OffsetsSetPointsToSet N) :
    OffsetsSetPointsToSet N × Bool :=
  match S.pointers.lookup t with
  | some v =>
      -- only the unknown offset is kept
      if v.get Offset.unknown.toNat then (S, false)
      else (S.assign t (SparseBitvector.empty.set Offset.unknown.toNat).1, true)
  | none =>
      let r := SparseBitvector.empty.set Offset.unknown.toNat
      (S.assign t r.1, !r.2)

def add (p : Pointer N) (S : OffsetsSetPointsToSet N) : OffsetsSetPointsToSet N × Bool :=
  if p.offset.isUnknown then addWithUnknownOffset p.target S
  else
    match S.pointers.lookup p.target with
    | none => (S.assign p.target (SparseBitvector.empty.set p.offset.toNat).1, true)
    | some v =>
        if v.get Offset.unknown.toNat then (S, false)
        else
          let r := v.set p.offset.toNat
          (S.assign p.target r.1, !r.2)

/-- One entry of the other set. -/
def unionEntry (S : OffsetsSetPointsToSet N) (t : PSNode N) (v : SparseBitvector) :
    OffsetsSetPointsToSet N × Bool :=
  let r := ((S.pointers.lookup t).getD .empty).union v
  (S.assign t r.1, r.2)

/-- `add` of a set. -/
def union (rhs S : OffsetsSetPointsToSet N) : OffsetsSetPointsToSet N × Bool :=
  rhs.pointers.entries.foldl (fun r e =>
    let r' := r.1.unionEntry e.1 e.2
    (r'.1, r.2 || r'.2)) (S, false)

def remove (p : Pointer N) (S : OffsetsSetPointsToSet N) : OffsetsSetPointsToSet N × Bool :=
  match S.pointers.lookup p.target with
  | none => (S, false)
  | some v =>
      let r := v.unset p.offset.toNat
      (S.assign p.target r.1, r.2)

def removeAny (t : PSNode N) (S : OffsetsSetPointsToSet N) : OffsetsSetPointsToSet N × Bool :=
  match S.pointers.lookup t with
  | none => (S, false)
  | some _ => (⟨S.pointers.erase t⟩, true)

/-- `pointsTo`, which is also `count` and `has`. -/
def pointsTo (S : OffsetsSetPointsToSet N) (p : Pointer N) : Bool :=
  match S.pointers.lookup p.target with
  | none => false
  | some v => v.get p.offset.toNat

omit [DecidableEq N] in
def isSingleton (S : OffsetsSetPointsToSet N) : Bool := S.pointers.keys.length = 1

def mustPointTo (S : OffsetsSetPointsToSet N) (p : Pointer N) : Bool :=
  S.pointsTo p && S.isSingleton

/-! ## Offsets are 64-bit numbers -/

/-- All numbers in the vectors are offsets. -/
def Bounded (S : OffsetsSetPointsToSet N) : Prop :=
  ∀ t v, S.pointers.lookup t = some v → ∀ i, v.get i = true → i < 2 ^ 64

theorem Bounded.empty : Bounded (empty : OffsetsSetPointsToSet N) := by
  intro t v h
  cases h

theorem Bounded.assign {S : OffsetsSetPointsToSet N} (h : S.Bounded) {t : PSNode N}
    {v : SparseBitvector} (hv : ∀ i, v.get i = true → i < 2 ^ 64) : (S.assign t v).Bounded := by
  intro t' v' h'
  by_cases ht : t' = t
  · subst ht
    rw [OffsetsSetPointsToSet.assign, AList.lookup_insert] at h'
    obtain rfl := Option.some.inj h'
    exact hv
  · rw [OffsetsSetPointsToSet.assign, AList.lookup_insert_ne ht] at h'
    exact h t' v' h'

theorem bounded_set {v : SparseBitvector} (h : ∀ i, v.get i = true → i < 2 ^ 64) (off : Offset) :
    ∀ i, (v.set off.toNat).1.get i = true → i < 2 ^ 64 := by
  intro i hi
  rw [SparseBitvector.get_set] at hi
  split at hi
  · next heq =>
      rw [heq]
      exact off.toNat_lt
  · exact h i hi

theorem bounded_empty : ∀ i, SparseBitvector.empty.get i = true → i < 2 ^ 64 := by
  intro i hi
  rw [SparseBitvector.get_empty] at hi
  cases hi

theorem Bounded.add {S : OffsetsSetPointsToSet N} (h : S.Bounded) (p : Pointer N) :
    (S.add p).1.Bounded := by
  have hnew := fun off => h.assign (t := p.target) (bounded_set bounded_empty off)
  rw [OffsetsSetPointsToSet.add]
  split
  · rw [addWithUnknownOffset]
    split
    · split
      · exact h
      · exact hnew _
    · exact hnew _
  · split
    · exact hnew _
    · next v hv =>
        split
        · exact h
        · exact h.assign (bounded_set (h _ v hv) _)

theorem Bounded.unionEntry {S : OffsetsSetPointsToSet N} (h : S.Bounded) (t : PSNode N)
    {v : SparseBitvector} (hv : ∀ i, v.get i = true → i < 2 ^ 64) : (S.unionEntry t v).1.Bounded := by
  apply h.assign
  intro i hi
  rw [SparseBitvector.get_union, Bool.or_eq_true] at hi
  -- the offset was there, or it comes from the other set
  rcases hi with hi | hi
  · cases hfind : S.pointers.lookup t with
    | none =>
        rw [hfind] at hi
        exact bounded_empty i hi
    | some w =>
        rw [hfind] at hi
        exact h t w hfind i hi
  · exact hv i hi

theorem bounded_foldl_unionEntry {es : List (Sigma fun _ : PSNode N => SparseBitvector)}
    {r : OffsetsSetPointsToSet N × Bool} (hr : r.1.Bounded)
    (hes : ∀ e ∈ es, ∀ i, e.2.get i = true → i < 2 ^ 64) : (es.foldl (fun r e =>
      ((r.1.unionEntry e.1 e.2).1, r.2 || (r.1.unionEntry e.1 e.2).2)) r).1.Bounded := by
  induction es generalizing r with
  | nil => exact hr
  | cons e es ih =>
      apply ih
      · exact hr.unionEntry e.1 (hes e List.mem_cons_self)
      · exact fun e' he' => hes e' (List.mem_cons_of_mem e he')

theorem Bounded.union {S rhs : OffsetsSetPointsToSet N} (h : S.Bounded) (hrhs : rhs.Bounded) :
    (union rhs S).1.Bounded := by
  apply bounded_foldl_unionEntry h
  intro e he
  exact hrhs e.1 e.2 (AList.mem_lookup_iff.2 he)

theorem Bounded.remove {S : OffsetsSetPointsToSet N} (h : S.Bounded) (p : Pointer N) :
    (S.remove p).1.Bounded := by
  rw [OffsetsSetPointsToSet.remove]
  split
  · exact h
  · next v hv =>
      apply h.assign
      intro i hi
      rw [SparseBitvector.get_unset] at hi
      split at hi
      · cases hi
      · exact h _ v hv i hi

theorem Bounded.removeAny {S : OffsetsSetPointsToSet N} (h : S.Bounded) (t : PSNode N) :
    (S.removeAny t).1.Bounded := by
  rw [OffsetsSetPointsToSet.removeAny]
  split
  · exact h
  · intro t' v' h'
    by_cases ht : t' = t
    · subst ht
      rw [AList.lookup_erase] at h'
      cases h'
    · rw [AList.lookup_erase_ne ht] at h'
      exact h t' v' h'

end OffsetsSetPointsToSet

end Cape.PointerAnalysis
