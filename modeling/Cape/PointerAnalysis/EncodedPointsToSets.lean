import Cape.ADT.Bitvector
import Cape.Library.Numbering
import Cape.PointerAnalysis.PointsToSet

/-!
# Points-to sets in bitvectors

Four points-to sets keep their pointers as positions in a bitvector: by a number for every pointer, or
by 64 positions for every target. Pointers whose offsets have no position come into a set beside it.
The numbers are shared by all sets of a class. `Encodes E ids S T`: the set `S` has the pointers of the
plain set `T`; the operations keep this (`encodes_add`, `encodes_union`, `encodes_remove`,
`encodes_removeAny`), and the queries and the iteration give what the plain set has.
-/

set_option autoImplicit false

namespace Cape.PointerAnalysis

open Cape.Library

universe u

variable {N K : Type u}

/-- How the pointers of a class of sets are encoded: what has a number, which offsets have a position,
the position of a pointer from the number, and how a position is read back. -/
structure Encoding (N K : Type u) [DecidableEq K] where
  /-- what has a number -/
  key : Pointer N → K
  isOffsetValid : Offset → Bool
  getPosition : Nat → Offset → Nat
  /-- `operator*` of the iterator: where the key of a position is in `idVector`, and the pointer -/
  index : Nat → Nat
  pointer : K → Nat → Pointer N
  /-- the positions that `removeAny` and `pointsToTarget` look at -/
  toRemove : Numbering K → SparseBitvector → PSNode N → List Nat × Numbering K
  targetPositions : Numbering K → PSNode N → List Nat × Numbering K
  /-- the report of `removeAny`, from the positions and what `unset` reports for them -/
  removed : List Nat → List Bool → Bool
  unknown_valid : isOffsetValid .unknown = true
  index_getPosition : ∀ id off, 1 ≤ id → isOffsetValid off = true →
    index (getPosition id off) = id - 1
  pointer_getPosition : ∀ id p, 1 ≤ id → isOffsetValid p.offset = true →
    pointer (key p) (getPosition id p.offset) = p
  toRemove_preserves : ∀ (ids : Numbering K) v t, ids.Preserves (toRemove ids v t).2
  mem_toRemove : ∀ ids v t p id, isOffsetValid p.offset = true → ids.find (key p) = some id →
    v.get (getPosition id p.offset) = true →
      (getPosition id p.offset ∈ (toRemove ids v t).1 ↔ p.target = t)
  targetPositions_preserves : ∀ (ids : Numbering K) t, ids.Preserves (targetPositions ids t).2
  mem_targetPositions : ∀ ids t p id, isOffsetValid p.offset = true → ids.find (key p) = some id →
    (getPosition id p.offset ∈ (targetPositions ids t).1 ↔ p.target = t)

/-- A set: the positions, and the pointers whose offsets have none. -/
structure EncodedSet (N : Type u) where
  pointers : SparseBitvector
  overflow : PointsToSet N

namespace EncodedSet

def empty : EncodedSet N := ⟨.empty, .empty⟩

/-- `size`. -/
def size (S : EncodedSet N) : Nat := S.pointers.size + S.overflow.pointers.length

end EncodedSet

namespace Encoding

section Operations

variable [DecidableEq N] [DecidableEq K] (E : Encoding N K)

/-- The position of a pointer; its key may get a number. -/
def position (ids : Numbering K) (p : Pointer N) : Nat × Numbering K :=
  let r := ids.getID (E.key p)
  (E.getPosition r.1 p.offset, r.2)

/-- `pointsTo`, which is also `count` and `has`. -/
def pointsTo (S : EncodedSet N) (p : Pointer N) (ids : Numbering K) : Bool × Numbering K :=
  if E.isOffsetValid p.offset then
    let r := E.position ids p
    (S.pointers.get r.1, r.2)
  else (S.overflow.has p, ids)

/-- `mayPointTo`. -/
def mayPointTo (S : EncodedSet N) (p : Pointer N) (ids : Numbering K) : Bool × Numbering K :=
  let r := E.pointsTo S p ids
  if r.1 then r else E.pointsTo S p.widen r.2

/-- `pointsToTarget`. -/
def pointsToTarget (S : EncodedSet N) (t : PSNode N) (ids : Numbering K) : Bool × Numbering K :=
  let r := E.targetPositions ids t
  ((r.1.any fun i => S.pointers.get i) || S.overflow.pointsToTarget t, r.2)

/-- `unset` for positions in order, with the reports. -/
def unsetAll (v : SparseBitvector) : List Nat → SparseBitvector × List Bool
  | [] => (v, [])
  | i :: is =>
      let r := v.unset i
      let r' := unsetAll r.1 is
      (r'.1, r.2 :: r'.2)

/-- `removeAny`. -/
def removeAny (S : EncodedSet N) (t : PSNode N) (ids : Numbering K) :
    (EncodedSet N × Bool) × Numbering K :=
  let r := E.toRemove ids S.pointers t
  let u := unsetAll S.pointers r.1
  ((⟨u.1, S.overflow.removeAny t⟩, E.removed r.1 u.2 || S.overflow.pointsToTarget t), r.2)

/-- A position is set; the report is that it was not. -/
def setPosition (S : EncodedSet N) (p : Pointer N) (ids : Numbering K) :
    (EncodedSet N × Bool) × Numbering K :=
  let r := E.position ids p
  let s := S.pointers.set r.1
  ((⟨s.1, S.overflow⟩, !s.2), r.2)

/-- `addWithUnknownOffset`. -/
def addWithUnknownOffset (S : EncodedSet N) (t : PSNode N) (ids : Numbering K) :
    (EncodedSet N × Bool) × Numbering K :=
  let r := E.removeAny S t ids
  E.setPosition r.1.1 ⟨t, .unknown⟩ r.2

/-- `add` of a pointer. -/
def add (S : EncodedSet N) (p : Pointer N) (ids : Numbering K) :
    (EncodedSet N × Bool) × Numbering K :=
  let r := E.pointsTo S p.widen ids
  if r.1 then ((S, false), r.2)
  else if p.offset.isUnknown then E.addWithUnknownOffset S p.target r.2
  else if E.isOffsetValid p.offset then E.setPosition S p r.2
  else
    let o := PointsToSet.set p S.overflow
    ((⟨S.pointers, o.1⟩, o.2), r.2)

omit [DecidableEq K] in
/-- `add` of a set: the union of the bitvectors and of the other pointers. -/
def union (S rhs : EncodedSet N) : EncodedSet N × Bool :=
  let r := S.pointers.union rhs.pointers
  let o := PointsToSet.union rhs.overflow S.overflow
  (⟨r.1, o.1⟩, r.2 || o.2)

/-- `remove`. -/
def remove (S : EncodedSet N) (p : Pointer N) (ids : Numbering K) :
    (EncodedSet N × Bool) × Numbering K :=
  if E.isOffsetValid p.offset then
    let r := E.position ids p
    let u := S.pointers.unset r.1
    ((⟨u.1, S.overflow⟩, u.2), r.2)
  else ((⟨S.pointers, S.overflow.remove p⟩, S.overflow.has p), ids)

/-- `operator*` of the iterator for a position. -/
def decode (ids : Numbering K) (i : Nat) : Option (Pointer N) :=
  (ids.idVector[E.index i]?).map fun k => E.pointer k i

/-- The pointers from `begin` to `end`: those of the bitvector first, then those of the set. -/
def elements (S : EncodedSet N) (ids : Numbering K) : Option (List (Pointer N)) :=
  (S.pointers.elements.mapM (E.decode ids)).map (· ++ S.overflow.pointers)

end Operations

/-! ## What a set has -/

variable [DecidableEq K]

/-- The set has the pointers of a plain set: the bits are the positions of those that have one. -/
structure Encodes (E : Encoding N K) (ids : Numbering K) (S : EncodedSet N) (T : PointsToSet N) :
    Prop where
  bits : ∀ i, S.pointers.get i = true ↔ ∃ p ∈ T, E.isOffsetValid p.offset = true ∧
    ∃ id, ids.find (E.key p) = some id ∧ E.getPosition id p.offset = i
  registered : ∀ p ∈ T, E.isOffsetValid p.offset = true → ∃ id, ids.find (E.key p) = some id
  overflow : ∀ p, p ∈ S.overflow ↔ p ∈ T ∧ E.isOffsetValid p.offset = false

variable {E : Encoding N K} {ids ids' : Numbering K} {S : EncodedSet N} {T : PointsToSet N}

/-- Different pointers have different positions. -/
theorem getPosition_inj {p p' : Pointer N} {id id' : Nat}
    (hp : E.isOffsetValid p.offset = true) (hp' : E.isOffsetValid p'.offset = true)
    (hid : ids.find (E.key p) = some id) (hid' : ids.find (E.key p') = some id')
    (h : E.getPosition id p.offset = E.getPosition id' p'.offset) : p = p' := by
  rcases Numbering.getElem?_of_find hid with ⟨hpos, -⟩
  rcases Numbering.getElem?_of_find hid' with ⟨hpos', -⟩
  -- the places of the keys in `idVector` are the same
  have hindex := E.index_getPosition id p.offset hpos hp
  rw [h, E.index_getPosition id' p'.offset hpos' hp'] at hindex
  have hsame : id = id' := by omega
  subst hsame
  have hkey : E.key p = E.key p' := Numbering.find_inj hid hid'
  rw [← E.pointer_getPosition id p hpos hp, h, hkey, E.pointer_getPosition id p' hpos' hp']

theorem Encodes.empty (ids : Numbering K) : Encodes E ids .empty .empty where
  bits i := iff_of_false (by simp [EncodedSet.empty]) fun ⟨p, hp, _⟩ =>
    PointsToSet.mem_empty p hp
  registered p hp := absurd hp (PointsToSet.mem_empty p)
  overflow p := iff_of_false (PointsToSet.mem_empty p) fun h => PointsToSet.mem_empty p h.1

/-- More numbers change nothing. -/
theorem Encodes.preserves (h : Encodes E ids S T) (hids : ids.Preserves ids') :
    Encodes E ids' S T where
  bits i := by
    rw [h.bits i]
    constructor
    · rintro ⟨p, hp, hvalid, id, hid, heq⟩
      exact ⟨p, hp, hvalid, id, hids _ _ hid, heq⟩
    · rintro ⟨p, hp, hvalid, id, hid, heq⟩
      -- the key had its number before
      rcases h.registered p hp hvalid with ⟨id', hid'⟩
      have hsame := hids _ _ hid'
      rw [hid] at hsame
      obtain rfl := Option.some.inj hsame
      exact ⟨p, hp, hvalid, id, hid', heq⟩
  registered p hp hvalid := by
    rcases h.registered p hp hvalid with ⟨id, hid⟩
    exact ⟨id, hids _ _ hid⟩
  overflow := h.overflow

/-- The bit of a pointer. -/
theorem Encodes.get_iff (h : Encodes E ids S T) {p : Pointer N} {id : Nat}
    (hvalid : E.isOffsetValid p.offset = true) (hid : ids.find (E.key p) = some id) :
    S.pointers.get (E.getPosition id p.offset) = true ↔ p ∈ T := by
  rw [h.bits]
  constructor
  · rintro ⟨p', hp', hvalid', id', hid', heq⟩
    rw [← getPosition_inj hvalid' hvalid hid' hid heq]
    exact hp'
  · intro hp
    exact ⟨p, hp, hvalid, id, hid, rfl⟩

theorem position_spec (E : Encoding N K) (ids : Numbering K) (p : Pointer N) :
    ∃ id, (E.position ids p).2.find (E.key p) = some id ∧
      (E.position ids p).1 = E.getPosition id p.offset ∧ ids.Preserves (E.position ids p).2 := by
  rcases ids.getID_spec (E.key p) with ⟨hid, hids⟩
  exact ⟨_, hid, rfl, hids⟩

variable [DecidableEq N]

/-- **What `pointsTo` answers.** -/
theorem Encodes.pointsTo (h : Encodes E ids S T) (p : Pointer N) :
    (E.pointsTo S p ids).1 = T.has p ∧ ids.Preserves (E.pointsTo S p ids).2 := by
  rw [Encoding.pointsTo]
  split
  · next hvalid =>
      rcases position_spec E ids p with ⟨id, hid, hposition, hids⟩
      refine ⟨?_, hids⟩
      dsimp only
      rw [hposition, Bool.eq_iff_iff, (h.preserves hids).get_iff hvalid hid]
      exact decide_eq_true_iff.symm
  · next hvalid =>
      refine ⟨?_, .refl ids⟩
      rw [Bool.eq_iff_iff]
      refine (decide_eq_true_iff.trans (h.overflow p)).trans ?_
      rw [and_iff_left (Bool.eq_false_iff.2 hvalid)]
      exact decide_eq_true_iff.symm

theorem Encodes.mayPointTo (h : Encodes E ids S T) (p : Pointer N) :
    ((E.mayPointTo S p ids).1 = true ↔ T.Covers p) ∧ ids.Preserves (E.mayPointTo S p ids).2 := by
  rcases h.pointsTo p with ⟨hanswer, hids⟩
  rcases (h.preserves hids).pointsTo p.widen with ⟨hanswer', hids'⟩
  rw [Encoding.mayPointTo]
  split
  · next htrue =>
      refine ⟨iff_of_true htrue ?_, hids⟩
      rw [hanswer] at htrue
      exact Or.inl (of_decide_eq_true htrue)
  · next hfalse =>
      refine ⟨?_, hids.trans hids'⟩
      rw [hanswer'] at *
      rw [hanswer] at hfalse
      refine decide_eq_true_iff.trans (or_iff_right fun hp => ?_).symm
      exact hfalse (decide_eq_true hp)

theorem Encodes.pointsToTarget (h : Encodes E ids S T) (t : PSNode N) :
    (E.pointsToTarget S t ids).1 = T.pointsToTarget t ∧
      ids.Preserves (E.pointsToTarget S t ids).2 := by
  have hids := E.targetPositions_preserves ids t
  refine ⟨?_, hids⟩
  rw [Encoding.pointsToTarget, Bool.eq_iff_iff, Bool.or_eq_true, PointsToSet.pointsToTarget,
    PointsToSet.pointsToTarget, List.any_eq_true, List.any_eq_true, List.any_eq_true]
  constructor
  · rintro (⟨i, hi, hget⟩ | ⟨p, hp, ht⟩)
    · rcases (h.bits i).1 hget with ⟨p, hp, hvalid, id, hid, rfl⟩
      exact ⟨p, hp, decide_eq_true ((E.mem_targetPositions ids t p id hvalid hid).1 hi)⟩
    · exact ⟨p, ((h.overflow p).1 hp).1, ht⟩
  · rintro ⟨p, hp, ht⟩
    by_cases hvalid : E.isOffsetValid p.offset = true
    · left
      rcases h.registered p hp hvalid with ⟨id, hid⟩
      refine ⟨_, (E.mem_targetPositions ids t p id hvalid hid).2 (of_decide_eq_true ht), ?_⟩
      exact (h.get_iff hvalid hid).2 hp
    · exact Or.inr ⟨p, (h.overflow p).2 ⟨hp, Bool.eq_false_iff.2 hvalid⟩, ht⟩

/-! ## The operations -/

omit [DecidableEq N] [DecidableEq K] in
theorem get_unsetAll (v : SparseBitvector) (is : List Nat) (j : Nat) :
    (unsetAll v is).1.get j = true ↔ j ∉ is ∧ v.get j = true := by
  induction is generalizing v with
  | nil => simp [unsetAll]
  | cons i is ih =>
      rw [unsetAll]
      dsimp only
      rw [ih, SparseBitvector.get_unset]
      by_cases hj : j = i
      · simp [hj]
      · simp [hj]

/-- **`removeAny`** takes out the pointers to the target. -/
theorem Encodes.removeAny (h : Encodes E ids S T) (t : PSNode N) :
    Encodes E (E.removeAny S t ids).2 (E.removeAny S t ids).1.1 (T.removeAny t) ∧
      ids.Preserves (E.removeAny S t ids).2 := by
  have hids := E.toRemove_preserves ids S.pointers t
  have h' := h.preserves hids
  refine ⟨?_, hids⟩
  constructor
  case bits =>
    intro i
    show (unsetAll S.pointers (E.toRemove ids S.pointers t).1).1.get i = true ↔ _
    rw [get_unsetAll]
    constructor
    · rintro ⟨hi, hget⟩
      -- a position that stays is one of another target
      rcases (h.bits i).1 hget with ⟨p, hp, hvalid, id, hid, rfl⟩
      rw [E.mem_toRemove ids S.pointers t p id hvalid hid hget] at hi
      exact ⟨p, (T.mem_removeAny t p).2 ⟨hp, hi⟩, hvalid, id, hids _ _ hid, rfl⟩
    · rintro ⟨p, hp, hvalid, id, hid, rfl⟩
      rcases (T.mem_removeAny t p).1 hp with ⟨hp, ht⟩
      rcases h.registered p hp hvalid with ⟨id', hid'⟩
      have hsame := hids _ _ hid'
      have hid : (E.toRemove ids S.pointers t).2.find (E.key p) = some id := hid
      rw [hid] at hsame
      obtain rfl := Option.some.inj hsame
      have hget := (h.get_iff hvalid hid').2 hp
      rw [E.mem_toRemove ids S.pointers t p id hvalid hid' hget]
      exact ⟨ht, hget⟩
  case registered =>
    intro p hp
    exact h'.registered p ((T.mem_removeAny t p).1 hp).1
  case overflow =>
    intro p
    refine (S.overflow.mem_removeAny t p).trans ?_
    rw [h.overflow p, T.mem_removeAny]
    exact and_right_comm

/-- Setting the position of a pointer puts it in. -/
theorem Encodes.setPosition (h : Encodes E ids S T) {p : Pointer N}
    (hvalid : E.isOffsetValid p.offset = true) :
    Encodes E (E.setPosition S p ids).2 (E.setPosition S p ids).1.1 (PointsToSet.set p T).1 ∧
      (E.setPosition S p ids).1.2 = (PointsToSet.set p T).2 ∧
      ids.Preserves (E.setPosition S p ids).2 := by
  rcases position_spec E ids p with ⟨id, hid, hposition, hids⟩
  have h' := h.preserves hids
  refine ⟨?_, ?_, hids⟩
  · constructor
    case bits =>
      intro i
      show (S.pointers.set (E.position ids p).1).1.get i = true ↔ _
      rw [SparseBitvector.get_set, hposition]
      constructor
      · intro hget
        split at hget
        · next heq => exact ⟨p, (T.mem_set p p).2 (Or.inr rfl), hvalid, id, hid, heq.symm⟩
        · rcases (h'.bits i).1 hget with ⟨q, hq, hq'⟩
          exact ⟨q, (T.mem_set p q).2 (Or.inl hq), hq'⟩
      · rintro ⟨q, hq, hq'⟩
        split
        · rfl
        · next hne =>
            rcases (T.mem_set p q).1 hq with hq | rfl
            · exact (h'.bits i).2 ⟨q, hq, hq'⟩
            · -- the pointer itself has one number, so one position
              rcases hq' with ⟨-, id', hid', heq⟩
              have hid' : (E.position ids q).2.find (E.key q) = some id' := hid'
              rw [hid] at hid'
              obtain rfl := Option.some.inj hid'
              exact absurd heq.symm hne
    case registered =>
      intro q hq hq'
      rcases (T.mem_set p q).1 hq with hq | rfl
      · exact h'.registered q hq hq'
      · exact ⟨id, hid⟩
    case overflow =>
      intro q
      refine (h.overflow q).trans ?_
      rw [T.mem_set p q, or_and_right]
      refine (or_iff_left ?_).symm
      rintro ⟨rfl, hnot⟩
      rw [hvalid] at hnot
      cases hnot
  · show (!(S.pointers.set (E.position ids p).1).2) = _
    rw [SparseBitvector.set_report, T.set_report p, hposition, Bool.not_eq_eq_eq_not, Bool.not_not,
      Bool.eq_iff_iff, h'.get_iff hvalid hid]
    exact decide_eq_true_iff.symm

/-- **`add`** does what it does in the plain set, and reports the same. -/
theorem Encodes.add (h : Encodes E ids S T) (p : Pointer N) :
    Encodes E (E.add S p ids).2 (E.add S p ids).1.1 (PointsToSet.add p T).1 ∧
      (E.add S p ids).1.2 = (PointsToSet.add p T).2 ∧ ids.Preserves (E.add S p ids).2 := by
  rcases h.pointsTo p.widen with ⟨hhas, hids⟩
  have h' := h.preserves hids
  rw [Encoding.add, PointsToSet.add, hhas]
  by_cases hwide : T.has p.widen = true
  · rw [if_pos hwide, if_pos hwide]
    exact ⟨h', rfl, hids⟩
  · rw [if_neg hwide, if_neg hwide]
    by_cases hunknown : p.offset.isUnknown = true
    · -- the known offsets of the target go, and the unknown one comes
      rw [if_pos hunknown, if_pos hunknown]
      rcases h'.removeAny p.target with ⟨hremoved, hids'⟩
      rcases hremoved.setPosition (p := ⟨p.target, .unknown⟩) E.unknown_valid with
        ⟨hset, hreport, hids''⟩
      exact ⟨hset, hreport, hids.trans (hids'.trans hids'')⟩
    · rw [if_neg hunknown, if_neg hunknown]
      by_cases hvalid : E.isOffsetValid p.offset = true
      · rw [if_pos hvalid]
        rcases h'.setPosition hvalid with ⟨hset, hreport, hids'⟩
        exact ⟨hset, hreport, hids.trans hids'⟩
      · -- without a position, the pointer comes beside the bitvector
        rw [if_neg hvalid]
        have hvalid := Bool.eq_false_iff.2 hvalid
        refine ⟨?_, ?_, hids⟩
        · constructor
          case bits =>
            intro i
            refine (h'.bits i).trans ?_
            constructor
            · rintro ⟨q, hq, hq'⟩
              exact ⟨q, (T.mem_set p q).2 (Or.inl hq), hq'⟩
            · rintro ⟨q, hq, hq', hid⟩
              rcases (T.mem_set p q).1 hq with hq | rfl
              · exact ⟨q, hq, hq', hid⟩
              · rw [hvalid] at hq'
                cases hq'
          case registered =>
            intro q hq hq'
            rcases (T.mem_set p q).1 hq with hq | rfl
            · exact h'.registered q hq hq'
            · rw [hvalid] at hq'
              cases hq'
          case overflow =>
            intro q
            refine (S.overflow.mem_set p q).trans ?_
            rw [h.overflow q, T.mem_set p q, or_and_right]
            refine or_congr_right (and_iff_left_of_imp ?_).symm
            rintro rfl
            exact hvalid
        · show (PointsToSet.set p S.overflow).2 = (PointsToSet.set p T).2
          rw [S.overflow.set_report p, T.set_report p]
          congr 1
          rw [Bool.eq_iff_iff]
          refine (decide_eq_true_iff.trans (h.overflow p)).trans ?_
          rw [and_iff_left hvalid]
          exact decide_eq_true_iff.symm

/-- **The union** has the pointers of both sets. -/
theorem Encodes.union (h : Encodes E ids S T) {rhs : EncodedSet N} {U : PointsToSet N}
    (hrhs : Encodes E ids rhs U) :
    Encodes E ids (Encoding.union S rhs).1 (PointsToSet.union U T).1 := by
  constructor
  case bits =>
    intro i
    show (S.pointers.union rhs.pointers).1.get i = true ↔ _
    rw [SparseBitvector.get_union, Bool.or_eq_true, h.bits, hrhs.bits]
    simp only [PointsToSet.mem_union, or_and_right, exists_or]
  case registered =>
    intro p hp hvalid
    rcases (PointsToSet.mem_union T U p).1 hp with hp | hp
    · exact h.registered p hp hvalid
    · exact hrhs.registered p hp hvalid
  case overflow =>
    intro p
    refine (PointsToSet.mem_union S.overflow rhs.overflow p).trans ?_
    rw [h.overflow, hrhs.overflow, PointsToSet.mem_union, or_and_right]

/-- The union reports a change if the plain one does. -/
theorem Encodes.union_report (h : Encodes E ids S T) {rhs : EncodedSet N} {U : PointsToSet N}
    (hrhs : Encodes E ids rhs U) : (Encoding.union S rhs).2 = (PointsToSet.union U T).2 := by
  rw [Bool.eq_iff_iff]
  show ((S.pointers.union rhs.pointers).2 ||
    (PointsToSet.union rhs.overflow S.overflow).2) = true ↔ _
  rw [Bool.or_eq_true, SparseBitvector.union_report, PointsToSet.union_report_eq_true_iff,
    PointsToSet.union_report_eq_true_iff]
  constructor
  · rintro (⟨i, hi, hnot⟩ | ⟨p, hp, hnot⟩)
    · -- the position of a new pointer
      rcases (hrhs.bits i).1 hi with ⟨p, hp, hvalid, id, hid, rfl⟩
      refine ⟨p, hp, fun hin => ?_⟩
      rw [(h.get_iff hvalid hid).2 hin] at hnot
      cases hnot
    · have hin := (hrhs.overflow p).1 hp
      exact ⟨p, hin.1, fun hp' => hnot ((h.overflow p).2 ⟨hp', hin.2⟩)⟩
  · rintro ⟨p, hp, hnot⟩
    by_cases hvalid : E.isOffsetValid p.offset = true
    · left
      rcases hrhs.registered p hp hvalid with ⟨id, hid⟩
      refine ⟨_, (hrhs.get_iff hvalid hid).2 hp, ?_⟩
      rw [← Bool.not_eq_true, h.get_iff hvalid hid]
      exact hnot
    · right
      exact ⟨p, (hrhs.overflow p).2 ⟨hp, Bool.eq_false_iff.2 hvalid⟩, fun hin =>
        hnot ((h.overflow p).1 hin).1⟩

/-- **`remove`** takes out the pointer. -/
theorem Encodes.remove (h : Encodes E ids S T) (p : Pointer N) :
    Encodes E (E.remove S p ids).2 (E.remove S p ids).1.1 (T.remove p) ∧
      ids.Preserves (E.remove S p ids).2 := by
  rw [Encoding.remove]
  split
  · next hvalid =>
      rcases position_spec E ids p with ⟨id, hid, hposition, hids⟩
      have h' := h.preserves hids
      refine ⟨?_, hids⟩
      constructor
      case bits =>
        intro i
        show (S.pointers.unset (E.position ids p).1).1.get i = true ↔ _
        rw [SparseBitvector.get_unset, hposition]
        constructor
        · intro hget
          split at hget
          · cases hget
          · next hne =>
              rcases (h'.bits i).1 hget with ⟨q, hq, hq', id', hid', heq⟩
              refine ⟨q, (T.mem_remove p q).2 ⟨hq, ?_⟩, hq', id', hid', heq⟩
              rintro rfl
              have hid' : (E.position ids q).2.find (E.key q) = some id' := hid'
              rw [hid] at hid'
              obtain rfl := Option.some.inj hid'
              exact hne heq.symm
        · rintro ⟨q, hq, hq', id', hid', heq⟩
          rcases (T.mem_remove p q).1 hq with ⟨hq, hne⟩
          -- another pointer has another position
          rw [if_neg]
          · exact (h'.bits i).2 ⟨q, hq, hq', id', hid', heq⟩
          · rintro rfl
            exact hne (getPosition_inj hq' hvalid hid' hid heq)
      case registered =>
        intro q hq
        exact h'.registered q ((T.mem_remove p q).1 hq).1
      case overflow =>
        intro q
        refine (h.overflow q).trans ?_
        rw [T.mem_remove p q, and_right_comm]
        refine (and_iff_left_of_imp ?_).symm
        rintro ⟨-, hnot⟩ rfl
        rw [hvalid] at hnot
        cases hnot
  · next hvalid =>
      refine ⟨?_, .refl ids⟩
      constructor
      case bits =>
        intro i
        refine (h.bits i).trans ?_
        constructor
        · rintro ⟨q, hq, hq', hid⟩
          refine ⟨q, (T.mem_remove p q).2 ⟨hq, ?_⟩, hq', hid⟩
          rintro rfl
          exact hvalid hq'
        · rintro ⟨q, hq, hq'⟩
          exact ⟨q, ((T.mem_remove p q).1 hq).1, hq'⟩
      case registered =>
        intro q hq
        exact h.registered q ((T.mem_remove p q).1 hq).1
      case overflow =>
        intro q
        refine (S.overflow.mem_remove p q).trans ?_
        rw [h.overflow q, T.mem_remove p q]
        exact and_right_comm

/-! ## Size and iteration -/

omit [DecidableEq N] in
/-- A position is read back as the pointer that it is for. -/
theorem Encodes.decode (h : Encodes E ids S T) {i : Nat} (hi : S.pointers.get i = true) :
    ∃ p ∈ T, E.isOffsetValid p.offset = true ∧ E.decode ids i = some p ∧
      ∃ id, ids.find (E.key p) = some id ∧ E.getPosition id p.offset = i := by
  rcases (h.bits i).1 hi with ⟨p, hp, hvalid, id, hid, rfl⟩
  rcases Numbering.getElem?_of_find hid with ⟨hpos, hkey⟩
  refine ⟨p, hp, hvalid, ?_, id, hid, rfl⟩
  rw [Encoding.decode, E.index_getPosition id _ hpos hvalid, hkey, Option.map_some,
    E.pointer_getPosition id p hpos hvalid]

omit [DecidableEq N] in
/-- Different positions of the set are read back as different pointers. -/
theorem Encodes.mapM_decode (h : Encodes E ids S T) {is : List Nat} (hnodup : is.Nodup)
    (his : ∀ i ∈ is, S.pointers.get i = true) :
    ∃ l, is.mapM (E.decode ids) = some l ∧ l.Nodup ∧ l.length = is.length ∧
      ∀ p, p ∈ l ↔ ∃ i ∈ is, E.decode ids i = some p := by
  induction is with
  | nil => exact ⟨[], rfl, .nil, rfl, by simp⟩
  | cons i is ih =>
      rcases List.nodup_cons.1 hnodup with ⟨hnotin, hnodup⟩
      rcases ih hnodup fun j hj => his j (List.mem_cons_of_mem i hj) with
        ⟨l, hl, hldup, hlength, hmem⟩
      rcases h.decode (his i List.mem_cons_self) with ⟨p, hp, hvalid, hdecode, id, hid, hposition⟩
      refine ⟨p :: l, ?_, List.nodup_cons.2 ⟨fun hin => ?_, hldup⟩, ?_, fun q => ?_⟩
      · rw [List.mapM_cons, hdecode, hl]
        rfl
      · -- the pointer has one position only
        rcases (hmem p).1 hin with ⟨j, hj, hdecode'⟩
        rcases h.decode (his j (List.mem_cons_of_mem i hj)) with
          ⟨p', -, -, hdecode'', id', hid', hposition'⟩
        rw [hdecode'] at hdecode''
        obtain rfl := Option.some.inj hdecode''
        rw [hid] at hid'
        obtain rfl := Option.some.inj hid'
        rw [hposition] at hposition'
        exact hnotin (hposition' ▸ hj)
      · rw [List.length_cons, List.length_cons, hlength]
      · rw [List.mem_cons, hmem, List.exists_mem_cons_iff, hdecode, Option.some_inj,
          eq_comm (a := q)]

omit [DecidableEq N] in
/-- **The iteration gives every pointer exactly once**, and there are as many as `size` says. -/
theorem Encodes.elements (h : Encodes E ids S T) :
    ∃ l, E.elements S ids = some l ∧ l.Nodup ∧ (∀ p, p ∈ l ↔ p ∈ T) ∧ l.length = S.size := by
  rcases h.mapM_decode S.pointers.nodup_elements fun i hi => SparseBitvector.mem_elements.1 hi with
    ⟨l, hl, hldup, hlength, hmem⟩
  -- the pointers of the bitvector are those with a position
  have hbits : ∀ p, p ∈ l ↔ p ∈ T ∧ E.isOffsetValid p.offset = true := by
    intro p
    rw [hmem]
    constructor
    · rintro ⟨i, hi, hdecode⟩
      rcases h.decode (SparseBitvector.mem_elements.1 hi) with ⟨p', hp', hvalid, hdecode', -⟩
      rw [hdecode] at hdecode'
      obtain rfl := Option.some.inj hdecode'
      exact ⟨hp', hvalid⟩
    · rintro ⟨hp, hvalid⟩
      rcases h.registered p hp hvalid with ⟨id, hid⟩
      have hget := (h.get_iff hvalid hid).2 hp
      refine ⟨_, SparseBitvector.mem_elements.2 hget, ?_⟩
      rcases Numbering.getElem?_of_find hid with ⟨hpos, hkey⟩
      rw [Encoding.decode, E.index_getPosition id _ hpos hvalid, hkey, Option.map_some,
        E.pointer_getPosition id p hpos hvalid]
  refine ⟨l ++ S.overflow.pointers, by rw [Encoding.elements, hl]; rfl, ?_, fun p => ?_, ?_⟩
  · refine List.nodup_append.2 ⟨hldup, S.overflow.nodup, ?_⟩
    rintro p hp q hq rfl
    have hvalid := ((hbits p).1 hp).2
    rw [((h.overflow p).1 hq).2] at hvalid
    cases hvalid
  · rw [List.mem_append, hbits]
    have hover : p ∈ S.overflow.pointers ↔ p ∈ T ∧ E.isOffsetValid p.offset = false := h.overflow p
    rw [hover, ← and_or_left]
    refine and_iff_left ?_
    cases E.isOffsetValid p.offset <;> simp
  · rw [List.length_append, hlength, EncodedSet.size, SparseBitvector.size_eq]

omit [DecidableEq N] in
theorem Encodes.size (h : Encodes E ids S T) : S.size = T.pointers.length := by
  rcases h.elements with ⟨l, -, hnodup, hmem, hlength⟩
  rw [← hlength]
  exact ((List.perm_ext_iff_of_nodup hnodup T.nodup).2 hmem).length_eq

end Encoding

end Cape.PointerAnalysis
