import Cape.PointerAnalysis.EncodedPointsToSets
import Cape.PointerAnalysis.SimplePointsToSet

/-!
# The encoded points-to sets

The four classes of sets in bitvectors, and runs over many sets of one class, which share the numbers.
In every run the sets have the pointers that plain sets have (`encoded_refine_simple`) and report the
same changes (`reports_eq`). Positions do not wrap around here: this would take 2^58 numbers.
-/

set_option autoImplicit false

namespace Cape.PointerAnalysis

open Cape.Library

universe u

variable {N K : Type u} [DecidableEq N]

/-! ## Numbers for pointers -/

/-- Each pointer whose offset is valid has a number, which is its position. -/
def Encoding.byPointer (isOffsetValid : Offset → Bool) (hunknown : isOffsetValid .unknown = true) :
    Encoding N (Pointer N) where
  key p := p
  isOffsetValid := isOffsetValid
  getPosition id _ := id
  index i := i - 1
  pointer p _ := p
  toRemove ids v t :=
    (v.elements.filter fun i => (ids.idVector[i - 1]?).any fun p => p.target = t, ids)
  targetPositions ids t := ((List.range' 1 ids.idVector.length).filter fun i =>
    (ids.idVector[i - 1]?).any fun p => p.target = t, ids)
  removed is _ := !is.isEmpty
  unknown_valid := hunknown
  index_getPosition _ _ _ _ := rfl
  pointer_getPosition _ _ _ _ := rfl
  toRemove_preserves ids _ _ := .refl ids
  mem_toRemove := by
    intro ids v t p id _ hid hget
    rw [List.mem_filter, SparseBitvector.mem_elements, (Numbering.getElem?_of_find hid).2]
    simp only [hget, Option.any_some, true_and, decide_eq_true_eq]
  targetPositions_preserves ids _ := .refl ids
  mem_targetPositions := by
    intro ids t p id _ hid
    rcases Numbering.getElem?_of_find hid with ⟨hpos, hkey⟩
    have hlt := (List.getElem?_eq_some_iff.1 hkey).1
    rw [List.mem_filter, List.mem_range'_1, hkey]
    simp only [Option.any_some, decide_eq_true_eq]
    refine and_iff_right ⟨hpos, ?_⟩
    omega

/-- `PointerIdPointsToSet`. -/
def pointerIdPointsToSet : Encoding N (Pointer N) := .byPointer (fun _ => true) rfl

/-- `AlignedPointerIdPointsToSet`, with the multiplier 4. -/
def alignedPointerIdPointsToSet : Encoding N (Pointer N) :=
  .byPointer (fun off => off.isUnknown || off.toNat % 4 = 0) rfl

/-! ## Numbers for targets -/

/-- The place of an offset among the 64 positions of its target; the last one is for the unknown
offset. -/
def slot (multiplier : Nat) (off : Offset) : Nat :=
  if off.isUnknown then 63 else off.toNat / multiplier

/-- Offsets that are divisible by the multiplier are stored in the bitvector up to 62 times it. -/
def isSmall (multiplier : Nat) (off : Offset) : Bool :=
  off.isUnknown || (off.toNat ≤ 62 * multiplier && off.toNat % multiplier = 0)

theorem slot_lt {multiplier : Nat} {off : Offset} (h : isSmall multiplier off = true) :
    slot multiplier off < 64 := by
  rw [slot]
  split
  · omega
  · next hunknown =>
      rw [isSmall, Bool.or_eq_true, or_iff_right hunknown, Bool.and_eq_true, decide_eq_true_eq] at h
      have hle := Nat.div_le_of_le_mul (k := multiplier) (m := off.toNat) (n := 62) (by
        rw [Nat.mul_comm]
        exact h.1)
      omega

/-- The offset comes back from its place. -/
theorem offset_of_slot {multiplier : Nat} {off : Offset} (h : isSmall multiplier off = true) :
    (if slot multiplier off = 63 then Offset.unknown
      else ⟨BitVec.ofNat 64 (slot multiplier off * multiplier)⟩) = off := by
  by_cases hunknown : off.isUnknown = true
  · rw [slot, if_pos hunknown, if_pos rfl]
    exact ((Offset.isUnknown_iff off).1 hunknown).symm
  · rw [isSmall, Bool.or_eq_true, or_iff_right hunknown, Bool.and_eq_true, decide_eq_true_eq,
      decide_eq_true_eq] at h
    have hle := Nat.div_le_of_le_mul (k := multiplier) (m := off.toNat) (n := 62) (by
      rw [Nat.mul_comm]
      exact h.1)
    have hback : off.toNat / multiplier * multiplier = off.toNat :=
      Nat.div_mul_cancel (Nat.dvd_of_mod_eq_zero h.2)
    rw [slot, if_neg hunknown, if_neg (by omega), hback, Offset.eq_iff]
    exact Nat.mod_eq_of_lt off.toNat_lt

/-- The 64 positions of a target. -/
def nodePositions (ids : Numbering (PSNode N)) (t : PSNode N) :
    List Nat × Numbering (PSNode N) :=
  let r := ids.getID t
  (List.range' ((r.1 - 1) * 64) 64, r.2)

theorem mem_nodePositions {ids : Numbering (PSNode N)} {t t' : PSNode N} {id k : Nat}
    (hid : ids.find t' = some id) (hk : k < 64) :
    (id - 1) * 64 + k ∈ (nodePositions ids t).1 ↔ t' = t := by
  rcases ids.getID_spec t with ⟨hfind, hids⟩
  have hfind' := hids _ _ hid
  rcases Numbering.getElem?_of_find hfind with ⟨hpos, -⟩
  rcases Numbering.getElem?_of_find hid with ⟨hpos', -⟩
  rw [nodePositions, List.mem_range'_1]
  -- the 64 positions of two numbers do not meet
  constructor
  · intro h
    have hsame : id = (ids.getID t).1 := by omega
    rw [hsame] at hfind'
    exact Numbering.find_inj hfind' hfind
  · rintro rfl
    rw [hfind'] at hfind
    rw [← Option.some.inj hfind]
    omega

/-- Each target has 64 positions, for the small offsets and the unknown one. -/
def Encoding.byTarget (multiplier : Nat) : Encoding N (PSNode N) where
  key p := p.target
  isOffsetValid := isSmall multiplier
  getPosition id off := (id - 1) * 64 + slot multiplier off
  index i := (i - i % 64) / 64
  pointer t i :=
    ⟨t, if i % 64 = 63 then .unknown else ⟨BitVec.ofNat 64 (i % 64 * multiplier)⟩⟩
  toRemove ids _ t := nodePositions ids t
  targetPositions := nodePositions
  removed _ reports := reports.any fun report => report
  unknown_valid := rfl
  index_getPosition := by
    intro id off _ hvalid
    have hlt := slot_lt hvalid
    omega
  pointer_getPosition := by
    intro id p _ hvalid
    have hlt := slot_lt hvalid
    have hmod : ((id - 1) * 64 + slot multiplier p.offset) % 64 = slot multiplier p.offset := by
      omega
    rw [hmod, offset_of_slot hvalid]
  toRemove_preserves ids _ t := (ids.getID_spec t).2
  mem_toRemove := by
    intro ids v t p id hvalid hid _
    exact mem_nodePositions hid (slot_lt hvalid)
  targetPositions_preserves ids t := (ids.getID_spec t).2
  mem_targetPositions := by
    intro ids t p id hvalid hid
    exact mem_nodePositions hid (slot_lt hvalid)

/-- `SmallOffsetsPointsToSet`: the offsets up to 62. -/
def smallOffsetsPointsToSet : Encoding N (PSNode N) := .byTarget 1

/-- `AlignedSmallOffsetsPointsToSet`, with the multiplier 4. -/
def alignedSmallOffsetsPointsToSet : Encoding N (PSNode N) := .byTarget 4

/-! ## Runs -/

/-- An operation on one of many sets. -/
inductive SetOp (N : Type u) where
  | add (i : Nat) (p : Pointer N)
  | union (i j : Nat)
  | pointsTo (i : Nat) (p : Pointer N)
  | mayPointTo (i : Nat) (p : Pointer N)
  | pointsToTarget (i : Nat) (t : PSNode N)

/-- The sets of a class, and the numbers that they share. -/
structure Sets (N K : Type u) where
  ids : Numbering K
  sets : Nat → EncodedSet N

namespace Sets

variable [DecidableEq K] (E : Encoding N K)

def empty : Sets N K := ⟨.empty, fun _ => .empty⟩

/-- One operation. A query may give numbers to keys. -/
def step (s : Sets N K) : SetOp N → Sets N K
  | .add i p =>
      let r := E.add (s.sets i) p s.ids
      ⟨r.2, Function.update s.sets i r.1.1⟩
  | .union i j => ⟨s.ids, Function.update s.sets i (Encoding.union (s.sets i) (s.sets j)).1⟩
  | .pointsTo i p => ⟨(E.pointsTo (s.sets i) p s.ids).2, s.sets⟩
  | .mayPointTo i p => ⟨(E.mayPointTo (s.sets i) p s.ids).2, s.sets⟩
  | .pointsToTarget i t => ⟨(E.pointsToTarget (s.sets i) t s.ids).2, s.sets⟩

def run (ops : List (SetOp N)) : Sets N K := ops.foldl (step E) empty

end Sets

namespace SimplePointsToSet

/-- The same operation on plain sets. -/
def step (sets : Nat → PointsToSet N) : SetOp N → Nat → PointsToSet N
  | .add i p => Function.update sets i (add p (sets i)).1
  | .union i j => Function.update sets i (union (sets j) (sets i)).1
  | .pointsTo _ _ => sets
  | .mayPointTo _ _ => sets
  | .pointsToTarget _ _ => sets

def run (ops : List (SetOp N)) : Nat → PointsToSet N := ops.foldl step fun _ => .empty

end SimplePointsToSet

section Refinement

variable [DecidableEq K] (E : Encoding N K)

/-- All sets have the pointers of the plain ones. -/
def SetsEncode (s : Sets N K) (sets : Nat → PointsToSet N) : Prop :=
  ∀ i, Encoding.Encodes E s.ids (s.sets i) (sets i)

variable {E} in
omit [DecidableEq N] in
theorem SetsEncode.update {s : Sets N K} {sets : Nat → PointsToSet N} (h : SetsEncode E s sets)
    {ids : Numbering K} (hids : s.ids.Preserves ids) {i : Nat} {S : EncodedSet N} {T : PointsToSet N}
    (hS : Encoding.Encodes E ids S T) :
    SetsEncode E ⟨ids, Function.update s.sets i S⟩ (Function.update sets i T) := by
  intro j
  show Encoding.Encodes E ids (Function.update s.sets i S j) (Function.update sets i T j)
  by_cases hj : j = i
  · subst hj
    rw [Function.update_self, Function.update_self]
    exact hS
  · rw [Function.update_of_ne hj, Function.update_of_ne hj]
    exact (h j).preserves hids

variable {E} in
/-- One operation keeps the simulation. -/
theorem SetsEncode.step {s : Sets N K} {sets : Nat → PointsToSet N} (h : SetsEncode E s sets)
    (op : SetOp N) : SetsEncode E (s.step E op) (SimplePointsToSet.step sets op) := by
  cases op with
  | add i p =>
      rcases (h i).add p with ⟨hadd, -, hids⟩
      rw [← SimplePointsToSet.add_eq] at hadd
      exact h.update hids hadd
  | union i j => exact h.update (.refl s.ids) ((h i).union (h j))
  | pointsTo i p => exact fun j => (h j).preserves ((h i).pointsTo p).2
  | mayPointTo i p => exact fun j => (h j).preserves ((h i).mayPointTo p).2
  | pointsToTarget i t => exact fun j => (h j).preserves ((h i).pointsToTarget t).2

theorem setsEncode_run (ops : List (SetOp N)) :
    SetsEncode E (Sets.run E ops) (SimplePointsToSet.run ops) := by
  induction ops using List.reverseRecOn with
  | nil => exact fun i => .empty _
  | append_singleton ops op ih =>
      rw [Sets.run, SimplePointsToSet.run, List.foldl_append, List.foldl_append]
      exact ih.step op

/-- Additions and unions report the changes that the plain sets report. -/
theorem reports_eq (ops : List (SetOp N)) (i : Nat) :
    (∀ p, (E.add ((Sets.run E ops).sets i) p (Sets.run E ops).ids).1.2 =
      (SimplePointsToSet.add p (SimplePointsToSet.run ops i)).2) ∧
    ∀ j, (Encoding.union ((Sets.run E ops).sets i) ((Sets.run E ops).sets j)).2 =
      (SimplePointsToSet.union (SimplePointsToSet.run ops j) (SimplePointsToSet.run ops i)).2 := by
  have h := setsEncode_run E ops
  constructor
  · intro p
    rw [SimplePointsToSet.add_eq]
    exact ((h i).add p).2.1
  · exact fun j => (h i).union_report (h j)

/-- After a run, every set answers as the plain set does: it has the same pointers and the same size,
and the iteration gives each of them exactly once. -/
structure RefinesSimple (ops : List (SetOp N)) (i : Nat) : Prop where
  pointsTo : ∀ p, (E.pointsTo ((Sets.run E ops).sets i) p (Sets.run E ops).ids).1 =
    (SimplePointsToSet.run ops i).has p
  mayPointTo : ∀ p, (E.mayPointTo ((Sets.run E ops).sets i) p (Sets.run E ops).ids).1 = true ↔
    (SimplePointsToSet.run ops i).Covers p
  pointsToTarget : ∀ t, (E.pointsToTarget ((Sets.run E ops).sets i) t (Sets.run E ops).ids).1 =
    (SimplePointsToSet.run ops i).pointsToTarget t
  size : ((Sets.run E ops).sets i).size = (SimplePointsToSet.run ops i).pointers.length
  elements : ∃ l, E.elements ((Sets.run E ops).sets i) (Sets.run E ops).ids = some l ∧ l.Nodup ∧
    ∀ p, p ∈ l ↔ p ∈ SimplePointsToSet.run ops i

theorem refinesSimple (ops : List (SetOp N)) (i : Nat) : RefinesSimple E ops i := by
  have h := setsEncode_run E ops i
  constructor
  case pointsTo => exact fun p => (h.pointsTo p).1
  case mayPointTo => exact fun p => (h.mayPointTo p).1
  case pointsToTarget => exact fun t => (h.pointsToTarget t).1
  case size => exact h.size
  case elements =>
    rcases h.elements with ⟨l, hl, hnodup, hmem, -⟩
    exact ⟨l, hl, hnodup, hmem⟩

end Refinement

/-- **The encoded points-to sets refine the plain one.** -/
theorem encoded_refine_simple (ops : List (SetOp N)) (i : Nat) :
    RefinesSimple pointerIdPointsToSet ops i ∧ RefinesSimple smallOffsetsPointsToSet ops i ∧
      RefinesSimple alignedSmallOffsetsPointsToSet ops i ∧
      RefinesSimple alignedPointerIdPointsToSet ops i :=
  ⟨refinesSimple _ ops i, refinesSimple _ ops i, refinesSimple _ ops i, refinesSimple _ ops i⟩

/-- Two targets, offsets that have a position and one that has none, and a union. -/
example :
    let ops : List (SetOp Nat) := [.add 0 ⟨.node 1, 8⟩, .add 0 ⟨.node 2, 9⟩, .add 1 ⟨.node 1, 300⟩,
      .union 0 1]
    alignedSmallOffsetsPointsToSet.elements
        ((Sets.run alignedSmallOffsetsPointsToSet ops).sets 0)
        (Sets.run alignedSmallOffsetsPointsToSet ops).ids =
      some [⟨.node 1, 8⟩, ⟨.node 2, 9⟩, ⟨.node 1, 300⟩] := by
  decide

end Cape.PointerAnalysis
