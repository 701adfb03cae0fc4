import Cape.ADT.Bitvector
import Cape.Library.Numbering
import Cape.PointerAnalysis.PointsToSet

/-!
# Targets and offsets apart

`SeparateOffsetsPointsToSet` keeps the targets and the offsets of its pointers in two vectors: it has
all pairs. `Known` says what the numbers in the vectors are.
-/

set_option autoImplicit false

namespace Cape.PointerAnalysis

open Cape.Library

universe u

variable {N : Type u}

/-- `SeparateOffsetsPointsToSet`. -/
structure SeparateOffsetsPointsToSet where
  nodes : SparseBitvector
  offsets : SparseBitvector

namespace SeparateOffsetsPointsToSet

def empty : SeparateOffsetsPointsToSet := ⟨.empty, .empty⟩

/-- `add` of a set. -/
def union (rhs S : SeparateOffsetsPointsToSet) : SeparateOffsetsPointsToSet × Bool :=
  let n := S.nodes.union rhs.nodes
  let o := S.offsets.union rhs.offsets
  (⟨n.1, o.1⟩, o.2 || n.2)

def isSingleton (S : SeparateOffsetsPointsToSet) : Bool := S.nodes.size = 1 && S.offsets.size = 1

variable [DecidableEq N]

def add (S : SeparateOffsetsPointsToSet) (p : Pointer N) (ids : Numbering (PSNode N)) :
    (SeparateOffsetsPointsToSet × Bool) × Numbering (PSNode N) :=
  let r := ids.getID p.target
  let n := S.nodes.set r.1
  -- with the unknown offset, only the target is added
  if S.offsets.get Offset.unknown.toNat then ((⟨n.1, S.offsets⟩, !n.2), r.2)
  else
    let o := (if p.offset.isUnknown then .empty else S.offsets).set p.offset.toNat
    ((⟨n.1, o.1⟩, !o.2 || !n.2), r.2)

/-- `pointsTo`, which is also `count` and `has`. -/
def pointsTo (S : SeparateOffsetsPointsToSet) (p : Pointer N) (ids : Numbering (PSNode N)) :
    Bool × Numbering (PSNode N) :=
  let r := ids.getID p.target
  (S.nodes.get r.1 && S.offsets.get p.offset.toNat, r.2)

def mustPointTo (S : SeparateOffsetsPointsToSet) (p : Pointer N) (ids : Numbering (PSNode N)) :
    Bool × Numbering (PSNode N) :=
  if S.nodes.size = 1 || S.offsets.size = 1 then S.pointsTo p ids else (false, ids)

/-! ## What is in the vectors -/

/-- The numbers of the nodes have been given, and the offsets are 64-bit numbers. -/
structure Known (ids : Numbering (PSNode N)) (S : SeparateOffsetsPointsToSet) : Prop where
  nodes : ∀ i, S.nodes.get i = true → ∃ t, ids.find t = some i
  offsets : ∀ i, S.offsets.get i = true → i < 2 ^ 64

variable {ids ids' : Numbering (PSNode N)} {S : SeparateOffsetsPointsToSet}

theorem Known.empty (ids : Numbering (PSNode N)) : Known ids .empty where
  nodes := nofun
  offsets := nofun

theorem Known.preserves (h : Known ids S) (hids : ids.Preserves ids') : Known ids' S where
  nodes i hi := by
    rcases h.nodes i hi with ⟨t, ht⟩
    exact ⟨t, hids _ _ ht⟩
  offsets := h.offsets

theorem Known.add (h : Known ids S) (p : Pointer N) :
    Known (S.add p ids).2 (S.add p ids).1.1 ∧ ids.Preserves (S.add p ids).2 := by
  rcases ids.getID_spec p.target with ⟨hid, hids⟩
  have hnodes : ∀ i, (S.nodes.set (ids.getID p.target).1).1.get i = true →
      ∃ t, (ids.getID p.target).2.find t = some i := by
    intro i hi
    rw [SparseBitvector.get_set] at hi
    split at hi
    · next heq => exact ⟨p.target, heq ▸ hid⟩
    · exact (h.preserves hids).nodes i hi
  have hoffsets : ∀ {v : SparseBitvector}, (∀ i, v.get i = true → i < 2 ^ 64) →
      ∀ i, (v.set p.offset.toNat).1.get i = true → i < 2 ^ 64 := by
    intro v hv i hi
    rw [SparseBitvector.get_set] at hi
    split at hi
    · next heq =>
        rw [heq]
        exact p.offset.toNat_lt
    · exact hv i hi
  rw [SeparateOffsetsPointsToSet.add]
  split
  · exact ⟨⟨hnodes, h.offsets⟩, hids⟩
  · refine ⟨⟨hnodes, ?_⟩, hids⟩
    split
    · apply hoffsets
      intro i hi
      rw [SparseBitvector.get_empty] at hi
      cases hi
    · exact hoffsets h.offsets

theorem Known.union (h : Known ids S) {rhs : SeparateOffsetsPointsToSet} (hrhs : Known ids rhs) :
    Known ids (union rhs S).1 where
  nodes i hi := by
    have hi : (S.nodes.union rhs.nodes).1.get i = true := hi
    rw [SparseBitvector.get_union, Bool.or_eq_true] at hi
    exact hi.elim (h.nodes i) (hrhs.nodes i)
  offsets i hi := by
    have hi : (S.offsets.union rhs.offsets).1.get i = true := hi
    rw [SparseBitvector.get_union, Bool.or_eq_true] at hi
    exact hi.elim (h.offsets i) (hrhs.offsets i)

theorem pointsTo_preserves (S : SeparateOffsetsPointsToSet) (p : Pointer N)
    (ids : Numbering (PSNode N)) : ids.Preserves (S.pointsTo p ids).2 := (ids.getID_spec p.target).2

/-- One target and one offset are one pointer. -/
theorem Known.exists_pointer (h : Known ids S) (hsingle : S.isSingleton = true) :
    ∃ p : Pointer N, ∀ q, (S.pointsTo q ids).1 = true ↔ q = p := by
  rw [isSingleton, Bool.and_eq_true, decide_eq_true_eq, decide_eq_true_eq,
    SparseBitvector.size_eq, SparseBitvector.size_eq, List.length_eq_one_iff,
    List.length_eq_one_iff] at hsingle
  rcases hsingle with ⟨⟨i, hi⟩, ⟨j, hj⟩⟩
  have hnode : ∀ k, S.nodes.get k = true ↔ k = i := by
    intro k
    rw [← SparseBitvector.mem_elements, hi, List.mem_singleton]
  have hoffset : ∀ k, S.offsets.get k = true ↔ k = j := by
    intro k
    rw [← SparseBitvector.mem_elements, hj, List.mem_singleton]
  -- the number is that of a target, and the offset is a 64-bit one
  rcases h.nodes i ((hnode i).2 rfl) with ⟨t, ht⟩
  have hlt := h.offsets j ((hoffset j).2 rfl)
  have hback : (⟨BitVec.ofNat 64 j⟩ : Offset).toNat = j := Nat.mod_eq_of_lt hlt
  refine ⟨⟨t, ⟨BitVec.ofNat 64 j⟩⟩, fun q => ?_⟩
  rcases ids.getID_spec q.target with ⟨hid, hids⟩
  rw [pointsTo, Bool.and_eq_true, hnode, hoffset]
  constructor
  · rintro ⟨hq, hq'⟩
    rw [hq] at hid
    have htarget := Numbering.find_inj hid (hids _ _ ht)
    have hoff : q.offset = ⟨BitVec.ofNat 64 j⟩ := by
      rw [Offset.eq_iff, hback]
      exact hq'
    cases q
    cases htarget
    cases hoff
    rfl
  · rintro rfl
    have hsame := hids _ _ ht
    rw [hid] at hsame
    exact ⟨Option.some.inj hsame, hback⟩

end SeparateOffsetsPointsToSet

end Cape.PointerAnalysis
