import Cape.ADT.BitvectorRuns
import Cape.PointerAnalysis.MustPointToRuns

/-!
# What removals report

A removal takes out exactly what it is asked to. `unset` reports that the word of the bit is there, so
`remove` of a pointer that is not in the set may report a change: if another pointer has its position
in the same word (`removal_right_iff`). `removeAny` reports the change.
-/

set_option autoImplicit false

namespace Cape

/-! ## Bitvectors -/

namespace SparseBitvector

/-- The report of `unset` is that the bit was there; this bit is gone, and the others are kept. -/
structure UnsetRight (v : SparseBitvector) (i : Nat) : Prop where
  report : (v.unset i).2 = true ↔ v.get i = true
  gone : ∀ j, (v.unset i).1.get j = true ↔ j ≠ i ∧ v.get j = true

theorem get_unset_iff (v : SparseBitvector) (i j : Nat) :
    (v.unset i).1.get j = true ↔ j ≠ i ∧ v.get j = true := by
  rw [get_unset]
  by_cases hj : j = i
  · simp [hj]
  · simp [hj]

/-- **Where `unset` is right**: at a bit that is there, and in a word without bits. -/
theorem unsetRight_iff (v : SparseBitvector) (i : Nat) :
    v.UnsetRight i ↔ v.get i = true ∨ ∀ j, shift j = shift i → v.get j = false := by
  constructor
  · intro h
    by_contra hnot
    rcases not_or.1 hnot with ⟨hget, hword⟩
    rcases not_forall.1 hword with ⟨j, hj⟩
    rcases Classical.not_imp.1 hj with ⟨hshift, hbit⟩
    apply hget
    apply h.report.1
    exact (v.unset_report i).2 ⟨j, hshift, Bool.not_eq_false _ ▸ hbit⟩
  · intro h
    refine ⟨?_, v.get_unset_iff i⟩
    rw [unset_report]
    constructor
    · rintro ⟨j, hshift, hbit⟩
      rcases h with hget | hword
      · exact hget
      · rw [hword j hshift] at hbit
        cases hbit
    · exact fun hget => ⟨i, rfl, hget⟩

end SparseBitvector

namespace PointerAnalysis

open Cape.Library

universe u

variable {N K : Type u} [DecidableEq N] [DecidableEq K]

namespace Encoding

open SparseBitvector (shift)

/-! ## Removal of positions -/

omit [DecidableEq N] [DecidableEq K] in
/-- A report says that a word of one of the positions has a bit. -/
theorem exists_of_unsetAll_report {v : SparseBitvector} {is : List Nat}
    (h : (unsetAll v is).2.any (fun report => report) = true) :
    ∃ i ∈ is, ∃ j, shift j = shift i ∧ v.get j = true := by
  induction is generalizing v with
  | nil => cases h
  | cons i is ih =>
      rw [unsetAll, List.any_cons, Bool.or_eq_true] at h
      rcases h with h | h
      · exact ⟨i, List.mem_cons_self, (v.unset_report i).1 h⟩
      · rcases ih h with ⟨i', hi', j, hshift, hget⟩
        exact ⟨i', List.mem_cons_of_mem i hi', j, hshift, ((v.get_unset_iff i j).1 hget).2⟩

omit [DecidableEq N] [DecidableEq K] in
/-- A position that is there is reported, or one before it in its word. -/
theorem unsetAll_report_of_mem {v : SparseBitvector} {is : List Nat} {i : Nat} (hi : i ∈ is)
    (hget : v.get i = true) : (unsetAll v is).2.any (fun report => report) = true := by
  induction is generalizing v with
  | nil => cases hi
  | cons k is ih =>
      rw [unsetAll, List.any_cons, Bool.or_eq_true]
      by_cases hreport : (v.unset k).2 = true
      · exact Or.inl hreport
      · -- the word of `k` has no bit, so `i` comes later
        right
        have hsame := SparseBitvector.unset_of_not_report (Bool.eq_false_iff.2 hreport)
        rcases List.mem_cons.1 hi with rfl | hi
        · exact absurd ((v.unset_report i).2 ⟨i, rfl, hget⟩) hreport
        · apply ih hi
          rw [hsame]
          exact hget

variable (E : Encoding N K)

/-- The report of `removeAny` says that one of the positions was there. -/
def ReportsPositions : Prop :=
  ∀ (ids : Numbering K) v t,
    E.removed (E.toRemove ids v t).1 (unsetAll v (E.toRemove ids v t).1).2 = true ↔
      ∃ i ∈ (E.toRemove ids v t).1, v.get i = true

theorem reportsPositions_byPointer (isOffsetValid : Offset → Bool)
    (hunknown : isOffsetValid .unknown = true) :
    (Encoding.byPointer (N := N) isOffsetValid hunknown).ReportsPositions := by
  intro ids v t
  show (!(List.filter _ v.elements).isEmpty) = true ↔ ∃ i ∈ List.filter _ v.elements, v.get i = true
  rw [Bool.not_eq_true', ← Bool.not_eq_true, List.isEmpty_iff]
  constructor
  · intro hne
    rcases List.exists_mem_of_ne_nil _ hne with ⟨i, hi⟩
    exact ⟨i, hi, SparseBitvector.mem_elements.1 (List.mem_filter.1 hi).1⟩
  · rintro ⟨i, hi, -⟩
    exact List.ne_nil_of_mem hi

theorem reportsPositions_byTarget (multiplier : Nat) :
    (Encoding.byTarget (N := N) multiplier).ReportsPositions := by
  intro ids v t
  constructor
  · intro h
    rcases exists_of_unsetAll_report h with ⟨i, hi, j, hshift, hget⟩
    refine ⟨j, ?_, hget⟩
    -- the positions of a target are one word
    have hi : i ∈ List.range' (((ids.getID t).1 - 1) * 64) 64 := hi
    show j ∈ List.range' (((ids.getID t).1 - 1) * 64) 64
    rw [List.mem_range'_1] at *
    rw [shift, shift] at hshift
    omega
  · rintro ⟨i, hi, hget⟩
    exact unsetAll_report_of_mem hi hget

variable {E} {ids : Numbering K} {S : EncodedSet N} {T : PointsToSet N}

/-- What `removeAny` reports. -/
theorem Encodes.removeAny_report (h : Encodes E ids S T) (hE : E.ReportsPositions) (t : PSNode N) :
    (E.removeAny S t ids).1.2 = true ↔ ∃ p ∈ T, p.target = t := by
  show (E.removed (E.toRemove ids S.pointers t).1 (unsetAll S.pointers
    (E.toRemove ids S.pointers t).1).2 || S.overflow.pointsToTarget t) = true ↔ _
  rw [Bool.or_eq_true, hE, PointsToSet.pointsToTarget, List.any_eq_true]
  constructor
  · rintro (⟨i, hi, hget⟩ | ⟨p, hp, ht⟩)
    · rcases (h.bits i).1 hget with ⟨p, hp, hvalid, id, hid, rfl⟩
      exact ⟨p, hp, (E.mem_toRemove ids S.pointers t p id hvalid hid hget).1 hi⟩
    · exact ⟨p, ((h.overflow p).1 hp).1, of_decide_eq_true ht⟩
  · rintro ⟨p, hp, ht⟩
    by_cases hvalid : E.isOffsetValid p.offset = true
    · left
      rcases h.registered p hp hvalid with ⟨id, hid⟩
      have hget := (h.get_iff hvalid hid).2 hp
      exact ⟨_, (E.mem_toRemove ids S.pointers t p id hvalid hid hget).2 ht, hget⟩
    · exact Or.inr ⟨p, (h.overflow p).2 ⟨hp, Bool.eq_false_iff.2 hvalid⟩, decide_eq_true ht⟩

variable (E) in
/-- Another pointer has its position in the word in which the pointer has, or gets, its own. -/
def SameWord (ids : Numbering K) (p q : Pointer N) : Prop :=
  E.isOffsetValid p.offset = true ∧ E.isOffsetValid q.offset = true ∧
    ∃ id, ids.find (E.key q) = some id ∧
      shift (E.getPosition id q.offset) = shift (E.position ids p).1

/-- What `remove` reports. -/
theorem Encodes.remove_report (h : Encodes E ids S T) (p : Pointer N) :
    (E.remove S p ids).1.2 = true ↔ p ∈ T ∨ ∃ q ∈ T, E.SameWord ids p q := by
  rw [Encoding.remove]
  split
  · next hvalid =>
      show (S.pointers.unset (E.position ids p).1).2 = true ↔ _
      rw [SparseBitvector.unset_report]
      constructor
      · rintro ⟨j, hshift, hget⟩
        rcases (h.bits j).1 hget with ⟨q, hq, hvalid', id, hid, rfl⟩
        exact Or.inr ⟨q, hq, hvalid, hvalid', id, hid, hshift⟩
      · rintro (hp | ⟨q, hq, -, hvalid', id, hid, hshift⟩)
        · rcases position_spec E ids p with ⟨id, hid, hposition, hids⟩
          refine ⟨_, rfl, ?_⟩
          rw [hposition]
          exact ((h.preserves hids).get_iff hvalid hid).2 hp
        · exact ⟨_, hshift, (h.get_iff hvalid' hid).2 hq⟩
  · next hvalid =>
      refine (decide_eq_true_iff.trans (h.overflow p)).trans ?_
      rw [and_iff_left (Bool.eq_false_iff.2 hvalid)]
      refine (or_iff_left ?_).symm
      rintro ⟨q, hq, hvalid', -⟩
      exact hvalid hvalid'

end Encoding

/-! ## Removals after a run -/

section Runs

variable (E : Encoding N K)

/-- The pointers of a set. -/
def Sets.Has (s : Sets N K) (a : Nat) (p : Pointer N) : Prop :=
  (E.pointsTo (s.sets a) p s.ids).1 = true

/-- The report of `remove` is that the pointer was there; it is gone, and all others are kept, also in
the other sets. -/
structure Sets.RemoveRight (s : Sets N K) (a : Nat) (p : Pointer N) : Prop where
  report : (E.remove (s.sets a) p s.ids).1.2 = true ↔ s.Has E a p
  gone : ∀ b q, (s.change E (.remove a p)).Has E b q ↔ s.Has E b q ∧ ¬ (b = a ∧ q = p)

/-- The report of `removeAny` is that there was a pointer to the target; all of these are gone, and
all others are kept. -/
structure Sets.RemoveAnyRight (s : Sets N K) (a : Nat) (t : PSNode N) : Prop where
  report : (E.removeAny (s.sets a) t s.ids).1.2 = true ↔ ∃ p, s.Has E a p ∧ p.target = t
  gone : ∀ b q, (s.change E (.removeAny a t)).Has E b q ↔ s.Has E b q ∧ ¬ (b = a ∧ q.target = t)

variable {E} {s : Sets N K} {sets : Nat → PointsToSet N}

theorem SetsEncode.has_iff (h : SetsEncode E s sets) (a : Nat) (p : Pointer N) :
    s.Has E a p ↔ p ∈ sets a := by
  rw [Sets.Has, ((h a).pointsTo p).1]
  exact decide_eq_true_iff

/-- One set is another one. -/
theorem SetsEncode.has_update {s' : Sets N K} {a : Nat} {T : PointsToSet N}
    (h' : SetsEncode E s' (Function.update sets a T)) (h : SetsEncode E s sets)
    {C : Pointer N → Prop} (hT : ∀ q, q ∈ T ↔ q ∈ sets a ∧ ¬ C q) (b : Nat) (q : Pointer N) :
    s'.Has E b q ↔ s.Has E b q ∧ ¬ (b = a ∧ C q) := by
  rw [h'.has_iff, h.has_iff]
  by_cases hb : b = a
  · subst hb
    rw [Function.update_self, hT]
    simp
  · rw [Function.update_of_ne hb]
    simp [hb]

theorem SetsEncode.remove_gone (h : SetsEncode E s sets) (a : Nat) (p : Pointer N) (b : Nat)
    (q : Pointer N) :
    (s.change E (.remove a p)).Has E b q ↔ s.Has E b q ∧ ¬ (b = a ∧ q = p) := by
  rcases (h a).remove p with ⟨hremove, hids⟩
  exact (h.update hids hremove).has_update h ((sets a).mem_remove p) b q

/-- `removeAny` is right. -/
theorem SetsEncode.removeAnyRight (h : SetsEncode E s sets) (hE : E.ReportsPositions) (a : Nat)
    (t : PSNode N) : s.RemoveAnyRight E a t := by
  constructor
  case report =>
    rw [(h a).removeAny_report hE t]
    exact exists_congr fun p => and_congr_left' (h.has_iff a p).symm
  case gone =>
    rcases (h a).removeAny t with ⟨hremove, hids⟩
    exact (h.update hids hremove).has_update h ((sets a).mem_removeAny t)

/-- **Where `remove` is right**: for a pointer that is there, and where no pointer has its position in
the same word. -/
theorem SetsEncode.removeRight_iff (h : SetsEncode E s sets) (a : Nat) (p : Pointer N) :
    s.RemoveRight E a p ↔ s.Has E a p ∨ ∀ q, s.Has E a q → ¬ E.SameWord s.ids p q := by
  simp only [h.has_iff]
  constructor
  · intro hright
    have hreport := hright.report
    rw [(h a).remove_report p, h.has_iff] at hreport
    by_contra hnot
    rcases not_or.1 hnot with ⟨hp, hword⟩
    rcases not_forall.1 hword with ⟨q, hq⟩
    rcases Classical.not_imp.1 hq with ⟨hq, hsame⟩
    exact hp (hreport.1 (Or.inr ⟨q, hq, not_not.1 hsame⟩))
  · intro hfits
    refine ⟨?_, h.remove_gone a p⟩
    rw [(h a).remove_report p, h.has_iff]
    refine or_iff_left_of_imp ?_
    rintro ⟨q, hq, hsame⟩
    exact hfits.resolve_right fun hnone => hnone q hq hsame

/-- With numbers for pointers, the words are those of the numbers. -/
theorem sameWord_pointerId_iff (ids : Numbering (Pointer N)) (p q : Pointer N) :
    pointerIdPointsToSet.SameWord ids p q ↔ ∃ id, ids.find q = some id ∧
      SparseBitvector.shift id = SparseBitvector.shift (ids.getID p).1 :=
  (and_iff_right rfl).trans (and_iff_right rfl)

/-- With numbers for targets, the word of a pointer is that of its target. -/
theorem sameWord_smallOffsets_iff {ids : Numbering (PSNode N)} {p q : Pointer N}
    (hq : isSmall 1 q.offset = true → ∃ id, ids.find q.target = some id) :
    smallOffsetsPointsToSet.SameWord ids p q ↔
      isSmall 1 p.offset = true ∧ isSmall 1 q.offset = true ∧ q.target = p.target := by
  refine and_congr_right fun hp => and_congr_right fun hvalid => ?_
  rcases ids.getID_spec p.target with ⟨hfind, hids⟩
  rcases Numbering.getElem?_of_find hfind with ⟨hpos, -⟩
  have hslot := slot_lt hp
  have hslot' := slot_lt hvalid
  constructor
  · rintro ⟨id, hid, hshift⟩
    have hid : ids.find q.target = some id := hid
    rcases Numbering.getElem?_of_find hid with ⟨hpos', -⟩
    -- the same word, so the same number
    have hshift : SparseBitvector.shift ((id - 1) * 64 + slot 1 q.offset) =
        SparseBitvector.shift (((ids.getID p.target).1 - 1) * 64 + slot 1 p.offset) := hshift
    rw [SparseBitvector.shift, SparseBitvector.shift] at hshift
    have hsame : id = (ids.getID p.target).1 := by omega
    have hfind' := hids _ _ hid
    rw [hsame] at hfind'
    exact Numbering.find_inj hfind' hfind
  · intro htarget
    rcases hq hvalid with ⟨id, hid⟩
    have hfind' := hids _ _ hid
    rw [htarget, hfind] at hfind'
    refine ⟨id, hid, ?_⟩
    show SparseBitvector.shift ((id - 1) * 64 + slot 1 q.offset) =
      SparseBitvector.shift (((ids.getID p.target).1 - 1) * 64 + slot 1 p.offset)
    rw [Option.some.inj hfind', SparseBitvector.shift, SparseBitvector.shift]
    omega

end Runs

/-- **Where removals are right**, in every vector and every set that is reached: `removeAny` always,
`unset` and `remove` if what is removed is there or nothing else is in its word. The word of a pointer
is that of its number, or that of its target for the small offsets. -/
theorem removal_right_iff (vops : List SparseBitvector.Op) (ops : List (ChangeOp N)) (a : Nat) :
    (∀ i, (SparseBitvector.run vops a).UnsetRight i ↔ (SparseBitvector.run vops a).get i = true ∨
      ∀ j, SparseBitvector.shift j = SparseBitvector.shift i →
        (SparseBitvector.run vops a).get j = false) ∧
    (∀ p, (Sets.changed pointerIdPointsToSet ops).RemoveRight pointerIdPointsToSet a p ↔
      (Sets.changed pointerIdPointsToSet ops).Has pointerIdPointsToSet a p ∨
        ∀ q id, (Sets.changed pointerIdPointsToSet ops).Has pointerIdPointsToSet a q →
          (Sets.changed pointerIdPointsToSet ops).ids.find q = some id →
            SparseBitvector.shift id ≠
              SparseBitvector.shift ((Sets.changed pointerIdPointsToSet ops).ids.getID p).1) ∧
    (∀ t, (Sets.changed pointerIdPointsToSet ops).RemoveAnyRight pointerIdPointsToSet a t) ∧
    (∀ p, (Sets.changed smallOffsetsPointsToSet ops).RemoveRight smallOffsetsPointsToSet a p ↔
      (Sets.changed smallOffsetsPointsToSet ops).Has smallOffsetsPointsToSet a p ∨
        isSmall 1 p.offset = false ∨
        ∀ q, (Sets.changed smallOffsetsPointsToSet ops).Has smallOffsetsPointsToSet a q →
          q.target = p.target → isSmall 1 q.offset = false) ∧
    ∀ t, (Sets.changed smallOffsetsPointsToSet ops).RemoveAnyRight smallOffsetsPointsToSet a t := by
  rcases setsEncode_changed pointerIdPointsToSet ops with ⟨sets, hsets⟩
  rcases setsEncode_changed smallOffsetsPointsToSet ops with ⟨sets', hsets'⟩
  refine ⟨SparseBitvector.unsetRight_iff _, fun p => ?_, fun t => ?_, fun p => ?_, fun t => ?_⟩
  · rw [hsets.removeRight_iff]
    refine or_congr_right ?_
    constructor
    · intro h q id hq hid hshift
      exact h q hq ((sameWord_pointerId_iff _ p q).2 ⟨id, hid, hshift⟩)
    · intro h q hq hsame
      rcases (sameWord_pointerId_iff _ p q).1 hsame with ⟨id, hid, hshift⟩
      exact h q id hq hid hshift
  · exact hsets.removeAnyRight (Encoding.reportsPositions_byPointer _ _) a t
  · rw [hsets'.removeRight_iff]
    refine or_congr_right ?_
    -- the targets of the pointers with a position have numbers
    have hword : ∀ q, (Sets.changed smallOffsetsPointsToSet ops).Has smallOffsetsPointsToSet a q →
        (smallOffsetsPointsToSet.SameWord (Sets.changed smallOffsetsPointsToSet ops).ids p q ↔
          isSmall 1 p.offset = true ∧ isSmall 1 q.offset = true ∧ q.target = p.target) := by
      intro q hq
      apply sameWord_smallOffsets_iff
      exact (hsets' a).registered q ((hsets'.has_iff a q).1 hq)
    constructor
    · intro h
      by_cases hp : isSmall 1 p.offset = true
      · right
        intro q hq htarget
        by_contra hsmall
        exact h q hq ((hword q hq).2 ⟨hp, Bool.not_eq_false _ ▸ hsmall, htarget⟩)
      · exact Or.inl (Bool.eq_false_iff.2 hp)
    · intro h q hq hsame
      rcases (hword q hq).1 hsame with ⟨hp, hsmall, htarget⟩
      rcases h with h | h
      · rw [h] at hp
        cases hp
      · rw [h q hq htarget] at hsmall
        cases hsmall
  · exact hsets'.removeAnyRight (Encoding.reportsPositions_byTarget 1) a t

/-- A number is removed that is not there, next to one that is; the same for pointers. -/
theorem removal_reports_word :
    ¬ (SparseBitvector.run [.set 0 1] 0).UnsetRight 2 ∧
    ¬ (Sets.changed pointerIdPointsToSet ([.add 0 ⟨.node 1, 0⟩] : List (ChangeOp Nat))).RemoveRight
      pointerIdPointsToSet 0 ⟨.node 2, 0⟩ ∧
    ¬ (Sets.changed smallOffsetsPointsToSet ([.add 0 ⟨.node 1, 0⟩] : List (ChangeOp Nat))).RemoveRight
      smallOffsetsPointsToSet 0 ⟨.node 1, 8⟩ := by
  refine ⟨fun h => ?_, fun h => ?_, fun h => ?_⟩
  · exact absurd (h.report.1 (by decide)) (by decide)
  · have hhas := h.report.1 (by decide)
    rw [Sets.Has] at hhas
    exact absurd hhas (by decide)
  · have hhas := h.report.1 (by decide)
    rw [Sets.Has] at hhas
    exact absurd hhas (by decide)

end PointerAnalysis

end Cape
