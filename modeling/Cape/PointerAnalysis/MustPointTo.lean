import Cape.PointerAnalysis.EncodedRuns
import Cape.PointerAnalysis.OffsetsSetPointsToSet
import Cape.PointerAnalysis.SeparateOffsetsPointsToSet

/-!
# Must-point-to

When `mustPointTo` and `isSingleton` say yes, there should be exactly one pointer in the set, at a
known offset of a known target. The equivalences say for each class of points-to sets in which sets
this holds (`mustRight_simple_iff`, `mustRight_encoded_iff`, `mustRight_iff`).
-/

set_option autoImplicit false

namespace Cape.PointerAnalysis

open Cape.Library

universe u

variable {N K : Type u} [DecidableEq N]

/-- A known offset of a known target. -/
def Pointer.IsKnown (p : Pointer N) : Prop := p.offset ≠ .unknown ∧ p.target ≠ .unknownMemory

/-- The set has exactly this pointer. -/
def Only (C : Pointer N → Prop) (p : Pointer N) : Prop := ∀ q, C q ↔ q = p

/-- What `mustPointTo` asserts: it is asked for a known offset. `SeparateOffsetsPointsToSet` does not
assert this. -/
def Pointer.Asserted (p : Pointer N) : Prop := p.offset ≠ .unknown

/-- What the answers are for, with the pointers that `mustPointTo` may be asked for. -/
structure MustRight (asked C : Pointer N → Prop) (mustPointTo : Pointer N → Bool)
    (isSingleton : Bool) : Prop where
  must : ∀ p, asked p → mustPointTo p = true → Only C p ∧ p.IsKnown
  single : isSingleton = true → ∃ p, Only C p ∧ p.IsKnown

omit [DecidableEq N] in
theorem Only.unique {C : Pointer N → Prop} {p p' : Pointer N} (h : Only C p) (h' : Only C p') :
    p = p' := (h' p).1 ((h p).2 rfl)

omit [DecidableEq N] in
/-- When `isSingleton` says that there is one pointer, it only has to be a known one. -/
theorem mustRight_iff_of_single {asked C : Pointer N → Prop} {mustPointTo : Pointer N → Bool}
    {isSingleton : Bool} (hmust : ∀ p, mustPointTo p = true ↔ C p ∧ isSingleton = true)
    (hsingle : isSingleton = true ↔ ∃ p, Only C p) :
    MustRight asked C mustPointTo isSingleton ↔ ∀ p, Only C p → p.IsKnown := by
  constructor
  · intro h p hp
    rcases h.single (hsingle.2 ⟨p, hp⟩) with ⟨p', hp', hknown⟩
    rw [hp.unique hp']
    exact hknown
  · intro h
    constructor
    · intro p _ hp
      rcases (hmust p).1 hp with ⟨hC, hone⟩
      rcases hsingle.1 hone with ⟨p', hp'⟩
      obtain rfl := (hp' p).1 hC
      exact ⟨hp', h p hp'⟩
    · intro hone
      rcases hsingle.1 hone with ⟨p, hp⟩
      exact ⟨p, hp, h p hp⟩

/-! ## Sets with a size -/

omit [DecidableEq N] in
theorem PointsToSet.length_eq_one_iff (T : PointsToSet N) :
    T.pointers.length = 1 ↔ ∃ p, Only (· ∈ T) p := by
  rw [List.length_eq_one_iff]
  constructor
  · rintro ⟨p, hp⟩
    refine ⟨p, fun q => ?_⟩
    show q ∈ T.pointers ↔ q = p
    rw [hp, List.mem_singleton]
  · rintro ⟨p, hp⟩
    refine ⟨p, ?_⟩
    have hperm : T.pointers.Perm [p] := by
      refine (List.perm_ext_iff_of_nodup T.nodup (List.nodup_singleton p)).2 fun q => ?_
      rw [List.mem_singleton]
      exact hp q
    exact List.perm_singleton.1 hperm

namespace SimplePointsToSet

omit [DecidableEq N] in
def isSingleton (S : PointsToSet N) : Bool := S.pointers.length = 1

def mustPointTo (S : PointsToSet N) (p : Pointer N) : Bool := S.has p && isSingleton S

end SimplePointsToSet

/-- `isSingleton` of the sets with pointers beside the bitvector. -/
def EncodedSet.isSingleton (S : EncodedSet N) : Bool :=
  (S.pointers.size = 1 && S.overflow.pointers.length = 0) ||
    (S.pointers.size = 0 && S.overflow.pointers.length = 1)

/-- `PointerIdPointsToSet::isSingleton`: there is only the bitvector. -/
def EncodedSet.isSingletonVector (S : EncodedSet N) : Bool := S.pointers.size = 1

/-- `mustPointTo`. -/
def Encoding.mustPointTo [DecidableEq K] (E : Encoding N K) (isSingleton : EncodedSet N → Bool)
    (S : EncodedSet N) (p : Pointer N) (ids : Numbering K) : Bool × Numbering K :=
  let r := E.pointsTo S p ids
  (r.1 && isSingleton S, r.2)

theorem mustRight_simple_iff (S : PointsToSet N) :
    MustRight Pointer.Asserted (· ∈ S) (SimplePointsToSet.mustPointTo S)
        (SimplePointsToSet.isSingleton S) ↔ ∀ p, Only (· ∈ S) p → p.IsKnown := by
  apply mustRight_iff_of_single
  · intro p
    rw [SimplePointsToSet.mustPointTo, Bool.and_eq_true]
    exact and_congr_left fun _ => decide_eq_true_iff
  · rw [SimplePointsToSet.isSingleton, decide_eq_true_eq, PointsToSet.length_eq_one_iff]

section Encoded

variable [DecidableEq K] {E : Encoding N K} {ids : Numbering K} {S : EncodedSet N}
  {T : PointsToSet N}

omit [DecidableEq N] in
theorem isSingleton_iff (h : Encoding.Encodes E ids S T) :
    S.isSingleton = true ↔ T.pointers.length = 1 := by
  rw [← h.size, EncodedSet.isSingleton, EncodedSet.size, Bool.or_eq_true, Bool.and_eq_true,
    Bool.and_eq_true, decide_eq_true_eq, decide_eq_true_eq, decide_eq_true_eq, decide_eq_true_eq]
  omega

omit [DecidableEq N] in
theorem isSingletonVector_iff (h : Encoding.Encodes E ids S T)
    (hvalid : ∀ off, E.isOffsetValid off = true) :
    S.isSingletonVector = true ↔ T.pointers.length = 1 := by
  have hnone : S.overflow.pointers = [] := by
    rw [List.eq_nil_iff_forall_not_mem]
    intro p hp
    have hnot := ((h.overflow p).1 hp).2
    rw [hvalid] at hnot
    cases hnot
  rw [← h.size, EncodedSet.isSingletonVector, EncodedSet.size, hnone, decide_eq_true_eq]
  exact Iff.rfl

theorem mustRight_encoded_iff (h : Encoding.Encodes E ids S T)
    {isSingleton : EncodedSet N → Bool}
    (hsingle : isSingleton S = true ↔ T.pointers.length = 1) :
    MustRight Pointer.Asserted (fun p => (E.pointsTo S p ids).1 = true)
        (fun p => (E.mustPointTo isSingleton S p ids).1) (isSingleton S) ↔
      ∀ p, Only (fun p => (E.pointsTo S p ids).1 = true) p → p.IsKnown := by
  apply mustRight_iff_of_single
  · intro p
    rw [Encoding.mustPointTo, Bool.and_eq_true]
  · rw [hsingle, PointsToSet.length_eq_one_iff]
    refine exists_congr fun p => forall_congr' fun q => ?_
    dsimp only
    rw [(h.pointsTo q).1]
    exact iff_congr decide_eq_true_iff.symm Iff.rfl

end Encoded

/-! ## Targets with offsets -/

namespace OffsetsSetPointsToSet

omit [DecidableEq N] in
theorem isSingleton_iff (S : OffsetsSetPointsToSet N) :
    S.isSingleton = true ↔ ∃ e, S.pointers.entries = [e] := by
  rw [isSingleton, decide_eq_true_eq, AList.keys, List.keys, List.length_map,
    List.length_eq_one_iff]

/-- The pointers of a set with one entry. -/
theorem pointsTo_iff {S : OffsetsSetPointsToSet N} {e : Sigma fun _ : PSNode N => SparseBitvector}
    (h : S.pointers.entries = [e]) (p : Pointer N) :
    S.pointsTo p = true ↔ p.target = e.1 ∧ e.2.get p.offset.toNat = true := by
  have hmem : ∀ t v, S.pointers.lookup t = some v ↔
      (⟨t, v⟩ : Sigma fun _ => SparseBitvector) = e := by
    intro t v
    rw [← Option.mem_def, AList.mem_lookup_iff, h, List.mem_singleton]
  rw [pointsTo]
  constructor
  · intro hp
    split at hp
    · cases hp
    · next v hv =>
        obtain rfl := (hmem _ _).1 hv
        exact ⟨rfl, hp⟩
  · rintro ⟨ht, hp⟩
    rw [ht, (hmem e.1 e.2).2 rfl]
    exact hp

/-- **Where the answers are right**: if there is one entry, it has one offset. -/
def MustFits (S : OffsetsSetPointsToSet N) : Prop :=
  ∀ e, S.pointers.entries = [e] → e.1 ≠ .unknownMemory ∧
    ∃ off : Offset, off ≠ .unknown ∧ ∀ i, e.2.get i = true ↔ i = off.toNat

theorem mustRight_iff {S : OffsetsSetPointsToSet N} (h : S.Bounded) :
    MustRight Pointer.Asserted (fun p => S.pointsTo p = true) S.mustPointTo S.isSingleton ↔
      S.MustFits := by
  constructor
  · intro hright e he
    rcases hright.single ((isSingleton_iff S).2 ⟨e, he⟩) with ⟨p, hp, hoff, ht⟩
    have hin := (pointsTo_iff he p).1 ((hp p).2 rfl)
    refine ⟨hin.1 ▸ ht, p.offset, hoff, fun i => ⟨fun hi => ?_, fun hi => hi ▸ hin.2⟩⟩
    -- each bit is an offset
    have hlookup : S.pointers.lookup e.1 = some e.2 := by
      rw [← Option.mem_def, AList.mem_lookup_iff, he]
      exact List.mem_singleton_self _
    have hback : (⟨BitVec.ofNat 64 i⟩ : Offset).toNat = i := Nat.mod_eq_of_lt (h _ _ hlookup i hi)
    have hin' : S.pointsTo ⟨e.1, ⟨BitVec.ofNat 64 i⟩⟩ = true := by
      apply (pointsTo_iff he _).2
      refine ⟨rfl, ?_⟩
      rw [hback]
      exact hi
    have hq := (hp ⟨e.1, ⟨BitVec.ofNat 64 i⟩⟩).1 hin'
    rw [← hback, ← hq]
  · intro hfits
    have hsingle : S.isSingleton = true →
        ∃ p, Only (fun p => S.pointsTo p = true) p ∧ p.IsKnown := by
      intro hone
      rcases (isSingleton_iff S).1 hone with ⟨e, he⟩
      rcases hfits e he with ⟨ht, off, hoff, hbits⟩
      refine ⟨⟨e.1, off⟩, fun q => ?_, hoff, ht⟩
      dsimp only
      rw [pointsTo_iff he, hbits, ← Offset.eq_iff]
      constructor
      · rintro ⟨hq, hq'⟩
        cases q
        cases hq
        cases hq'
        rfl
      · rintro rfl
        exact ⟨rfl, rfl⟩
    constructor
    case single => exact hsingle
    case must =>
      intro p _ hp
      rw [mustPointTo, Bool.and_eq_true] at hp
      rcases hsingle hp.2 with ⟨p', hp', hknown⟩
      obtain rfl := (hp' p).1 hp.1
      exact ⟨hp', hknown⟩

end OffsetsSetPointsToSet

/-! ## Targets and offsets apart -/

/-- A vector with two elements at least. -/
theorem exists_ne_of_two_le {v : SparseBitvector} (h : 2 ≤ v.size) :
    ∃ i j, i ≠ j ∧ v.get i = true ∧ v.get j = true := by
  have hnodup := v.nodup_elements
  have hmem : ∀ i, i ∈ v.elements → v.get i = true := fun i hi => SparseBitvector.mem_elements.1 hi
  rw [SparseBitvector.size_eq] at h
  rcases hl : v.elements with _ | ⟨i, _ | ⟨j, l⟩⟩
  · rw [hl, List.length_nil] at h
    omega
  · rw [hl, List.length_singleton] at h
    omega
  · rw [hl] at hnodup hmem
    refine ⟨i, j, ?_, hmem i (by simp), hmem j (by simp)⟩
    rintro rfl
    exact (List.nodup_cons.1 hnodup).1 List.mem_cons_self

theorem size_pos_of_get {v : SparseBitvector} {i : Nat} (h : v.get i = true) : 1 ≤ v.size := by
  rw [SparseBitvector.size_eq]
  exact List.length_pos_of_mem (SparseBitvector.mem_elements.2 h)

theorem exists_get_of_size_eq_one {v : SparseBitvector} (h : v.size = 1) :
    ∃ i, v.get i = true := by
  rw [SparseBitvector.size_eq, List.length_eq_one_iff] at h
  rcases h with ⟨i, hi⟩
  exact ⟨i, SparseBitvector.mem_elements.1 (by rw [hi]; exact List.mem_singleton_self i)⟩

namespace SeparateOffsetsPointsToSet

variable {ids : Numbering (PSNode N)} {S : SeparateOffsetsPointsToSet}

theorem Known.pointsTo_iff (h : Known ids S) (p : Pointer N) :
    (S.pointsTo p ids).1 = true ↔ ∃ i, ids.find p.target = some i ∧ S.nodes.get i = true ∧
      S.offsets.get p.offset.toNat = true := by
  rcases ids.getID_spec p.target with ⟨hid, hids⟩
  rw [pointsTo, Bool.and_eq_true]
  constructor
  · rintro ⟨hnode, hoffset⟩
    -- the number was given before
    rcases h.nodes _ hnode with ⟨t, ht⟩
    have htarget := Numbering.find_inj (hids _ _ ht) hid
    rw [htarget] at ht
    exact ⟨_, ht, hnode, hoffset⟩
  · rintro ⟨i, hi, hnode, hoffset⟩
    have hsame := hids _ _ hi
    rw [hid] at hsame
    rw [Option.some.inj hsame]
    exact ⟨hnode, hoffset⟩

/-- **Where the answers are right**: if there is one element in one of the vectors, then there is at
most one in the other, and one pointer is a known one. -/
structure MustFits (ids : Numbering (PSNode N)) (S : SeparateOffsetsPointsToSet) : Prop where
  one : S.nodes.size = 1 → S.offsets.size ≤ 1
  many : S.offsets.size = 1 → S.nodes.size ≤ 1
  known : S.nodes.size = 1 → S.offsets.size = 1 → S.offsets.get Offset.unknown.toNat = false ∧
    ∀ i, ids.find .unknownMemory = some i → S.nodes.get i = false

theorem mustPointTo_iff (S : SeparateOffsetsPointsToSet) (p : Pointer N)
    (ids : Numbering (PSNode N)) : (S.mustPointTo p ids).1 = true ↔
      (S.nodes.size = 1 ∨ S.offsets.size = 1) ∧ (S.pointsTo p ids).1 = true := by
  rw [mustPointTo]
  split
  · next h =>
      rw [Bool.or_eq_true, decide_eq_true_eq, decide_eq_true_eq] at h
      exact (and_iff_right h).symm
  · next h =>
      rw [Bool.or_eq_true, decide_eq_true_eq, decide_eq_true_eq] at h
      exact iff_of_false (by simp) fun hand => h hand.1

theorem mustRight_iff (h : Known ids S) :
    MustRight (fun _ => True) (fun p => (S.pointsTo p ids).1 = true)
      (fun p => (S.mustPointTo p ids).1) S.isSingleton ↔ MustFits ids S := by
  -- the pointer for a node and an offset in the vectors
  have hpair : ∀ {t : PSNode N} {i j : Nat}, ids.find t = some i → S.nodes.get i = true →
      S.offsets.get j = true → (S.pointsTo ⟨t, ⟨BitVec.ofNat 64 j⟩⟩ ids).1 = true ∧
        (⟨BitVec.ofNat 64 j⟩ : Offset).toNat = j := by
    intro t i j ht hi hj
    have hback : (⟨BitVec.ofNat 64 j⟩ : Offset).toNat = j := Nat.mod_eq_of_lt (h.offsets j hj)
    exact ⟨(h.pointsTo_iff _).2 ⟨i, ht, hi, by rw [hback]; exact hj⟩, hback⟩
  constructor
  · intro hright
    constructor
    case one =>
      intro hone
      by_contra htwo
      rcases exists_get_of_size_eq_one hone with ⟨i, hi⟩
      rcases h.nodes i hi with ⟨t, ht⟩
      rcases exists_ne_of_two_le (v := S.offsets) (by omega) with ⟨j, j', hne, hj, hj'⟩
      rcases hpair ht hi hj with ⟨hp, hback⟩
      rcases hpair ht hi hj' with ⟨hp', hback'⟩
      have honly := (hright.must _ trivial ((mustPointTo_iff S _ ids).2 ⟨Or.inl hone, hp⟩)).1
      have hoff := congrArg (fun p : Pointer N => p.offset.toNat) ((honly _).1 hp')
      dsimp only at hoff
      rw [hback, hback'] at hoff
      exact hne hoff.symm
    case many =>
      intro hone
      by_contra htwo
      rcases exists_get_of_size_eq_one hone with ⟨j, hj⟩
      rcases exists_ne_of_two_le (v := S.nodes) (by omega) with ⟨i, i', hne, hi, hi'⟩
      rcases h.nodes i hi with ⟨t, ht⟩
      rcases h.nodes i' hi' with ⟨t', ht'⟩
      have honly := (hright.must _ trivial
        ((mustPointTo_iff S _ ids).2 ⟨Or.inr hone, (hpair ht hi hj).1⟩)).1
      have htarget : t' = t := congrArg Pointer.target ((honly _).1 (hpair ht' hi' hj).1)
      rw [htarget, ht] at ht'
      exact hne (Option.some.inj ht')
    case known =>
      intro hone hone'
      have hsingle : S.isSingleton = true := by
        rw [isSingleton, hone, hone']
        rfl
      rcases hright.single hsingle with ⟨p, honly, hoff, ht⟩
      rcases (h.pointsTo_iff p).1 ((honly p).2 rfl) with ⟨i, hi, hnode, hoffset⟩
      constructor
      · rw [← Bool.not_eq_true]
        intro hunknown
        have heq := (honly ⟨p.target, .unknown⟩).1 ((h.pointsTo_iff _).2 ⟨i, hi, hnode, hunknown⟩)
        exact hoff (congrArg Pointer.offset heq).symm
      · intro k hk
        rw [← Bool.not_eq_true]
        intro hget
        have heq := (honly ⟨.unknownMemory, p.offset⟩).1
          ((h.pointsTo_iff _).2 ⟨k, hk, hget, hoffset⟩)
        exact ht (congrArg Pointer.target heq).symm
  · intro hfits
    have hsingle : S.isSingleton = true →
        ∃ p, Only (fun p : Pointer N => (S.pointsTo p ids).1 = true) p ∧ p.IsKnown := by
      intro hone
      rcases h.exists_pointer hone with ⟨p, honly⟩
      rw [isSingleton, Bool.and_eq_true, decide_eq_true_eq, decide_eq_true_eq] at hone
      rcases hfits.known hone.1 hone.2 with ⟨hoff, ht⟩
      rcases (h.pointsTo_iff p).1 ((honly p).2 rfl) with ⟨i, hi, hnode, hoffset⟩
      refine ⟨p, honly, ?_, ?_⟩
      · intro hunknown
        rw [hunknown, hoff] at hoffset
        cases hoffset
      · intro hunknown
        rw [hunknown] at hi
        rw [ht i hi] at hnode
        cases hnode
    constructor
    case single => exact hsingle
    case must =>
      intro p _ hp
      rcases (mustPointTo_iff S p ids).1 hp with ⟨hone, hin⟩
      rcases (h.pointsTo_iff p).1 hin with ⟨i, hi, hnode, hoffset⟩
      have hnodes := size_pos_of_get hnode
      have hoffsets := size_pos_of_get hoffset
      have hboth : S.isSingleton = true := by
        rw [isSingleton, Bool.and_eq_true, decide_eq_true_eq, decide_eq_true_eq]
        rcases hone with hone | hone
        · have hle := hfits.one hone
          omega
        · have hle := hfits.many hone
          omega
      rcases hsingle hboth with ⟨p', honly, hknown⟩
      obtain rfl := (honly p).1 hin
      exact ⟨honly, hknown⟩

end SeparateOffsetsPointsToSet

end Cape.PointerAnalysis
