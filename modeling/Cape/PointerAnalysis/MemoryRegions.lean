import Cape.ADT.Offset
import Cape.Library.FittingRuns
import Mathlib.Data.Finset.Basic
import Mathlib.Data.Set.Disjoint
import Mathlib.Order.CompletePartialOrder

/-!
# Sets of memory regions

`LLVMMemoryRegionSet`: for each memory a vector of pairs of an offset and a length, for the bytes that
an instruction may access. `add` joins the new region with those that it overlaps and drops the
regions that the joined one covers.

The length is taken for the end: a region that begins in another one and is not longer is taken to be
covered by it, and the joined region is as long as the longest one. `regions_right`: the sets are the
bytes that were added when each addition takes in regions that lie inside the new one, or lets an
unbounded one begin earlier, and the ones it leaves alone are apart from it and not taken for covered.
-/

set_option autoImplicit false

namespace Cape.PointerAnalysis

open Cape.Library

/-- An assertion that fails is `none`. -/
structure OffsetPair where
  offset : Offset
  len : Offset
deriving DecidableEq, Repr

namespace OffsetPair

def overlaps (p : OffsetPair) (o l : Offset) : Bool :=
  if o.isUnknown || p.offset.isUnknown then true
  else if o < p.offset then l.isUnknown || decide (o + l ≥ p.offset)
  else decide (o ≤ p.offset + p.len)

/-- The comparison of `coveredBy`. -/
def covered (p : OffsetPair) (o l : Offset) : Bool :=
  decide (o ≤ p.offset) &&
    ((l.isUnknown && p.len.isUnknown) || l.isUnknown || decide (l ≥ p.len))

/-- Both offsets are asserted to be known. -/
def coveredBy (p : OffsetPair) (o l : Offset) : Option Bool :=
  if o.isUnknown || p.offset.isUnknown then none else some (p.covered o l)

def extends' (p : OffsetPair) (o l : Offset) : Option Bool := (mk o l).coveredBy p.offset p.len

/-- `_extend`. -/
def extend (interval : OffsetPair) (off len : Offset) : Option OffsetPair :=
  if interval.overlaps off len && !off.isUnknown then
    some ⟨if off < interval.len then off else interval.offset,
      if interval.len < len || len.isUnknown then len else interval.len⟩
  else none

end OffsetPair

namespace Regions

/-- `add`: is there an interval that extends over the new one? -/
def extendsAny (o l : Offset) : List OffsetPair → Option Bool
  | [] => some false
  | interval :: R =>
      (interval.extends' o l).bind fun found => if found then some true else extendsAny o l R

/-- `add`: the overlapping intervals are joined. -/
def join (R : List OffsetPair) (new : OffsetPair) : Option OffsetPair :=
  R.foldlM
    (fun new interval =>
      if interval.overlaps new.offset new.len then interval.extend new.offset new.len
      else some new) new

/-- `add`: the intervals that are not covered. -/
def keep (R : List OffsetPair) (new : OffsetPair) : Option (List OffsetPair) :=
  R.foldlM
    (fun tmp interval =>
      (interval.coveredBy new.offset new.len).bind fun covered =>
        if covered then some tmp
        else if interval.overlaps new.offset new.len then none
        else some (tmp ++ [interval])) []

/-- `LLVMMemoryRegionSet::add`, for the vector of the memory. -/
def add (R : List OffsetPair) (o l : Offset) : Option (List OffsetPair) :=
  if o.isUnknown then some [⟨o, o⟩]
  else
    (extendsAny o l R).bind fun found =>
      if found then some R
      else
        (join R ⟨o, l⟩).bind fun new =>
          (keep R new).bind fun tmp =>
            if (tmp ++ [new]).all fun interval =>
                decide (interval = new) || !interval.overlaps new.offset new.len
            then some (tmp ++ [new])
            else none

end Regions

/-- The map; a memory without an entry has no regions. -/
structure LLVMMemoryRegionSet (V : Type) where
  keys : Finset V
  regions : V → List OffsetPair
  regions_eq_nil : ∀ v, v ∉ keys → regions v = []

namespace LLVMMemoryRegionSet

variable {V : Type} [DecidableEq V]

omit [DecidableEq V] in
def empty : LLVMMemoryRegionSet V := ⟨∅, fun _ => [], fun _ _ => rfl⟩

def setRegions (A : LLVMMemoryRegionSet V) (mem : V) (R : List OffsetPair) : LLVMMemoryRegionSet V where
  keys := insert mem A.keys
  regions := Function.update A.regions mem R
  regions_eq_nil := by
    intro v hv
    rw [Finset.mem_insert, not_or] at hv
    rw [Function.update_of_ne hv.1]
    exact A.regions_eq_nil v hv.2

def add (A : LLVMMemoryRegionSet V) (mem : V) (o l : Offset) : Option (LLVMMemoryRegionSet V) :=
  (Regions.add (A.regions mem) o l).map (A.setRegions mem)

def overlaps (A rhs : LLVMMemoryRegionSet V) : Bool :=
  decide (∃ v ∈ rhs.keys, v ∈ A.keys ∧
    ∃ interval ∈ A.regions v, ∃ interval2 ∈ rhs.regions v,
      interval.overlaps interval2.offset interval2.len = true)

end LLVMMemoryRegionSet

/-! ## Bytes -/

namespace OffsetPair

/-- The bytes `[offset, offset + len)`: all of an unknown offset, and an unknown length has no end. -/
def bytes (p : OffsetPair) : Set Nat :=
  {b | p.offset = .unknown ∨
    p.offset.toNat ≤ b ∧ (p.len = .unknown ∨ b < p.offset.toNat + p.len.toNat)}

/-- The region lies in the other one, ends included. -/
def Inside (p q : OffsetPair) : Prop :=
  q.offset.toNat ≤ p.offset.toNat ∧ (q.len = .unknown ∨
    p.len ≠ .unknown ∧ p.offset.toNat + p.len.toNat ≤ q.offset.toNat + q.len.toNat)

theorem mem_bytes {p : OffsetPair} (hp : p.offset ≠ .unknown) {b : Nat} :
    b ∈ p.bytes ↔ p.offset.toNat ≤ b ∧ (p.len = .unknown ∨ b < p.offset.toNat + p.len.toNat) :=
  or_iff_right hp

theorem mem_unbounded {o : Offset} (ho : o ≠ .unknown) {b : Nat} :
    b ∈ (OffsetPair.mk o .unknown).bytes ↔ o.toNat ≤ b := by
  rw [mem_bytes (p := ⟨o, .unknown⟩) ho]
  simp

/-- Known regions overlap when neither ends before the other one begins. -/
theorem overlaps_iff {p : OffsetPair} {o l : Offset} (hp : p.offset ≠ .unknown) (ho : o ≠ .unknown) :
    p.overlaps o l = true ↔ p.offset.toNat ≤ o.toNat + l.toNat ∧
      o.toNat ≤ p.offset.toNat + p.len.toNat := by
  have hp' := Offset.ne_unknown_iff.1 hp
  have ho' := Offset.ne_unknown_iff.1 ho
  have hl := l.toNat_lt
  have hlen := p.len.toNat_lt
  rw [overlaps, if_neg (by simp [hp, ho])]
  split
  · next hlt =>
      rw [Offset.lt_iff] at hlt
      rw [Bool.or_eq_true, Offset.isUnknown_iff, decide_eq_true_iff, ge_iff_le, Offset.le_iff,
        Offset.toNat_add, Offset.eq_iff, Offset.toNat_unknown]
      omega
  · next hlt =>
      rw [Offset.lt_iff] at hlt
      rw [decide_eq_true_iff, Offset.le_iff, Offset.toNat_add]
      omega

theorem covered_iff {p : OffsetPair} {o l : Offset} :
    p.covered o l = true ↔ o.toNat ≤ p.offset.toNat ∧ p.len.toNat ≤ l.toNat := by
  have hlen := p.len.toNat_lt
  simp only [covered, Bool.and_eq_true, Bool.or_eq_true, decide_eq_true_iff, Offset.isUnknown_iff,
    ge_iff_le, Offset.le_iff, Offset.eq_iff, Offset.toNat_unknown]
  omega

theorem Inside.subset {p q : OffsetPair} (h : p.Inside q) (hp : p.offset ≠ .unknown)
    (hq : q.offset ≠ .unknown) : p.bytes ⊆ q.bytes := by
  intro b hb
  rw [mem_bytes hp] at hb
  rw [mem_bytes hq]
  obtain ⟨hle, hend⟩ := h
  refine ⟨by omega, ?_⟩
  rcases hend with hend | ⟨hlen, hend⟩
  · exact Or.inl hend
  · have hlt := hb.2.resolve_left hlen
    exact Or.inr (by omega)

/-- What lies inside is covered. -/
theorem Inside.covered {p q : OffsetPair} (h : p.Inside q) : p.covered q.offset q.len = true := by
  rw [covered_iff]
  refine ⟨h.1, ?_⟩
  rcases h.2 with hend | ⟨-, hend⟩
  · rw [hend, Offset.toNat_unknown]
    have := p.len.toNat_lt
    omega
  · have := h.1
    omega

theorem Inside.overlaps {p q : OffsetPair} (h : p.Inside q) (hp : p.offset ≠ .unknown)
    (hq : q.offset ≠ .unknown) : p.overlaps q.offset q.len = true := by
  rw [overlaps_iff hp hq]
  have hp' := Offset.ne_unknown_iff.1 hp
  obtain ⟨hle, hend⟩ := h
  refine ⟨?_, by omega⟩
  rcases hend with hend | ⟨-, hend⟩
  · rw [hend, Offset.toNat_unknown]
    omega
  · omega

/-- Regions that share a byte overlap. -/
theorem overlaps_of_mem {p q : OffsetPair} {b : Nat} (hp : b ∈ p.bytes) (hq : b ∈ q.bytes) :
    p.overlaps q.offset q.len = true := by
  by_cases hunknown : q.offset = .unknown ∨ p.offset = .unknown
  · rw [OffsetPair.overlaps, if_pos (by simpa using hunknown)]
  · obtain ⟨hq', hp'⟩ := not_or.1 hunknown
    rw [mem_bytes hp'] at hp
    rw [mem_bytes hq'] at hq
    rw [overlaps_iff hp' hq']
    have hplt := Offset.ne_unknown_iff.1 hp'
    have hqlt := Offset.ne_unknown_iff.1 hq'
    constructor
    · rcases hq.2 with hlen | hlt
      · rw [hlen, Offset.toNat_unknown]
        omega
      · omega
    · rcases hp.2 with hlen | hlt
      · rw [hlen, Offset.toNat_unknown]
        omega
      · omega

theorem disjoint_of_not_overlaps {p q : OffsetPair} (h : ¬ p.overlaps q.offset q.len = true) :
    Disjoint p.bytes q.bytes :=
  Set.disjoint_left.2 fun _ hp hq => h (overlaps_of_mem hp hq)

end OffsetPair

namespace Regions

open OffsetPair

/-! ## Joining -/

/-- The regions of a vector are joined with a region one after the other, and each join is that of the
two ranges: a region is apart, lies inside, or is joined with an unbounded one. -/
inductive Joins : List OffsetPair → OffsetPair → OffsetPair → Prop where
  | nil (new : OffsetPair) : Joins [] new new
  | apart {interval new joined : OffsetPair} {R : List OffsetPair} :
      ¬ interval.overlaps new.offset new.len = true → Joins R new joined →
      Joins (interval :: R) new joined
  | inside {interval new joined : OffsetPair} {R : List OffsetPair} : interval.Inside new →
      (new.offset < interval.len ∨ new.offset = interval.offset) → Joins R new joined →
      Joins (interval :: R) new joined
  | before {interval new joined : OffsetPair} {R : List OffsetPair} :
      interval.overlaps new.offset new.len = true → new.len = .unknown →
      interval.offset ≤ new.offset → interval.len ≤ new.offset →
      Joins R ⟨interval.offset, .unknown⟩ joined → Joins (interval :: R) new joined
  | beyond {interval new joined : OffsetPair} {R : List OffsetPair} :
      interval.overlaps new.offset new.len = true → interval.len = .unknown →
      new.offset ≤ interval.offset → Joins R ⟨new.offset, .unknown⟩ joined →
      Joins (interval :: R) new joined

/-- The bytes of a vector of regions. -/
def bytes (R : List OffsetPair) : Set Nat := {b | ∃ p ∈ R, b ∈ p.bytes}

def Known (R : List OffsetPair) : Prop := ∀ p ∈ R, p.offset ≠ .unknown

theorem extend_eq {p q : OffsetPair} (h : p.overlaps q.offset q.len = true)
    (hq : q.offset ≠ .unknown) : p.extend q.offset q.len =
      some ⟨if q.offset < p.len then q.offset else p.offset,
        if p.len < q.len || q.len.isUnknown then q.len else p.len⟩ := by
  rw [extend, if_pos]
  rw [h, (Offset.isUnknown_eq_false_iff _).2 hq]
  rfl

theorem extend_inside {p q : OffsetPair} (h : p.Inside q)
    (hq : q.offset < p.len ∨ q.offset = p.offset) (hp' : p.offset ≠ .unknown)
    (hq' : q.offset ≠ .unknown) : p.extend q.offset q.len = some q := by
  have hoffset : (if q.offset < p.len then q.offset else p.offset) = q.offset := by
    split
    · rfl
    · next hlt => exact (hq.resolve_left hlt).symm
  have hlen : (if (decide (p.len < q.len) || q.len.isUnknown) = true then q.len else p.len) =
      q.len := by
    split
    · rfl
    · next hnot =>
        rw [Bool.or_eq_true, not_or, decide_eq_true_iff, Offset.isUnknown_iff] at hnot
        obtain ⟨-, hend⟩ := h.2.resolve_left hnot.2
        have hge := Offset.lt_iff.not.1 hnot.1
        have hle := h.1
        exact Offset.eq_iff.2 (by omega)
  rw [extend_eq (h.overlaps hp' hq') hq', hoffset, hlen]

theorem extend_before {p q : OffsetPair} (h : p.overlaps q.offset q.len = true)
    (hlen : q.len = .unknown) (hle : p.len ≤ q.offset) (hq : q.offset ≠ .unknown) :
    p.extend q.offset q.len = some ⟨p.offset, .unknown⟩ := by
  rw [extend_eq h hq, if_neg (not_lt.2 hle), hlen]
  simp

theorem extend_beyond {p q : OffsetPair} (h : p.overlaps q.offset q.len = true)
    (hlen : p.len = .unknown) (hq : q.offset ≠ .unknown) :
    p.extend q.offset q.len = some ⟨q.offset, .unknown⟩ := by
  have hlt : q.offset < p.len := by
    rw [hlen, Offset.lt_iff, Offset.toNat_unknown]
    exact Offset.ne_unknown_iff.1 hq
  rw [extend_eq h hq, if_pos hlt, hlen]
  by_cases hunknown : q.len = .unknown
  · simp [hunknown]
  · simp [hunknown, Offset.not_unknown_lt]

/-- What the join is. -/
structure JoinSpec (R : List OffsetPair) (new joined : OffsetPair) : Prop where
  returns : join R new = some joined
  known : joined.offset ≠ .unknown
  new_subset : new.bytes ⊆ joined.bytes
  subset : joined.bytes ⊆ new.bytes ∪ bytes R

/-- A join step that ends with the range `next`. -/
theorem JoinSpec.step {interval new next joined : OffsetPair} {R : List OffsetPair}
    (h : JoinSpec R next joined) (hoverlaps : interval.overlaps new.offset new.len = true)
    (hextend : interval.extend new.offset new.len = some next) (hsub : new.bytes ⊆ next.bytes)
    (hnext : next.bytes ⊆ new.bytes ∪ interval.bytes) : JoinSpec (interval :: R) new joined where
  returns := by
    rw [join, List.foldlM_cons, if_pos hoverlaps, hextend]
    exact h.returns
  known := h.known
  new_subset := hsub.trans h.new_subset
  subset := by
    intro b hb
    rcases h.subset hb with hb | ⟨p, hp, hb⟩
    · rcases hnext hb with hb | hb
      · exact Or.inl hb
      · exact Or.inr ⟨interval, List.mem_cons_self, hb⟩
    · exact Or.inr ⟨p, List.mem_cons_of_mem _ hp, hb⟩

theorem join_spec {R : List OffsetPair} {new joined : OffsetPair} (h : Joins R new joined)
    (hR : Known R) (hnew : new.offset ≠ .unknown) : JoinSpec R new joined := by
  induction h with
  | nil new => exact ⟨rfl, hnew, subset_rfl, Set.subset_union_left⟩
  | @apart interval new joined R hapart _ ih =>
      have hrest := ih (fun p hp => hR p (List.mem_cons_of_mem _ hp)) hnew
      refine ⟨?_, hrest.known, hrest.new_subset, fun b hb => ?_⟩
      · rw [join, List.foldlM_cons, if_neg hapart]
        exact hrest.returns
      · rcases hrest.subset hb with hb | ⟨p, hp, hb⟩
        · exact Or.inl hb
        · exact Or.inr ⟨p, List.mem_cons_of_mem _ hp, hb⟩
  | @inside interval new joined R hinside hfirst _ ih =>
      have hknown := hR interval List.mem_cons_self
      have hrest := ih (fun p hp => hR p (List.mem_cons_of_mem _ hp)) hnew
      exact hrest.step (hinside.overlaps hknown hnew) (extend_inside hinside hfirst hknown hnew)
        subset_rfl Set.subset_union_left
  | @before interval new joined R hover hlen hle hlen' _ ih =>
      have hknown := hR interval List.mem_cons_self
      have hrest := ih (fun p hp => hR p (List.mem_cons_of_mem _ hp)) hknown
      have hle := Offset.le_iff.1 hle
      have hover' := (overlaps_iff hknown hnew).1 hover
      refine hrest.step hover (extend_before hover hlen hlen' hnew) (fun b hb => ?_) fun b hb => ?_
      · rw [mem_bytes hnew] at hb
        exact (mem_unbounded hknown).2 (hle.trans hb.1)
      · -- the bytes before the new region are those of the interval
        by_cases hb' : new.offset.toNat ≤ b
        · exact Or.inl ((mem_bytes hnew).2 ⟨hb', Or.inl hlen⟩)
        · refine Or.inr ((mem_bytes hknown).2 ⟨(mem_unbounded hknown).1 hb, Or.inr ?_⟩)
          omega
  | @beyond interval new joined R hover hlen hle _ ih =>
      have hknown := hR interval List.mem_cons_self
      have hrest := ih (fun p hp => hR p (List.mem_cons_of_mem _ hp)) hnew
      have hover' := (overlaps_iff hknown hnew).1 hover
      refine hrest.step hover (extend_beyond hover hlen hnew) (fun b hb => ?_) fun b hb => ?_
      · rw [mem_bytes hnew] at hb
        exact (mem_unbounded hnew).2 hb.1
      · -- the bytes behind the new region are those of the interval
        by_cases hb' : interval.offset.toNat ≤ b
        · exact Or.inr ((mem_bytes hknown).2 ⟨hb', Or.inl hlen⟩)
        · refine Or.inl ((mem_bytes hnew).2 ⟨(mem_unbounded hnew).1 hb, Or.inr ?_⟩)
          omega

/-! ## Adding -/

/-- The regions that are left when the joined one is there: each lies inside it, or is apart and is not
taken for covered. -/
def Separate (R : List OffsetPair) (joined : OffsetPair) : Prop :=
  ∀ p ∈ R, p.Inside joined ∨
    ¬ p.overlaps joined.offset joined.len = true ∧
      (p.offset < joined.offset ∨ joined.len < p.len ∨ p.len = 0)

/-- Where the addition of a region is right. -/
def Fits (R : List OffsetPair) (o l : Offset) : Prop :=
  o = .unknown ∨ Known R ∧
    ((∃ p ∈ R, p.offset ≤ o ∧ l ≤ p.len) → (OffsetPair.mk o l).bytes ⊆ bytes R) ∧
    ((∀ p ∈ R, ¬ (p.offset ≤ o ∧ l ≤ p.len)) → ∃ joined, Joins R ⟨o, l⟩ joined ∧ Separate R joined)

theorem extendsAny_eq {o l : Offset} (ho : o ≠ .unknown) {R : List OffsetPair} (hR : Known R) :
    extendsAny o l R = some (decide (∃ p ∈ R, p.offset ≤ o ∧ l ≤ p.len)) := by
  induction R with
  | nil => simp [extendsAny]
  | cons p R ih =>
      have hp : p.offset ≠ .unknown := hR p List.mem_cons_self
      have hcovered : (OffsetPair.mk o l).covered p.offset p.len = true ↔ p.offset ≤ o ∧ l ≤ p.len := by
        rw [covered_iff, ← Offset.le_iff, ← Offset.le_iff]
      rw [extendsAny, extends', coveredBy, if_neg (by simp [hp, ho]), Option.bind_some,
        ih fun q hq => hR q (List.mem_cons_of_mem _ hq)]
      split
      · next h => simp [hcovered.1 h]
      · next h =>
          have h : ¬ (p.offset ≤ o ∧ l ≤ p.len) := fun h' => h (hcovered.2 h')
          simp [h]

/-- The regions that are not covered are kept. -/
theorem keep_eq {R : List OffsetPair} {new : OffsetPair} (hR : Known R)
    (hnew : new.offset ≠ .unknown) (hsep : Separate R new) :
    keep R new = some (R.filter fun p => !p.covered new.offset new.len) := by
  have hfold : ∀ tmp : List OffsetPair, R.foldlM
      (fun tmp interval =>
        (interval.coveredBy new.offset new.len).bind fun covered =>
          if covered then some tmp
          else if interval.overlaps new.offset new.len then none
          else some (tmp ++ [interval])) tmp =
      some (tmp ++ R.filter fun p => !p.covered new.offset new.len) := by
    induction R with
    | nil => simp
    | cons p R ih =>
        intro tmp
        have hp := hR p List.mem_cons_self
        have hrest := ih (fun q hq => hR q (List.mem_cons_of_mem _ hq))
          fun q hq => hsep q (List.mem_cons_of_mem _ hq)
        rw [List.foldlM_cons, coveredBy, if_neg (by simp [hp, hnew]), Option.bind_some]
        cases hcovered : p.covered new.offset new.len with
        | true =>
            rw [if_pos rfl, List.filter_cons_of_neg (by simp [hcovered])]
            exact hrest tmp
        | false =>
            -- what is not covered does not lie inside
            obtain ⟨hapart, -⟩ := (hsep p List.mem_cons_self).resolve_left fun h =>
              absurd (h.covered.symm.trans hcovered) (by simp)
            rw [if_neg (by simp), if_neg hapart, List.filter_cons_of_pos (by simp [hcovered])]
            have := hrest (tmp ++ [p])
            rw [List.append_assoc] at this
            exact this
  exact hfold []

theorem bytes_append (R R' : List OffsetPair) : bytes (R ++ R') = bytes R ∪ bytes R' := by
  ext b
  simp [bytes, or_and_right, exists_or]

/-- The regions do not share bytes. -/
def PairwiseDisjoint (R : List OffsetPair) : Prop :=
  R.Pairwise fun p q => Disjoint p.bytes q.bytes

/-- **One addition.** -/
theorem add_spec {R : List OffsetPair} {o l : Offset} (hR : PairwiseDisjoint R) (hfits : Fits R o l) :
    ∃ R', add R o l = some R' ∧ PairwiseDisjoint R' ∧
      bytes R' = bytes R ∪ (OffsetPair.mk o l).bytes := by
  rw [add]
  by_cases ho : o = .unknown
  · refine ⟨[⟨o, o⟩], if_pos (by simp [ho]), List.pairwise_singleton _ _, ?_⟩
    ext b
    simp [bytes, OffsetPair.bytes, ho]
  · obtain ⟨hknown, hin, hout⟩ := hfits.resolve_left ho
    rw [if_neg (by simp [ho]), extendsAny_eq ho hknown, Option.bind_some]
    by_cases hany : ∃ p ∈ R, p.offset ≤ o ∧ l ≤ p.len
    · refine ⟨R, if_pos (by simpa using hany), hR, ?_⟩
      exact (Set.union_eq_left.2 (hin hany)).symm
    · obtain ⟨joined, hjoins, hsep⟩ := hout fun p hp h => hany ⟨p, hp, h⟩
      have hspec := join_spec hjoins hknown ho
      have hkept : ∀ p ∈ R.filter fun p => !p.covered joined.offset joined.len,
          ¬ p.overlaps joined.offset joined.len = true := by
        intro p hp
        obtain ⟨hp, hcovered⟩ := List.mem_filter.1 hp
        exact ((hsep p hp).resolve_left fun h => by simp [h.covered] at hcovered).1
      refine ⟨(R.filter fun p => !p.covered joined.offset joined.len) ++ [joined], ?_, ?_, ?_⟩
      · rw [if_neg (by simpa using hany), hspec.returns, Option.bind_some,
          keep_eq hknown hspec.known hsep, Option.bind_some, if_pos]
        rw [List.all_eq_true]
        intro p hp
        rcases List.mem_append.1 hp with hp | hp
        · simp [hkept p hp]
        · simp [List.mem_singleton.1 hp]
      · rw [PairwiseDisjoint, List.pairwise_append]
        refine ⟨hR.filter _, List.pairwise_singleton _ _, fun p hp q hq => ?_⟩
        rw [List.mem_singleton.1 hq]
        exact disjoint_of_not_overlaps (hkept p hp)
      · rw [bytes_append]
        have hone : bytes [joined] = joined.bytes := by
          ext b
          simp [bytes]
        rw [hone]
        apply Set.Subset.antisymm
        · rintro b (⟨p, hp, hb⟩ | hb)
          · exact Or.inl ⟨p, (List.mem_filter.1 hp).1, hb⟩
          · exact (hspec.subset hb).symm
        · rintro b (⟨p, hp, hb⟩ | hb)
          · rcases hsep p hp with hinside | ⟨-, hleft⟩
            · exact Or.inr (hinside.subset (hknown p hp) hspec.known hb)
            · -- a region with bytes that is apart is kept
              refine Or.inl ⟨p, List.mem_filter.2 ⟨hp, ?_⟩, hb⟩
              have hpos : p.len ≠ 0 := by
                intro hzero
                obtain ⟨hlo, hhi⟩ := (mem_bytes (hknown p hp)).1 hb
                rw [hzero, Offset.toNat_zero] at hhi
                have hlt := hhi.resolve_left (by decide)
                omega
              have hnot : ¬ p.covered joined.offset joined.len = true := by
                rw [covered_iff]
                rintro ⟨hle, hlen⟩
                rcases hleft with h | h | h
                · exact absurd (Offset.lt_iff.1 h) (not_lt.2 hle)
                · exact absurd (Offset.lt_iff.1 h) (not_lt.2 hlen)
                · exact hpos h
              simpa using hnot
          · exact Or.inr (hspec.new_subset hb)

end Regions

/-! ## Runs -/

namespace RegionRuns

open Regions

variable {K V : Type} [DecidableEq K] [DecidableEq V]

/-- Sets of regions, and what was added to them. -/
structure State (K V : Type) where
  sets : K → LLVMMemoryRegionSet V
  added : K → V → List OffsetPair

inductive Op (K V : Type) where
  | add (set : K) (mem : V) (o l : Offset)
  | overlaps (set rhs : K)

omit [DecidableEq K] [DecidableEq V] in
def start : State K V := ⟨fun _ => .empty, fun _ _ => []⟩

/-- The added region is remembered. -/
def State.addTo (s : State K V) (set : K) (mem : V) (new : OffsetPair) (A : LLVMMemoryRegionSet V) :
    State K V where
  sets := Function.update s.sets set A
  added := Function.update s.added set
    (Function.update (s.added set) mem (s.added set mem ++ [new]))

/-- An operation, with what it returns. -/
def Op.step (op : Op K V) (s : State K V) : Option (State K V × Bool) :=
  match op with
  | .add set mem o l => ((s.sets set).add mem o l).map fun A => (s.addTo set mem ⟨o, l⟩ A, true)
  | .overlaps set rhs => some (s, (s.sets set).overlaps (s.sets rhs))

omit [DecidableEq K] [DecidableEq V] in
/-- The regions are the bytes added, and they do not share bytes. -/
def State.Denotes (s : State K V) : Prop :=
  ∀ k v, bytes ((s.sets k).regions v) = bytes (s.added k v) ∧
    PairwiseDisjoint ((s.sets k).regions v)

omit [DecidableEq K] [DecidableEq V] in
/-- A byte of one memory is in both sets. -/
def State.ShareByte (s : State K V) (set rhs : K) : Prop :=
  ∃ v b, b ∈ bytes ((s.sets set).regions v) ∧ b ∈ bytes ((s.sets rhs).regions v)

/-- What is asked of an operation. -/
def Op.Right (op : Op K V) (s : State K V) (r : State K V × Bool) : Prop :=
  r.1.Denotes ∧
  match op with
  | .add _ _ _ _ => True
  | .overlaps set rhs => r.2 = true ↔ s.ShareByte set rhs

/-- An addition fits the regions of its memory. When two regions of one memory touch, some byte is
shared. -/
def Op.Fits (op : Op K V) (s : State K V) : Prop :=
  match op with
  | .add set mem o l => Regions.Fits ((s.sets set).regions mem) o l
  | .overlaps set rhs =>
      ∀ v, ∀ p ∈ (s.sets set).regions v, ∀ q ∈ (s.sets rhs).regions v,
        p.overlaps q.offset q.len = true → s.ShareByte set rhs

omit [DecidableEq K] in
theorem overlaps_iff {A B : LLVMMemoryRegionSet V} : A.overlaps B = true ↔
    ∃ v, ∃ p ∈ A.regions v, ∃ q ∈ B.regions v, p.overlaps q.offset q.len = true := by
  rw [LLVMMemoryRegionSet.overlaps, decide_eq_true_iff]
  constructor
  · rintro ⟨v, -, -, h⟩
    exact ⟨v, h⟩
  · rintro ⟨v, p, hp, q, hq, h⟩
    -- a memory with regions has an entry
    have hkey : ∀ (C : LLVMMemoryRegionSet V) {r : OffsetPair}, r ∈ C.regions v → v ∈ C.keys := by
      intro C r hr
      by_contra hv
      rw [C.regions_eq_nil v hv] at hr
      simp at hr
    exact ⟨v, hkey B hq, hkey A hp, p, hp, q, hq, h⟩

/-- Regions that have the bytes of the new one besides the old ones denote what was added. -/
theorem State.Denotes.addTo {s : State K V} (hs : s.Denotes) (set : K) (mem : V) {new : OffsetPair}
    {R : List OffsetPair} (hdisjoint : PairwiseDisjoint R)
    (hbytes : bytes R = bytes ((s.sets set).regions mem) ∪ new.bytes) :
    (s.addTo set mem new ((s.sets set).setRegions mem R)).Denotes := by
  intro k v
  by_cases hk : k = set
  · subst hk
    by_cases hv : v = mem
    · subst hv
      simp only [State.addTo, LLVMMemoryRegionSet.setRegions, Function.update_self]
      refine ⟨?_, hdisjoint⟩
      rw [hbytes, bytes_append, (hs k v).1]
      simp [bytes]
    · -- the regions of the other memories of the set stay
      simpa [State.addTo, LLVMMemoryRegionSet.setRegions, hv] using hs k v
  · simpa [State.addTo, hk] using hs k v

/-- An operation that fits is right. -/
theorem step_right (op : Op K V) (s : State K V) (hs : s.Denotes) (hfits : op.Fits s) :
    ∃ r, op.step s = some r ∧ op.Right s r ∧ r.1.Denotes := by
  cases op with
  | add set mem o l =>
      obtain ⟨R, hR, hdisjoint, hbytes⟩ := add_spec (hs set mem).2 hfits
      have hadd : (s.sets set).add mem o l = some ((s.sets set).setRegions mem R) := by
        rw [LLVMMemoryRegionSet.add, hR]
        rfl
      have hdenotes := hs.addTo set mem hdisjoint hbytes
      refine ⟨(s.addTo set mem ⟨o, l⟩ ((s.sets set).setRegions mem R), true), ?_,
        ⟨hdenotes, trivial⟩, hdenotes⟩
      rw [Op.step, hadd]
      rfl
  | overlaps set rhs =>
      refine ⟨_, rfl, ⟨hs, ?_⟩, hs⟩
      show (s.sets set).overlaps (s.sets rhs) = true ↔ _
      rw [overlaps_iff]
      constructor
      · rintro ⟨v, p, hp, q, hq, h⟩
        exact hfits v p hp q hq h
      · rintro ⟨v, b, ⟨p, hp, hbp⟩, q, hq, hbq⟩
        exact ⟨v, p, hp, q, hq, OffsetPair.overlaps_of_mem hbp hbq⟩

abbrev RunsRight (ops : List (Op K V)) : Prop :=
  FittingRuns.RightRun Op.step Prod.fst Op.Right ops start

abbrev RunsFitting (ops : List (Op K V)) : Prop :=
  FittingRuns.FitRun Op.step Prod.fst Op.Fits ops start

/-- **Sets of regions.** In a run in which every operation fits, every set is at any time the union of
the regions added to it, without overlaps, and `overlaps` says whether two sets share a byte. -/
theorem regions_right {ops : List (Op K V)} (hfits : RunsFitting ops) : RunsRight ops := by
  have hstart : (start : State K V).Denotes := fun _ _ => ⟨rfl, List.Pairwise.nil⟩
  exact FittingRuns.rightRun_of_fitRun step_right hstart hfits

/-- A region is added that lies in the next one. -/
def nestedRun : List (Op Unit Unit) := [.add () () 8 4, .add () () 0 100]

theorem regions_nested : RunsRight nestedRun := by
  apply regions_right
  refine ⟨Or.inr ⟨fun p hp => ?_, ?_, fun _ => ⟨_, .nil _, fun p hp => ?_⟩⟩, fun r hr => ?_⟩
  · simp [start, LLVMMemoryRegionSet.empty] at hp
  · rintro ⟨p, hp, -⟩
    simp [start, LLVMMemoryRegionSet.empty] at hp
  · simp [start, LLVMMemoryRegionSet.empty] at hp
  · obtain rfl := Option.some.inj hr
    have hinside : (OffsetPair.mk 8 4).Inside ⟨0, 100⟩ := ⟨by decide, Or.inr (by decide)⟩
    refine ⟨Or.inr ⟨?_, ?_, fun _ => ⟨⟨0, 100⟩, ?_, ?_⟩⟩, fun _ _ => trivial⟩
    · intro p hp
      rw [List.mem_singleton.1 hp]
      decide
    · rintro ⟨p, hp, hle, -⟩
      rw [List.mem_singleton.1 hp] at hle
      exact absurd hle (by decide)
    · exact .inside hinside (Or.inl (by decide)) (.nil _)
    · intro p hp
      rw [List.mem_singleton.1 hp]
      exact Or.inl hinside

/-- The second region begins in the first one and ends behind it. -/
def behindRun : List (Op Unit Unit) := [.add () () 0 4, .add () () 2 4]

theorem regions_behind : ¬ RunsRight behindRun := by
  rintro ⟨r₁, h₁, -, r₂, h₂, ⟨hdenotes, -⟩, -⟩
  obtain rfl := Option.some.inj h₁
  obtain rfl := Option.some.inj h₂
  -- the byte 5 was added
  have hadded : 5 ∈ bytes [OffsetPair.mk 0 4, ⟨2, 4⟩] :=
    ⟨⟨2, 4⟩, by simp, Or.inr ⟨by decide, Or.inr (by decide)⟩⟩
  have hmem : 5 ∈ bytes [OffsetPair.mk 0 4] := (hdenotes () ()).1.symm ▸ hadded
  obtain ⟨p, hp, hb⟩ := hmem
  rw [List.mem_singleton.1 hp, OffsetPair.mem_bytes (by decide)] at hb
  exact absurd hb (by decide)

end RegionRuns

end Cape.PointerAnalysis
