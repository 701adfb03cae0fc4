import Cape.PointerAnalysis.RemovalReports
import Cape.PointerAnalysis.UnknownOffsets

/-!
# Runs of sets by targets

Sets that keep the offsets by targets next to plain sets, over runs of additions, unions and removals.
The iterator goes through the targets and, for each one, through its offsets; at an entry without
offsets it has nothing to give (`elements_eq`). `offsetsSet_refines_iff` says in which runs the sets
contain, count and iterate over the pointers of the plain ones and report the changes.
-/

set_option autoImplicit false

namespace Cape

/-! ## Iterators of bitvectors -/

namespace SparseBitvector.Iterator

/-- From here to the end, an iterator gives the numbers of a list. -/
inductive Gives : Iterator → List Nat → Prop
  | stop {it : Iterator} : it.container = [] → Gives it []
  | step {it : Iterator} {e : Nat × Word} {es : List (Nat × Word)} {l : List Nat} :
      it.container = e :: es → Gives it.next l → Gives it ((e.1 + it.pos) :: l)

theorem Gives.eq_nil_iff {it : Iterator} {l : List Nat} (h : Gives it l) :
    l = [] ↔ it.container = [] := by
  cases h with
  | stop hstop => exact iff_of_true rfl hstop
  | step hcons _ =>
      rw [hcons]
      exact iff_of_false (List.cons_ne_nil _ _) (List.cons_ne_nil _ _)

/-- A collection that does not use up its fuel has come to the end. -/
theorem gives_collect {fuel : Nat} {it : Iterator} (h : (it.collect fuel).length < fuel) :
    Gives it (it.collect fuel) := by
  induction fuel generalizing it with
  | zero => cases h
  | succ fuel ih =>
      cases hc : it.container with
      | nil =>
          have hnil : it.collect (fuel + 1) = [] := by
            rw [collect, hc]
          rw [hnil]
          exact .stop hc
      | cons e es =>
          have hcons : it.collect (fuel + 1) = (e.1 + it.pos) :: it.next.collect fuel := by
            rw [collect, hc]
          rw [hcons] at h ⊢
          exact .step hc (ih (Nat.lt_of_succ_lt_succ h))

end SparseBitvector.Iterator

/-- From `begin` to `end`, the iterator of a vector gives its elements. -/
theorem SparseBitvector.gives_elements (v : SparseBitvector) :
    Iterator.Gives (Iterator.start v.bits) v.elements := by
  have hcollect := collect_start v.bits v.nonzero (v.elements.length + 1) (by
    rw [← elements_eq]
    exact Nat.le_succ _)
  rw [← elements_eq] at hcollect
  rw [← hcollect]
  apply Iterator.gives_collect
  rw [hcollect]
  exact Nat.lt_succ_self _

namespace PointerAnalysis

open Cape.Library

universe u

variable {N : Type u}

/-! ## Size and iteration -/

namespace OffsetsSetPointsToSet

/-- An entry: a target with its offsets. -/
abbrev Entry (N : Type u) := Sigma fun _ : PSNode N => SparseBitvector

/-- `size`. -/
def size (S : OffsetsSetPointsToSet N) : Nat := (S.pointers.entries.map fun e => e.2.size).sum

/-- `const_iterator`: the entries from the current one on, and the iterator of its offsets. -/
structure Iterator (N : Type u) where
  container : List (Entry N)
  inner : SparseBitvector.Iterator

namespace Iterator

/-- The first offset of the entries; the end has no inner iterator. -/
def start : List (Entry N) → Iterator N
  | [] => ⟨[], ⟨[], 0⟩⟩
  | e :: es => ⟨e :: es, .start e.2.bits⟩

/-- `operator++`. -/
def next (it : Iterator N) : Iterator N :=
  match it.container with
  | [] => it
  | e :: es => if it.inner.next.container = [] then start es else ⟨e :: es, it.inner.next⟩

/-- `operator*`. There is nothing at the end of the offsets. -/
def deref (it : Iterator N) : Option (Pointer N) :=
  match it.container, it.inner.container with
  | e :: _, w :: _ => some ⟨e.1, ⟨BitVec.ofNat 64 (w.1 + it.inner.pos)⟩⟩
  | _, _ => none

/-- What an iteration gives until it comes to the end. -/
def collect : Nat → Iterator N → Option (List (Pointer N))
  | 0, _ => some []
  | fuel + 1, it =>
      match it.container with
      | [] => some []
      | _ :: _ => it.deref.bind fun p => (collect fuel it.next).map (p :: ·)

end Iterator

/-- The pointers from `begin` to `end`. It takes one step more than there are pointers to see that the
iteration is over. -/
def elements (S : OffsetsSetPointsToSet N) : Option (List (Pointer N)) :=
  Iterator.collect (S.size + 1) (Iterator.start S.pointers.entries)

/-- The pointers of an entry. -/
def entryPointers (e : Entry N) : List (Pointer N) :=
  e.2.elements.map fun i => ⟨e.1, ⟨BitVec.ofNat 64 i⟩⟩

/-- The iteration over entries, one after the other. -/
def iterated : List (Entry N) → Option (List (Pointer N))
  | [] => some []
  | e :: es => if e.2.elements = [] then none else (iterated es).map (entryPointers e ++ ·)

/-- The iteration over one entry, when the one over the entries behind it is known. -/
theorem collect_gives {e : Entry N} {es : List (Entry N)} {n : Nat} {r : Option (List (Pointer N))}
    (hbehind : ∀ fuel, n < fuel → (Iterator.start es).collect fuel = r)
    {inner : SparseBitvector.Iterator} {l : List Nat} (h : inner.Gives l)
    (hne : inner.container ≠ []) : ∀ fuel, l.length + n < fuel →
      (Iterator.collect fuel ⟨e :: es, inner⟩) =
        r.map ((l.map fun i => ⟨e.1, ⟨BitVec.ofNat 64 i⟩⟩) ++ ·) := by
  induction h with
  | stop hstop => exact absurd hstop hne
  | @step inner w ws l hw hgives ih =>
      intro fuel hfuel
      rw [List.length_cons] at hfuel
      cases fuel with
      | zero => omega
      | succ fuel =>
          have hderef : (⟨e :: es, inner⟩ : Iterator N).deref =
              some ⟨e.1, ⟨BitVec.ofNat 64 (w.1 + inner.pos)⟩⟩ := by
            simp only [Iterator.deref, hw]
          have hrest : Iterator.collect fuel (Iterator.next ⟨e :: es, inner⟩) =
              r.map ((l.map fun i => ⟨e.1, ⟨BitVec.ofNat 64 i⟩⟩) ++ ·) := by
            by_cases hlast : inner.next.container = []
            · -- the last offset of the entry
              obtain rfl := hgives.eq_nil_iff.2 hlast
              have hnext : Iterator.next ⟨e :: es, inner⟩ = Iterator.start es := if_pos hlast
              rw [hnext, hbehind fuel (by omega)]
              cases r <;> rfl
            · have hnext : Iterator.next ⟨e :: es, inner⟩ = ⟨e :: es, inner.next⟩ := if_neg hlast
              rw [hnext]
              exact ih hlast fuel (by omega)
          rw [Iterator.collect, hderef, Option.bind_some, hrest, Option.map_map]
          rfl

theorem collect_start (es : List (Entry N)) : ∀ fuel, (es.map fun e => e.2.size).sum < fuel →
    (Iterator.start es).collect fuel = iterated es := by
  induction es with
  | nil =>
      intro fuel hfuel
      cases fuel with
      | zero => cases hfuel
      | succ fuel => rfl
  | cons e es ih =>
      intro fuel hfuel
      rw [List.map_cons, List.sum_cons, SparseBitvector.size_eq] at hfuel
      have hgives := e.2.gives_elements
      rw [iterated]
      split
      · next hempty =>
          -- an entry without offsets: the iterator is at their end
          have hstop := hgives.eq_nil_iff.1 hempty
          cases fuel with
          | zero => omega
          | succ fuel =>
              have hderef : (Iterator.start (e :: es)).deref = none := by
                simp only [Iterator.start, Iterator.deref, hstop]
              show (Iterator.start (e :: es)).deref.bind _ = none
              rw [hderef]
              rfl
      · next hne =>
          apply collect_gives ih hgives
          · exact fun hstop => hne (hgives.eq_nil_iff.2 hstop)
          · exact hfuel

/-- **An iteration** gives the pointers of one entry after the other, or fails at an entry without
offsets. -/
theorem elements_eq (S : OffsetsSetPointsToSet N) : S.elements = iterated S.pointers.entries :=
  collect_start S.pointers.entries (S.size + 1) (Nat.lt_succ_self _)

theorem iterated_eq_some_iff {es : List (Entry N)} {l : List (Pointer N)} :
    iterated es = some l ↔ (∀ e ∈ es, e.2.elements ≠ []) ∧ l = es.flatMap entryPointers := by
  induction es generalizing l with
  | nil =>
      constructor
      · rintro ⟨⟩
        exact ⟨fun _ he => absurd he List.not_mem_nil, rfl⟩
      · rintro ⟨-, rfl⟩
        rfl
  | cons e es ih =>
      rw [iterated, List.forall_mem_cons, List.flatMap_cons]
      split
      · next hempty => exact iff_of_false (by simp) fun h => h.1.1 hempty
      · next hne =>
          rw [Option.map_eq_some_iff]
          constructor
          · rintro ⟨rest, hrest, rfl⟩
            rcases ih.1 hrest with ⟨hes, rfl⟩
            exact ⟨⟨hne, hes⟩, rfl⟩
          · rintro ⟨⟨-, hes⟩, rfl⟩
            exact ⟨_, ih.2 ⟨hes, rfl⟩, rfl⟩

/-! ## Sets with the same pointers -/

variable [DecidableEq N]

/-- The offsets of a target. -/
def offsets (S : OffsetsSetPointsToSet N) (t : PSNode N) : SparseBitvector :=
  (S.pointers.lookup t).getD .empty

theorem pointsTo_eq (S : OffsetsSetPointsToSet N) (p : Pointer N) :
    S.pointsTo p = (S.offsets p.target).get p.offset.toNat := by
  rw [pointsTo, offsets]
  cases S.pointers.lookup p.target with
  | none => rfl
  | some v => rfl

theorem offsets_of_lookup {S : OffsetsSetPointsToSet N} {t : PSNode N} {v : SparseBitvector}
    (h : S.pointers.lookup t = some v) : S.offsets t = v := by
  rw [offsets, h, Option.getD_some]

/-- A target without an entry has no offsets. -/
theorem not_pointsTo_of_lookup {S : OffsetsSetPointsToSet N} {p : Pointer N}
    (h : S.pointers.lookup p.target = none) : ¬ S.pointsTo p = true := by
  rw [pointsTo, h]
  exact Bool.false_ne_true

theorem offsets_assign (S : OffsetsSetPointsToSet N) (t t' : PSNode N) (v : SparseBitvector) :
    (S.assign t v).offsets t' = if t' = t then v else S.offsets t' := by
  rw [offsets, assign]
  split
  · next h =>
      rw [h, AList.lookup_insert]
      rfl
  · next h =>
      rw [AList.lookup_insert_ne h]
      rfl

/-- No entry is without offsets. -/
def Full (S : OffsetsSetPointsToSet N) : Prop :=
  ∀ t v, S.pointers.lookup t = some v → ∃ i, v.get i = true

/-- The set has the pointers of the plain set and no entry without offsets. -/
structure Matches (S : OffsetsSetPointsToSet N) (T : PointsToSet N) : Prop where
  bounded : S.Bounded
  full : S.Full
  mem : ∀ p, S.pointsTo p = true ↔ p ∈ T

/-- The set contains, counts and iterates over the pointers of the plain set. -/
structure ContentsRight (S : OffsetsSetPointsToSet N) (T : PointsToSet N) : Prop where
  contains : ∀ p, S.pointsTo p = true ↔ p ∈ T
  size : S.size = T.pointers.length
  iterates : ∃ l, S.elements = some l ∧ l.Perm T.pointers

variable {S : OffsetsSetPointsToSet N} {T : PointsToSet N}

theorem elements_ne_nil_iff {v : SparseBitvector} : v.elements ≠ [] ↔ ∃ i, v.get i = true := by
  constructor
  · intro h
    rcases List.exists_mem_of_ne_nil _ h with ⟨i, hi⟩
    exact ⟨i, SparseBitvector.mem_elements.1 hi⟩
  · rintro ⟨i, hi⟩
    exact List.ne_nil_of_mem (SparseBitvector.mem_elements.2 hi)

theorem full_iff : S.Full ↔ ∀ e ∈ S.pointers.entries, e.2.elements ≠ [] := by
  constructor
  · intro h e he
    exact elements_ne_nil_iff.2 (h e.1 e.2 (AList.mem_lookup_iff.2 he))
  · intro h t v hv
    exact elements_ne_nil_iff.1 (h ⟨t, v⟩ (AList.mem_lookup_iff.1 hv))

theorem Bounded.toNat_eq (h : S.Bounded) {e : Entry N} (he : e ∈ S.pointers.entries) {i : Nat}
    (hi : i ∈ e.2.elements) : (⟨BitVec.ofNat 64 i⟩ : Offset).toNat = i :=
  Nat.mod_eq_of_lt (h e.1 e.2 (AList.mem_lookup_iff.2 he) i (SparseBitvector.mem_elements.1 hi))

theorem mem_flatMap_entryPointers (h : S.Bounded) (p : Pointer N) :
    p ∈ S.pointers.entries.flatMap entryPointers ↔ S.pointsTo p = true := by
  rw [List.mem_flatMap]
  constructor
  · rintro ⟨e, he, hp⟩
    rcases List.mem_map.1 hp with ⟨i, hi, rfl⟩
    have hlookup : S.pointers.lookup e.1 = some e.2 := AList.mem_lookup_iff.2 he
    rw [pointsTo_eq, offsets_of_lookup hlookup, h.toNat_eq he hi]
    exact SparseBitvector.mem_elements.1 hi
  · intro hp
    rw [pointsTo] at hp
    split at hp
    · cases hp
    · next v hv =>
        have he : (⟨p.target, v⟩ : Entry N) ∈ S.pointers.entries := AList.mem_lookup_iff.1 hv
        have hmem := SparseBitvector.mem_elements.2 hp
        refine ⟨⟨p.target, v⟩, he, List.mem_map.2 ⟨p.offset.toNat, hmem, ?_⟩⟩
        have hoff : (⟨BitVec.ofNat 64 p.offset.toNat⟩ : Offset) = p.offset :=
          Offset.eq_iff.2 (h.toNat_eq he hmem)
        rw [hoff]

theorem nodup_flatMap_entryPointers (h : S.Bounded) :
    (S.pointers.entries.flatMap entryPointers).Nodup := by
  rw [List.nodup_flatMap]
  constructor
  · intro e he
    refine List.Nodup.map_on (fun i hi j hj heq => ?_) e.2.nodup_elements
    have hoff := congrArg Pointer.offset heq
    rw [← h.toNat_eq he hi, ← h.toNat_eq he hj]
    exact congrArg Offset.toNat hoff
  · -- different entries have different targets
    have hkeys := List.nodupKeys_iff_pairwise.1 S.pointers.nodupKeys
    refine hkeys.imp fun {e e'} hne => ?_
    intro p hp hp'
    rcases List.mem_map.1 hp with ⟨i, -, rfl⟩
    rcases List.mem_map.1 hp' with ⟨j, -, heq⟩
    exact hne (congrArg Pointer.target heq).symm

omit [DecidableEq N] in
theorem size_eq (S : OffsetsSetPointsToSet N) :
    S.size = (S.pointers.entries.flatMap entryPointers).length := by
  rw [size, List.length_flatMap]
  congr 1
  refine List.map_congr_left fun e _ => ?_
  rw [entryPointers, List.length_map, SparseBitvector.size_eq]

/-- **What is right about a set**, apart from its pointers, is that no entry is without offsets. -/
theorem contentsRight_iff (h : S.Bounded) : S.ContentsRight T ↔ S.Matches T := by
  constructor
  · intro hright
    rcases hright.iterates with ⟨l, hl, -⟩
    -- the iteration would have failed at an entry without offsets
    rw [elements_eq] at hl
    exact ⟨h, full_iff.2 (iterated_eq_some_iff.1 hl).1, hright.contains⟩
  · intro hmatches
    have hperm : (S.pointers.entries.flatMap entryPointers).Perm T.pointers := by
      rw [List.perm_ext_iff_of_nodup (nodup_flatMap_entryPointers h) T.nodup]
      intro p
      rw [mem_flatMap_entryPointers h]
      exact hmatches.mem p
    refine ⟨hmatches.mem, ?_, _, ?_, hperm⟩
    · rw [size_eq, hperm.length_eq]
    · rw [elements_eq]
      exact iterated_eq_some_iff.2 ⟨full_iff.1 hmatches.full, rfl⟩

/-! ## The operations -/

/-- The pointers are others than before. -/
def Changed (S S' : OffsetsSetPointsToSet N) : Prop := ∃ p, S'.pointsTo p ≠ S.pointsTo p

theorem not_changed_self (S : OffsetsSetPointsToSet N) : ¬ S.Changed S := fun ⟨_, hp⟩ => hp rfl

theorem pointsTo_assign (S : OffsetsSetPointsToSet N) (t : PSNode N) (v : SparseBitvector)
    (q : Pointer N) : (S.assign t v).pointsTo q =
      if q.target = t then v.get q.offset.toNat else S.pointsTo q := by
  rw [pointsTo_eq, pointsTo_eq, offsets_assign]
  split
  · rfl
  · rfl

theorem Full.assign (h : S.Full) {t : PSNode N} {v : SparseBitvector} (hv : ∃ i, v.get i = true) :
    (S.assign t v).Full := by
  intro t' v' h'
  by_cases ht : t' = t
  · subst ht
    rw [OffsetsSetPointsToSet.assign, AList.lookup_insert] at h'
    obtain rfl := Option.some.inj h'
    exact hv
  · rw [OffsetsSetPointsToSet.assign, AList.lookup_insert_ne ht] at h'
    exact h t' v' h'

/-- `add` by the questions that it asks. -/
theorem add_eq (S : OffsetsSetPointsToSet N) (p : Pointer N) :
    S.add p = if S.pointsTo p.widen then (S, false)
      else if p.offset.isUnknown then
        (S.assign p.target (SparseBitvector.empty.set p.offset.toNat).1, true)
      else (S.assign p.target ((S.offsets p.target).set p.offset.toNat).1, !S.pointsTo p) := by
  have hwide : S.pointsTo p.widen = (S.offsets p.target).get Offset.unknown.toNat := pointsTo_eq S _
  rw [hwide, pointsTo_eq S p, add, addWithUnknownOffset, offsets]
  by_cases hunknown : p.offset.isUnknown = true
  · rw [if_pos hunknown, if_pos hunknown, (Offset.isUnknown_iff _).1 hunknown]
    cases S.pointers.lookup p.target with
    | none => rfl
    | some v => rfl
  · rw [if_neg hunknown, if_neg hunknown]
    cases S.pointers.lookup p.target with
    | none => rfl
    | some v =>
        simp only [Option.getD_some, SparseBitvector.set_report]

omit [DecidableEq N] in
theorem pointer_eq_iff {p q : Pointer N} :
    q = p ↔ q.target = p.target ∧ q.offset.toNat = p.offset.toNat := by
  rw [← Offset.eq_iff]
  constructor
  · rintro rfl
    exact ⟨rfl, rfl⟩
  · rintro ⟨ht, hoff⟩
    cases p
    cases q
    cases ht
    cases hoff
    rfl

/-- The pointer alone takes the place of those to its target. -/
theorem pointsTo_assign_single (S : OffsetsSetPointsToSet N) (p q : Pointer N) :
    (S.assign p.target (SparseBitvector.empty.set p.offset.toNat).1).pointsTo q = true ↔
      (S.pointsTo q = true ∧ q.target ≠ p.target) ∨ q = p := by
  rw [pointsTo_assign, SparseBitvector.get_set, pointer_eq_iff]
  by_cases ht : q.target = p.target
  · simp [ht]
  · simp [ht]

/-- The pointer comes to those to its target. -/
theorem pointsTo_assign_set (S : OffsetsSetPointsToSet N) (p q : Pointer N) :
    (S.assign p.target ((S.offsets p.target).set p.offset.toNat).1).pointsTo q = true ↔
      S.pointsTo q = true ∨ q = p := by
  rw [pointsTo_assign, SparseBitvector.get_set, pointer_eq_iff, pointsTo_eq]
  by_cases ht : q.target = p.target
  · by_cases hoff : q.offset.toNat = p.offset.toNat
    · simp [ht, hoff]
    · simp [ht, hoff]
  · simp [ht]

/-- An addition keeps the pointers the same, and reports whether there is a new one. -/
theorem Matches.add (h : S.Matches T) (p : Pointer N) :
    (S.add p).1.Matches (PointsToSet.add p T).1 ∧
      ((S.add p).2 = true ↔ S.Changed (S.add p).1) := by
  have hwide : S.pointsTo p.widen = T.has p.widen := by
    rw [Bool.eq_iff_iff, h.mem]
    exact decide_eq_true_iff.symm
  have hset : ∀ v : SparseBitvector, ∃ i, (v.set p.offset.toNat).1.get i = true := fun v =>
    ⟨p.offset.toNat, by rw [SparseBitvector.get_set, if_pos rfl]⟩
  have hbounded := h.bounded.add p
  rw [PointsToSet.add, ← hwide]
  rw [add_eq] at hbounded ⊢
  by_cases hcovered : S.pointsTo p.widen = true
  · rw [if_pos hcovered, if_pos hcovered]
    exact ⟨h, iff_of_false Bool.false_ne_true S.not_changed_self⟩
  · rw [if_neg hcovered] at hbounded ⊢
    rw [if_neg hcovered]
    by_cases hunknown : p.offset.isUnknown = true
    · -- the unknown offset takes the place of the known ones
      rw [if_pos hunknown] at hbounded ⊢
      rw [if_pos hunknown]
      have hself : p.widen = p := Pointer.widen_eq_self ((Offset.isUnknown_iff _).1 hunknown)
      refine ⟨⟨hbounded, h.full.assign (hset _), fun q => ?_⟩, iff_of_true rfl ⟨p, ?_⟩⟩
      · have hadd : (PointsToSet.addWithUnknownOffset p.target T).1 =
            (PointsToSet.set p.widen (T.removeAny p.target)).1 := rfl
        rw [pointsTo_assign_single, hadd, PointsToSet.mem_set, PointsToSet.mem_removeAny, hself,
          h.mem]
      · rw [hself] at hcovered
        rw [(pointsTo_assign_single S p p).2 (Or.inr rfl)]
        exact Ne.symm hcovered
    · rw [if_neg hunknown] at hbounded ⊢
      rw [if_neg hunknown]
      refine ⟨⟨hbounded, h.full.assign (hset _), fun q => ?_⟩, ?_⟩
      · rw [pointsTo_assign_set, PointsToSet.mem_set, h.mem]
      · rw [Bool.not_eq_true']
        constructor
        · intro hp
          refine ⟨p, ?_⟩
          rw [(pointsTo_assign_set S p p).2 (Or.inr rfl), hp]
          exact Bool.noConfusion
        · rintro ⟨q, hq⟩
          by_contra hp
          have hp : S.pointsTo p = true := Bool.not_eq_false _ ▸ hp
          apply hq
          rw [Bool.eq_iff_iff, pointsTo_assign_set]
          exact or_iff_left_of_imp fun heq => heq ▸ hp

/-! ### Unions -/

theorem pointsTo_unionEntry (S : OffsetsSetPointsToSet N) (e : Entry N) (q : Pointer N) :
    (S.unionEntry e.1 e.2).1.pointsTo q = true ↔
      S.pointsTo q = true ∨ (e.1 = q.target ∧ e.2.get q.offset.toNat = true) := by
  rw [unionEntry, pointsTo_assign, SparseBitvector.get_union, pointsTo_eq]
  by_cases ht : q.target = e.1
  · rw [if_pos ht, Bool.or_eq_true, ht]
    simp [offsets]
  · rw [if_neg ht]
    simp [Ne.symm ht]

/-- The loop of the union. -/
abbrev unionEntries (r : OffsetsSetPointsToSet N × Bool) (es : List (Entry N)) :
    OffsetsSetPointsToSet N × Bool :=
  es.foldl (fun r e => ((r.1.unionEntry e.1 e.2).1, r.2 || (r.1.unionEntry e.1 e.2).2)) r

theorem pointsTo_unionEntries {es : List (Entry N)} (r : OffsetsSetPointsToSet N × Bool)
    (q : Pointer N) : (unionEntries r es).1.pointsTo q = true ↔
      r.1.pointsTo q = true ∨ ∃ e ∈ es, e.1 = q.target ∧ e.2.get q.offset.toNat = true := by
  induction es generalizing r with
  | nil => simp
  | cons e es ih =>
      rw [unionEntries, List.foldl_cons]
      rw [ih, pointsTo_unionEntry, List.exists_mem_cons_iff, or_assoc]

/-- The report of the union: an offset came in. -/
theorem unionEntries_report {es : List (Entry N)} (r : OffsetsSetPointsToSet N × Bool)
    (hes : ∀ e ∈ es, ∀ i, e.2.get i = true → i < 2 ^ 64) : (unionEntries r es).2 = true ↔
      r.2 = true ∨ ∃ q, r.1.pointsTo q = false ∧
        ∃ e ∈ es, e.1 = q.target ∧ e.2.get q.offset.toNat = true := by
  induction es generalizing r with
  | nil => simp
  | cons e es ih =>
      have hfirst : (r.1.unionEntry e.1 e.2).2 = true ↔ ∃ q : Pointer N, r.1.pointsTo q = false ∧
          e.1 = q.target ∧ e.2.get q.offset.toNat = true := by
        show (((r.1.pointers.lookup e.1).getD .empty).union e.2).2 = true ↔ _
        rw [SparseBitvector.union_report]
        constructor
        · rintro ⟨i, hi, hnot⟩
          have hback : (⟨BitVec.ofNat 64 i⟩ : Offset).toNat = i :=
            Nat.mod_eq_of_lt (hes e List.mem_cons_self i hi)
          refine ⟨⟨e.1, ⟨BitVec.ofNat 64 i⟩⟩, ?_, rfl, ?_⟩
          · rw [pointsTo_eq, hback]
            exact hnot
          · rw [hback]
            exact hi
        · rintro ⟨q, hnot, ht, hq⟩
          refine ⟨q.offset.toNat, hq, ?_⟩
          rw [pointsTo_eq, ← ht] at hnot
          exact hnot
      rw [unionEntries, List.foldl_cons]
      rw [ih _ fun e' he' => hes e' (List.mem_cons_of_mem e he'), Bool.or_eq_true, hfirst, or_assoc]
      refine or_congr_right ?_
      constructor
      · rintro (⟨q, hnot, he⟩ | ⟨q, hnot, he⟩)
        · exact ⟨q, hnot, e, List.mem_cons_self, he⟩
        · rcases he with ⟨e', he', ht⟩
          refine ⟨q, ?_, e', List.mem_cons_of_mem e he', ht⟩
          rw [← Bool.not_eq_true] at hnot ⊢
          exact fun hq => hnot ((pointsTo_unionEntry r.1 e q).2 (Or.inl hq))
      · rintro ⟨q, hnot, e', he', ht⟩
        rcases List.mem_cons.1 he' with rfl | he'
        · exact Or.inl ⟨q, hnot, ht⟩
        · -- it may have come in with the first entry
          by_cases hq : (r.1.unionEntry e.1 e.2).1.pointsTo q = true
          · rcases (pointsTo_unionEntry r.1 e q).1 hq with hold | hnew
            · rw [hnot] at hold
              cases hold
            · exact Or.inl ⟨q, hnot, hnew⟩
          · exact Or.inr ⟨q, Bool.not_eq_true _ ▸ hq, e', he', ht⟩

theorem full_unionEntries {es : List (Entry N)} {r : OffsetsSetPointsToSet N × Bool}
    (hr : r.1.Full) (hes : ∀ e ∈ es, ∃ i, e.2.get i = true) : (unionEntries r es).1.Full := by
  induction es generalizing r with
  | nil => exact hr
  | cons e es ih =>
      rw [unionEntries, List.foldl_cons]
      apply ih
      · rcases hes e List.mem_cons_self with ⟨i, hi⟩
        refine hr.assign ⟨i, ?_⟩
        rw [SparseBitvector.get_union, hi, Bool.or_true]
      · exact fun e' he' => hes e' (List.mem_cons_of_mem e he')

theorem exists_entry_iff (S : OffsetsSetPointsToSet N) (q : Pointer N) :
    (∃ e ∈ S.pointers.entries, e.1 = q.target ∧ e.2.get q.offset.toNat = true) ↔
      S.pointsTo q = true := by
  rw [pointsTo]
  constructor
  · rintro ⟨e, he, ht, hq⟩
    have hlookup : S.pointers.lookup e.1 = some e.2 := AList.mem_lookup_iff.2 he
    rw [← ht, hlookup]
    exact hq
  · intro hq
    split at hq
    · cases hq
    · next v hv => exact ⟨⟨q.target, v⟩, AList.mem_lookup_iff.1 hv, rfl, hq⟩

/-- A union puts the pointers together, and reports whether there is a new one. -/
theorem Matches.union {S' : OffsetsSetPointsToSet N} {T' : PointsToSet N} (h : S.Matches T)
    (h' : S'.Matches T') : (union S' S).1.Matches (PointsToSet.union T' T).1 ∧
      ((union S' S).2 = true ↔ S.Changed (union S' S).1) := by
  have hpoints : ∀ q, (OffsetsSetPointsToSet.union S' S).1.pointsTo q =
      (S.pointsTo q || S'.pointsTo q) := by
    intro q
    rw [Bool.eq_iff_iff, Bool.or_eq_true]
    exact (pointsTo_unionEntries (S, false) q).trans (or_congr_right (exists_entry_iff S' q))
  refine ⟨⟨h.bounded.union h'.bounded, ?_, fun q => ?_⟩, ?_⟩
  · exact full_unionEntries h.full fun e he => h'.full e.1 e.2 (AList.mem_lookup_iff.2 he)
  · rw [hpoints, Bool.or_eq_true, PointsToSet.mem_union, h.mem, h'.mem]
  · have hreport : (OffsetsSetPointsToSet.union S' S).2 = true ↔ _ :=
      unionEntries_report (S, false) fun e he => h'.bounded e.1 e.2 (AList.mem_lookup_iff.2 he)
    rw [hreport, or_iff_right Bool.false_ne_true]
    refine exists_congr fun q => ?_
    rw [exists_entry_iff, hpoints]
    cases S.pointsTo q with
    | true => simp
    | false => cases S'.pointsTo q <;> simp

/-! ### Removals -/

open SparseBitvector (shift)

theorem full_assign_iff (h : S.Full) {t : PSNode N} {v : SparseBitvector} :
    (S.assign t v).Full ↔ ∃ i, v.get i = true :=
  ⟨fun h' => h' t v (AList.lookup_insert _), h.assign⟩

/-- An offset of a target is that of a pointer. -/
theorem Bounded.exists_pointer (h : S.Bounded) {t : PSNode N} {i : Nat}
    (hi : (S.offsets t).get i = true) :
    ∃ q : Pointer N, S.pointsTo q = true ∧ q.target = t ∧ q.offset.toNat = i := by
  have hlt : i < 2 ^ 64 := by
    rw [offsets] at hi
    cases hlookup : S.pointers.lookup t with
    | none =>
        rw [hlookup, Option.getD_none, SparseBitvector.get_empty] at hi
        cases hi
    | some v =>
        rw [hlookup] at hi
        exact h t v hlookup i hi
  have hback : (⟨BitVec.ofNat 64 i⟩ : Offset).toNat = i := Nat.mod_eq_of_lt hlt
  refine ⟨⟨t, ⟨BitVec.ofNat 64 i⟩⟩, ?_, rfl, hback⟩
  rw [pointsTo_eq, hback]
  exact hi

theorem pointsTo_remove (S : OffsetsSetPointsToSet N) (p q : Pointer N) :
    (S.remove p).1.pointsTo q = true ↔ S.pointsTo q = true ∧ q ≠ p := by
  rw [remove]
  split
  · next hnone =>
      refine (and_iff_left_of_imp ?_).symm
      rintro hq rfl
      exact not_pointsTo_of_lookup hnone hq
  · next v hv =>
      rw [pointsTo_assign, Ne, pointer_eq_iff]
      have hoffsets := offsets_of_lookup hv
      by_cases ht : q.target = p.target
      · rw [if_pos ht, SparseBitvector.get_unset_iff, pointsTo_eq, ht, hoffsets]
        simp [and_comm]
      · rw [if_neg ht]
        simp [ht]

/-- The report of a removal: the target has an offset in the word of the offset. -/
theorem remove_report (h : S.Bounded) (p : Pointer N) : (S.remove p).2 = true ↔
    ∃ q, S.pointsTo q = true ∧ q.target = p.target ∧
      shift q.offset.toNat = shift p.offset.toNat := by
  have hword : (S.remove p).2 = true ↔
      ∃ j, shift j = shift p.offset.toNat ∧ (S.offsets p.target).get j = true := by
    rw [remove, offsets]
    split
    · next hnone =>
        rw [hnone]
        simp [SparseBitvector.get_empty]
    · next v hv =>
        rw [hv]
        exact v.unset_report p.offset.toNat
  rw [hword]
  constructor
  · rintro ⟨j, hshift, hj⟩
    rcases h.exists_pointer hj with ⟨q, hq, ht, rfl⟩
    exact ⟨q, hq, ht, hshift⟩
  · rintro ⟨q, hq, ht, hshift⟩
    refine ⟨q.offset.toNat, hshift, ?_⟩
    rw [pointsTo_eq, ht] at hq
    exact hq

/-- A removal leaves an entry without offsets if it takes the only one. -/
theorem full_remove_iff (h : S.Full) (hbounded : S.Bounded) (p : Pointer N) :
    (S.remove p).1.Full ↔
      (S.pointsTo p = true → ∃ q, S.pointsTo q = true ∧ q ≠ p ∧ q.target = p.target) := by
  rw [remove]
  split
  · next hnone =>
      apply iff_of_true h
      exact fun hp => absurd hp (not_pointsTo_of_lookup hnone)
  · next v hv =>
      have hoffsets := offsets_of_lookup hv
      rw [full_assign_iff h]
      simp only [SparseBitvector.get_unset_iff]
      constructor
      · rintro ⟨i, hne, hi⟩ -
        rw [← hoffsets] at hi
        rcases hbounded.exists_pointer hi with ⟨q, hq, ht, rfl⟩
        exact ⟨q, hq, fun heq => hne (pointer_eq_iff.1 heq).2, ht⟩
      · intro hother
        by_cases hp : S.pointsTo p = true
        · rcases hother hp with ⟨q, hq, hne, ht⟩
          refine ⟨q.offset.toNat, fun heq => hne (pointer_eq_iff.2 ⟨ht, heq⟩), ?_⟩
          rw [pointsTo_eq, ht, hoffsets] at hq
          exact hq
        · -- nothing is taken
          rcases h p.target v hv with ⟨i, hi⟩
          refine ⟨i, ?_, hi⟩
          rintro rfl
          rw [pointsTo_eq, hoffsets] at hp
          exact hp hi

theorem changed_remove_iff (S : OffsetsSetPointsToSet N) (p : Pointer N) :
    S.Changed (S.remove p).1 ↔ S.pointsTo p = true := by
  constructor
  · rintro ⟨q, hq⟩
    by_contra hp
    apply hq
    rw [Bool.eq_iff_iff, pointsTo_remove]
    exact and_iff_left_of_imp fun hq' heq => hp (heq ▸ hq')
  · intro hp
    refine ⟨p, fun heq => ?_⟩
    rw [← heq, pointsTo_remove] at hp
    exact hp.2 rfl

/-- **Where a removal is right**: another pointer to the target stays, or there is nothing in the word
of a pointer that is not there. -/
def RemoveFits (T : PointsToSet N) (p : Pointer N) : Prop :=
  (p ∈ T → ∃ q ∈ T, q ≠ p ∧ q.target = p.target) ∧
  (p ∉ T → ∀ q ∈ T, q.target = p.target → shift q.offset.toNat ≠ shift p.offset.toNat)

theorem Matches.remove_iff (h : S.Matches T) (p : Pointer N) :
    ((S.remove p).1.Matches (SimplePointsToSet.remove p T).1 ∧
      ((S.remove p).2 = true ↔ S.Changed (S.remove p).1)) ↔ RemoveFits T p := by
  have hmatches : (S.remove p).1.Matches (SimplePointsToSet.remove p T).1 ↔
      (p ∈ T → ∃ q ∈ T, q ≠ p ∧ q.target = p.target) := by
    have hfull := full_remove_iff h.full h.bounded p
    simp only [h.mem] at hfull
    rw [← hfull]
    constructor
    · exact Matches.full
    · intro hfull
      refine ⟨h.bounded.remove p, hfull, fun q => ?_⟩
      rw [pointsTo_remove, h.mem]
      exact (T.mem_remove p q).symm
  -- the word of a pointer that is there has an offset
  have hreport : ((S.remove p).2 = true ↔ S.Changed (S.remove p).1) ↔
      (p ∉ T → ∀ q ∈ T, q.target = p.target → shift q.offset.toNat ≠ shift p.offset.toNat) := by
    rw [remove_report h.bounded, changed_remove_iff]
    simp only [h.mem]
    constructor
    · intro hiff hp q hq ht hshift
      exact hp (hiff.1 ⟨q, hq, ht, hshift⟩)
    · intro hword
      constructor
      · rintro ⟨q, hq, ht, hshift⟩
        by_contra hp
        exact hword hp q hq ht hshift
      · exact fun hp => ⟨p, hp, rfl, rfl⟩
  exact and_congr hmatches hreport

theorem pointsTo_removeAny (S : OffsetsSetPointsToSet N) (t : PSNode N) (q : Pointer N) :
    (S.removeAny t).1.pointsTo q = true ↔ S.pointsTo q = true ∧ q.target ≠ t := by
  rw [removeAny]
  split
  · next hnone =>
      refine (and_iff_left_of_imp ?_).symm
      rintro hq rfl
      exact not_pointsTo_of_lookup hnone hq
  · rw [pointsTo, pointsTo]
    by_cases ht : q.target = t
    · rw [ht, AList.lookup_erase]
      simp
    · rw [AList.lookup_erase_ne ht]
      simp [ht]

theorem Full.removeAny (h : S.Full) (t : PSNode N) : (S.removeAny t).1.Full := by
  rw [OffsetsSetPointsToSet.removeAny]
  split
  · exact h
  · intro t' v hv
    by_cases ht : t' = t
    · rw [ht, AList.lookup_erase] at hv
      cases hv
    · rw [AList.lookup_erase_ne ht] at hv
      exact h t' v hv

/-- The report of a removal of all offsets. -/
theorem Full.removeAny_report (h : S.Full) (hbounded : S.Bounded) (t : PSNode N) :
    (S.removeAny t).2 = true ↔ ∃ q, S.pointsTo q = true ∧ q.target = t := by
  rw [OffsetsSetPointsToSet.removeAny]
  split
  · next hnone =>
      refine iff_of_false Bool.false_ne_true ?_
      rintro ⟨q, hq, rfl⟩
      exact not_pointsTo_of_lookup hnone hq
  · next v hv =>
      refine iff_of_true rfl ?_
      rcases h t v hv with ⟨i, hi⟩
      rw [← offsets_of_lookup hv] at hi
      rcases hbounded.exists_pointer hi with ⟨q, hq, ht, -⟩
      exact ⟨q, hq, ht⟩

theorem changed_removeAny_iff (S : OffsetsSetPointsToSet N) (t : PSNode N) :
    S.Changed (S.removeAny t).1 ↔ ∃ q, S.pointsTo q = true ∧ q.target = t := by
  constructor
  · rintro ⟨q, hq⟩
    by_contra hnone
    apply hq
    rw [Bool.eq_iff_iff, pointsTo_removeAny]
    exact and_iff_left_of_imp fun hq' ht => hnone ⟨q, hq', ht⟩
  · rintro ⟨q, hq, ht⟩
    refine ⟨q, fun heq => ?_⟩
    rw [← heq, pointsTo_removeAny] at hq
    exact hq.2 ht

/-- What the additions of a list make, from a set in the normal form. -/
theorem mem_foldl_add_iff {ps : List (Pointer N)} {A : PointsToSet N} {H : Pointer N → Prop}
    (h : ∀ q, q ∈ A ↔ normalized H q) (q : Pointer N) :
    q ∈ ps.foldl (fun A p => (SimplePointsToSet.add p A).1) A ↔
      normalized (fun q => H q ∨ q ∈ ps) q := by
  induction ps generalizing A H with
  | nil =>
      simp only [List.not_mem_nil, or_false]
      exact h q
  | cons p ps ih =>
      have hcons : (fun q => H q ∨ q ∈ p :: ps) = fun q => (H q ∨ q = p) ∨ q ∈ ps := by
        funext q
        rw [List.mem_cons, or_assoc]
      rw [List.foldl_cons, hcons]
      apply ih
      intro q
      rw [SimplePointsToSet.add_eq]
      exact mem_add_iff_normalized h p q

/-- The plain set is built anew from the other pointers, and additions leave out known offsets beside
the unknown one. -/
theorem mem_simple_removeAny (t : PSNode N) (q : Pointer N) :
    q ∈ (SimplePointsToSet.removeAny t T).1 ↔
      (q ∈ T ∧ q.target ≠ t) ∧
        ((∃ p ∈ T, p.target = t) → q.widen ∈ T → q.offset = .unknown) := by
  have htarget : T.pointsToTarget t = true ↔ ∃ p ∈ T, p.target = t := by
    rw [PointsToSet.pointsToTarget, List.any_eq_true]
    exact exists_congr fun p => and_congr_right' decide_eq_true_iff
  rw [SimplePointsToSet.removeAny]
  split
  · next h =>
      -- nothing was in the new set
      have hempty : ∀ q : Pointer N, q ∈ PointsToSet.empty ↔ normalized (fun _ => False) q := fun q =>
        iff_of_false (PointsToSet.mem_empty q) fun hq => hq.1
      refine (mem_foldl_add_iff hempty q).trans ?_
      have hfilter : ∀ q, q ∈ (T.pointers.filter fun p => p.target ≠ t) ↔ q ∈ T ∧ q.target ≠ t := by
        intro q
        rw [List.mem_filter, decide_eq_true_iff]
        exact Iff.rfl
      simp only [normalized, false_or, hfilter]
      refine and_congr_right fun hq => ?_
      have hwide : q.widen.target ≠ t := hq.2
      rw [and_iff_left hwide]
      exact (imp_iff_right (htarget.1 h)).symm
  · next h =>
      rw [htarget] at h
      constructor
      · exact fun hq => ⟨⟨hq, fun ht => h ⟨q, hq, ht⟩⟩, fun hsome => absurd hsome h⟩
      · exact fun hq => hq.1.1

/-- **Where the removal of all offsets is right**: no other target has its unknown offset and a known
one. -/
def RemoveAnyFits (T : PointsToSet N) (t : PSNode N) : Prop :=
  (∃ q ∈ T, q.target = t) → ∀ q ∈ T, q.target ≠ t → q.widen ∈ T → q.offset = .unknown

theorem Matches.removeAny_iff (h : S.Matches T) (t : PSNode N) :
    ((S.removeAny t).1.Matches (SimplePointsToSet.removeAny t T).1 ∧
      ((S.removeAny t).2 = true ↔ S.Changed (S.removeAny t).1)) ↔ RemoveAnyFits T t := by
  have hreport : (S.removeAny t).2 = true ↔ S.Changed (S.removeAny t).1 := by
    rw [h.full.removeAny_report h.bounded, changed_removeAny_iff]
  rw [and_iff_left hreport]
  constructor
  · intro hmatches hsome q hq ht
    have hmem := (hmatches.mem q).1 ((pointsTo_removeAny S t q).2 ⟨(h.mem q).2 hq, ht⟩)
    exact ((mem_simple_removeAny t q).1 hmem).2 hsome
  · intro hfits
    refine ⟨h.bounded.removeAny t, h.full.removeAny t, fun q => ?_⟩
    rw [pointsTo_removeAny, h.mem, mem_simple_removeAny]
    exact (and_iff_left_of_imp fun hq hsome => hfits hsome q hq.1 hq.2).symm

/-! ## Runs -/

/-- What an operation returns. The query returns nothing about a change. -/
def report (sets : Nat → OffsetsSetPointsToSet N) : ChangeOp N → Bool
  | .add i p => ((sets i).add p).2
  | .union i j => (union (sets j) (sets i)).2
  | .remove i p => ((sets i).remove p).2
  | .removeAny i t => ((sets i).removeAny t).2
  | .pointsTo _ _ => false

/-- In each state of the run, each set contains, counts and iterates over the pointers of the plain
one, and each operation returns whether the pointers of a set changed. -/
structure RefinesRun (ops : List (ChangeOp N)) : Prop where
  contents : ∀ pre, pre <+: ops → ∀ i,
    (changed pre i).ContentsRight (SimplePointsToSet.changed pre i)
  reports : ∀ pre op, pre ++ [op] <+: ops →
    (report (changed pre) op = true ↔ ∃ i, (changed pre i).Changed (changed (pre ++ [op]) i))

/-- **Where an operation is right**, by the plain sets before it. -/
def Fits (plain : Nat → PointsToSet N) : ChangeOp N → Prop
  | .remove i p => RemoveFits (plain i) p
  | .removeAny i t => RemoveAnyFits (plain i) t
  | _ => True

def FitsRun (ops : List (ChangeOp N)) : Prop :=
  ∀ pre op, pre ++ [op] <+: ops → Fits (SimplePointsToSet.changed pre) op

omit [DecidableEq N] in
/-- In the empty run there is no step. -/
theorem not_concat_prefix_nil (pre : List (ChangeOp N)) (op : ChangeOp N) :
    ¬ pre ++ [op] <+: [] := by
  rw [List.prefix_nil]
  exact List.append_ne_nil_of_right_ne_nil pre (List.cons_ne_nil op [])

theorem changed_concat (ops : List (ChangeOp N)) (op : ChangeOp N) :
    changed (ops ++ [op]) = change (changed ops) op := by
  rw [changed, List.foldl_append]
  rfl

theorem simpleChanged_concat (ops : List (ChangeOp N)) (op : ChangeOp N) :
    SimplePointsToSet.changed (ops ++ [op]) =
      SimplePointsToSet.change (SimplePointsToSet.changed ops) op := by
  rw [SimplePointsToSet.changed, List.foldl_append]
  rfl

variable {sets : Nat → OffsetsSetPointsToSet N} {plain : Nat → PointsToSet N}

/-- One set is another one, and the others stay. -/
theorem matches_update_iff (h : ∀ i, (sets i).Matches (plain i)) (i : Nat)
    (S : OffsetsSetPointsToSet N) (T : PointsToSet N) :
    (∀ j, (Function.update sets i S j).Matches (Function.update plain i T j)) ↔ S.Matches T := by
  constructor
  · intro h'
    have hi := h' i
    rw [Function.update_self, Function.update_self] at hi
    exact hi
  · intro hS j
    by_cases hj : j = i
    · subst hj
      rw [Function.update_self, Function.update_self]
      exact hS
    · rw [Function.update_of_ne hj, Function.update_of_ne hj]
      exact h j

theorem changed_update_iff (sets : Nat → OffsetsSetPointsToSet N) (i : Nat)
    (S : OffsetsSetPointsToSet N) :
    (∃ j, (sets j).Changed (Function.update sets i S j)) ↔ (sets i).Changed S := by
  constructor
  · rintro ⟨j, hj⟩
    by_cases h : j = i
    · subst h
      rw [Function.update_self] at hj
      exact hj
    · rw [Function.update_of_ne h] at hj
      exact absurd hj (not_changed_self _)
  · intro hS
    refine ⟨i, ?_⟩
    rw [Function.update_self]
    exact hS

/-- **One operation** keeps the sets the same and reports its change exactly where it is right. -/
theorem matches_change_iff (h : ∀ i, (sets i).Matches (plain i)) (op : ChangeOp N) :
    ((∀ i, (change sets op i).Matches (SimplePointsToSet.change plain op i)) ∧
      (report sets op = true ↔ ∃ i, (sets i).Changed (change sets op i))) ↔ Fits plain op := by
  cases op with
  | add i p =>
      rw [change, SimplePointsToSet.change, matches_update_iff h, changed_update_iff,
        SimplePointsToSet.add_eq]
      exact iff_of_true ((h i).add p) trivial
  | union i j =>
      rw [change, SimplePointsToSet.change, matches_update_iff h, changed_update_iff]
      exact iff_of_true ((h i).union (h j)) trivial
  | remove i p =>
      rw [change, SimplePointsToSet.change, matches_update_iff h, changed_update_iff]
      exact (h i).remove_iff p
  | removeAny i t =>
      rw [change, SimplePointsToSet.change, matches_update_iff h, changed_update_iff]
      exact (h i).removeAny_iff t
  | pointsTo i p =>
      refine iff_of_true ⟨h, iff_of_false Bool.false_ne_true ?_⟩ trivial
      rintro ⟨j, hj⟩
      exact not_changed_self _ hj

theorem matches_empty : (empty : OffsetsSetPointsToSet N).Matches .empty := by
  refine ⟨.empty, ?_, fun p => ?_⟩
  · intro t v h
    cases h
  · exact iff_of_false Bool.false_ne_true (PointsToSet.mem_empty p)

/-- What is right about a run is what is right about its states and steps. -/
theorem refinesRun_concat_iff (ops : List (ChangeOp N)) (op : ChangeOp N) :
    RefinesRun (ops ++ [op]) ↔ RefinesRun ops ∧
      (∀ i, (changed (ops ++ [op]) i).ContentsRight (SimplePointsToSet.changed (ops ++ [op]) i)) ∧
      (report (changed ops) op = true ↔ ∃ i, (changed ops i).Changed (changed (ops ++ [op]) i)) := by
  constructor
  · intro h
    refine ⟨⟨?_, ?_⟩, h.contents _ List.prefix_rfl, h.reports _ _ List.prefix_rfl⟩
    · exact fun pre hpre => h.contents pre (hpre.trans (List.prefix_append ops [op]))
    · exact fun pre op' hpre => h.reports pre op' (hpre.trans (List.prefix_append ops [op]))
  · rintro ⟨h, hcontents, hreport⟩
    constructor
    case contents =>
      intro pre hpre
      rcases List.prefix_concat_iff.1 hpre with rfl | hpre
      · exact hcontents
      · exact h.contents pre hpre
    case reports =>
      intro pre op' hpre
      rcases List.prefix_concat_iff.1 hpre with heq | hpre
      · -- the last step
        rcases List.append_inj' heq rfl with ⟨rfl, hop⟩
        obtain rfl := List.singleton_inj.1 hop
        exact hreport
      · exact h.reports pre op' hpre

theorem fitsRun_concat_iff (ops : List (ChangeOp N)) (op : ChangeOp N) :
    FitsRun (ops ++ [op]) ↔ FitsRun ops ∧ Fits (SimplePointsToSet.changed ops) op := by
  constructor
  · intro h
    refine ⟨fun pre op' hpre => ?_, h ops op List.prefix_rfl⟩
    exact h pre op' (hpre.trans (List.prefix_append ops [op]))
  · rintro ⟨h, hop⟩ pre op' hpre
    rcases List.prefix_concat_iff.1 hpre with heq | hpre
    · rcases List.append_inj' heq rfl with ⟨rfl, hop'⟩
      obtain rfl := List.singleton_inj.1 hop'
      exact hop
    · exact h pre op' hpre

/-- **Where the sets refine the plain ones**: in the runs in which each removal leaves another pointer
to its target, or finds nothing in the word of a pointer that is not there, and in which no `removeAny`
meets another target with its unknown offset and a known one. -/
theorem offsetsSet_refines_iff (ops : List (ChangeOp N)) : RefinesRun ops ↔ FitsRun ops := by
  induction ops using List.reverseRecOn with
  | nil =>
      constructor
      · intro _ pre op hpre
        exact absurd hpre (not_concat_prefix_nil pre op)
      · intro _
        constructor
        case contents =>
          intro pre hpre i
          obtain rfl := List.prefix_nil.1 hpre
          exact (contentsRight_iff .empty).2 matches_empty
        case reports =>
          intro pre op hpre
          exact absurd hpre (not_concat_prefix_nil pre op)
  | append_singleton ops op ih =>
      rw [refinesRun_concat_iff, fitsRun_concat_iff, ← ih]
      refine and_congr_right fun hrun => ?_
      -- up to the last step the sets have the pointers of the plain ones
      have hmatches : ∀ i, (changed ops i).Matches (SimplePointsToSet.changed ops i) := fun i =>
        (contentsRight_iff (bounded_changed ops i)).1 (hrun.contents ops List.prefix_rfl i)
      rw [← matches_change_iff hmatches op]
      refine and_congr ?_ ?_
      · rw [changed_concat, simpleChanged_concat]
        refine forall_congr' fun i => contentsRight_iff ?_
        exact bounded_change (bounded_changed ops) op i
      · rw [changed_concat]

/-- The only pointer is removed: its entry stays, and the iteration has nothing to give there. A
pointer that is not there is removed: a change is reported. The unknown offset comes in with a union:
`removeAny` takes the known one from the plain set. -/
theorem offsetsSet_not_refines :
    ¬ RefinesRun ([.add 0 ⟨.node 1, 0⟩, .remove 0 ⟨.node 1, 0⟩] : List (ChangeOp Nat)) ∧
    ¬ RefinesRun ([.add 0 ⟨.node 1, 0⟩, .remove 0 ⟨.node 1, 8⟩] : List (ChangeOp Nat)) ∧
    ¬ RefinesRun ([.add 0 ⟨.node 1, 0⟩, .add 0 ⟨.node 2, 0⟩, .add 1 ⟨.node 1, .unknown⟩,
      .union 0 1, .removeAny 0 (.node 2)] : List (ChangeOp Nat)) := by
  refine ⟨fun h => ?_, fun h => ?_, fun h => ?_⟩
  · -- the entry of node 1 has no offsets
    rcases (h.contents _ List.prefix_rfl 0).iterates with ⟨l, hl, -⟩
    have hnone : (changed ([.add 0 ⟨.node 1, 0⟩, .remove 0 ⟨.node 1, 0⟩] : List (ChangeOp Nat))
        0).elements = none := by decide
    rw [hnone] at hl
    cases hl
  · -- offset 8 has the word of offset 0
    have hchanged := (h.reports [.add 0 ⟨.node 1, 0⟩] _ List.prefix_rfl).1 (by decide)
    rw [changed_concat, change, changed_update_iff, changed_remove_iff] at hchanged
    exact absurd hchanged (by decide)
  · -- the plain set has node 1 with its unknown offset alone
    have hmem := ((h.contents _ List.prefix_rfl 0).contains ⟨.node 1, 0⟩).1 (by decide)
    exact absurd (List.elem_eq_true_of_mem hmem) (by decide)

end OffsetsSetPointsToSet

end PointerAnalysis

end Cape
