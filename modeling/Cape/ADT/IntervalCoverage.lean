import Cape.ADT.IntervalMapRuns
import Cape.ADT.IntervalQueries

/-!
# What is covered

`uncovered`, `overlaps` and `overlapsFull` on maps with disjoint keys. `uncovered` overruns its
interval when an entry comes later and the end of the interval is not covered
(`uncoveredExactly_iff`). `overlaps` and `overlapsFull` look at the first entry that does not start
before the interval, and miss the one before it (`overlaps_right_iff`).
-/

set_option autoImplicit false

namespace Cape.DisjunctiveIntervalMap

universe u

variable {V : Type u}

/-! ## Queries -/

/-- `overlaps`. -/
def overlaps (I : DiscreteInterval) (m : DisjunctiveIntervalMap V) : Bool :=
  match m.dropWhile fun e => e.1.start < I.start with
  | [] =>
      match m.getLast? with
      | none => false
      | some last => I.start ≤ last.1.stop
  | ge :: _ => ge.1.start ≤ I.stop

/-- The loop of `overlapsFull`: the entries touch, until one reaches the end. -/
def overlapsChain (stop : Offset) (ge : Entry V) : List (Entry V) → Bool
  | [] => stop ≤ ge.1.stop
  | e :: es =>
      if stop ≤ ge.1.stop then true
      else if e.1.start ≠ ge.1.stop + 1 then false
      else overlapsChain stop e es

/-- `overlapsFull`. -/
def overlapsFull (I : DiscreteInterval) (m : DisjunctiveIntervalMap V) : Bool :=
  match m.dropWhile fun e => e.1.start < I.start with
  | [] =>
      match m.getLast? with
      | none => false
      | some last => I.stop ≤ last.1.stop
  | ge :: rest =>
      if I.start < ge.1.start then
        match (m.takeWhile fun e => e.1.start < I.start).getLast? with
        | none => false
        | some prev =>
            if prev.1.stop ≠ ge.1.start - 1 then false else overlapsChain I.stop ge rest
      else overlapsChain I.stop ge rest

/-! ## Maps with disjoint keys -/

theorem KeysDisjoint.tail {e : Entry V} {m : DisjunctiveIntervalMap V} (h : KeysDisjoint (e :: m)) :
    KeysDisjoint m :=
  ⟨(List.pairwise_cons.1 h.disjoint).2, fun e' he' => h.proper e' (List.mem_cons_of_mem e he')⟩

theorem KeysDisjoint.right {m m' : DisjunctiveIntervalMap V} (h : KeysDisjoint (m ++ m')) :
    KeysDisjoint m' :=
  ⟨(List.pairwise_append.1 h.disjoint).2.1, fun e he => h.proper e (List.mem_append_right m he)⟩

theorem KeysDisjoint.toNat_le {e : Entry V} {m : DisjunctiveIntervalMap V} (h : KeysDisjoint m)
    (he : e ∈ m) : e.1.start.toNat ≤ e.1.stop.toNat :=
  Offset.le_iff.1 (h.proper e he)

theorem KeysDisjoint.toNat_lt {e e' : Entry V} {m : DisjunctiveIntervalMap V}
    (h : KeysDisjoint (e :: m)) (he' : e' ∈ m) : e.1.stop.toNat < e'.1.start.toNat :=
  Offset.lt_iff.1 ((List.pairwise_cons.1 h.disjoint).1 e' he')

/-- The bytes of the later entries. -/
theorem KeysDisjoint.lt_of_covers {e : Entry V} {m : DisjunctiveIntervalMap V}
    (h : KeysDisjoint (e :: m)) {b : Offset} (hb : Covers m b) : e.1.stop.toNat < b.toNat := by
  obtain ⟨e', he', hmem⟩ := hb
  have hlt := h.toNat_lt he'
  have hle := (DiscreteInterval.mem_iff.1 hmem).1
  omega

/-- Behind an entry only the later ones count. -/
theorem covers_cons_iff {e : Entry V} {m : DisjunctiveIntervalMap V} {b : Offset}
    (hb : e.1.stop.toNat < b.toNat) : Covers (e :: m) b ↔ Covers m b := by
  rw [covers_cons, DiscreteInterval.mem_iff]
  refine or_iff_right fun h => ?_
  omega

/-- Before an entry none of the later ones counts. -/
theorem KeysDisjoint.not_covers {e : Entry V} {m : DisjunctiveIntervalMap V}
    (h : KeysDisjoint (e :: m)) {b : Offset} (hb : b.toNat < e.1.start.toNat) :
    ¬ Covers (e :: m) b := by
  have hle := h.toNat_le List.mem_cons_self
  rw [covers_cons, DiscreteInterval.mem_iff]
  rintro (hmem | hm)
  · omega
  · have := h.lt_of_covers hm
    omega

theorem covers_append_iff {before ge : DisjunctiveIntervalMap V} {b : Offset}
    (hbefore : ∀ p ∈ before, p.1.stop.toNat < b.toNat) :
    Covers (before ++ ge) b ↔ Covers ge b := by
  constructor
  · rintro ⟨e, he, hmem⟩
    rcases List.mem_append.1 he with he | he
    · have := hbefore e he
      rw [DiscreteInterval.mem_iff] at hmem
      omega
    · exact ⟨e, he, hmem⟩
  · rintro ⟨e, he, hmem⟩
    exact ⟨e, List.mem_append_right before he, hmem⟩

/-- `lower_bound` splits the map. -/
theorem KeysDisjoint.exists_split {m : DisjunctiveIntervalMap V} (h : KeysDisjoint m)
    (I : DiscreteInterval) : ∃ before ge, m = before ++ ge ∧
      (m.takeWhile fun e => e.1.start < I.start) = before ∧
      (m.dropWhile fun e => e.1.start < I.start) = ge ∧
      (∀ e ∈ before, e.1.start.toNat < I.start.toNat) ∧
      ∀ e ∈ ge, I.start.toNat ≤ e.1.start.toNat := by
  refine ⟨_, _, List.takeWhile_append_dropWhile.symm, rfl, rfl, fun e he => ?_, ?_⟩
  · exact Offset.lt_iff.1 (start_lt_of_mem_takeWhile he)
  · induction m with
    | nil => exact nofun
    | cons e es ih =>
        rw [List.dropWhile_cons]
        split
        · exact ih h.tail
        · next hlt =>
            have hle := Offset.le_iff.1 (not_lt.1 fun hlt' => hlt (decide_eq_true hlt'))
            intro e' he'
            rcases List.mem_cons.1 he' with rfl | he'
            · exact hle
            · have hlt := h.toNat_lt he'
              have hproper := h.toNat_le List.mem_cons_self
              omega

/-- Entries before the last one that starts before `I` end before `I`. -/
theorem KeysDisjoint.lt_of_mem_init {pre ge : DisjunctiveIntervalMap V} {prev : Entry V}
    (h : KeysDisjoint (pre ++ [prev] ++ ge)) {n : Nat} (hprev : prev.1.start.toNat < n) :
    ∀ p ∈ pre, p.1.stop.toNat < n := by
  intro p hp
  have hpairs := (List.pairwise_append.1 (List.pairwise_append.1 h.disjoint).1).2.2
  have hlt := Offset.lt_iff.1 (hpairs p hp prev (List.mem_singleton_self prev))
  omega

/-! ## `uncovered` -/

theorem exists_toNat_eq {n : Nat} (h : n < 2 ^ 64) : ∃ b : Offset, b.toNat = n :=
  ⟨⟨BitVec.ofNat 64 n⟩, Nat.mod_eq_of_lt h⟩

/-- The last offset before the unknown one. -/
def lastByte : Offset := ⟨BitVec.allOnes 64 - 1⟩

@[simp] theorem toNat_lastByte : lastByte.toNat = 2 ^ 64 - 2 := rfl

/-- The intervals `Js`, in order, are the maximal ones whose bytes are the bytes of `I` that have no
entry. -/
structure UncoveredExactly (I : DiscreteInterval) (m : DisjunctiveIntervalMap V)
    (Js : List DiscreteInterval) : Prop where
  ordered : Js.Pairwise fun J J' => J.stop < J'.start
  bytes : ∀ b, (∃ J ∈ Js, b ∈ J) ↔ b ∈ I ∧ ¬ Covers m b
  maximal : ∀ J ∈ Js, J.start ≤ J.stop ∧ ∀ K : DiscreteInterval, (∀ b ∈ J, b ∈ K) →
    (∀ b ∈ K, b ∈ I ∧ ¬ Covers m b) → K = J

/-- The intervals do not touch, so that none of them can be made larger. -/
structure Apart (start stop : Nat) (m : DisjunctiveIntervalMap V) (Js : List DiscreteInterval) :
    Prop where
  apart : Js.Pairwise fun J J' => J.stop.toNat + 1 < J'.start.toNat
  proper : ∀ J ∈ Js, start ≤ J.start.toNat ∧ J.start.toNat ≤ J.stop.toNat
  bytes : ∀ b, (∃ J ∈ Js, b ∈ J) ↔ (start ≤ b.toNat ∧ b.toNat ≤ stop) ∧ ¬ Covers m b

/-- An interval with a byte in or next to another one is that one. -/
theorem Apart.eq_of_near {start stop : Nat} {m : DisjunctiveIntervalMap V}
    {Js : List DiscreteInterval} (h : Apart start stop m Js) {J J' : DiscreteInterval} (hJ : J ∈ Js)
    (hJ' : J' ∈ Js) {b : Offset} (hb : b ∈ J') (hle : b.toNat ≤ J.stop.toNat + 1)
    (hge : J.start.toNat ≤ b.toNat + 1) : J' = J := by
  rw [DiscreteInterval.mem_iff] at hb
  by_contra hne
  obtain ⟨pre, post, rfl⟩ := List.append_of_mem hJ
  have hsplit := List.pairwise_append.1 h.apart
  rcases List.mem_append.1 hJ' with hpre | hpost
  · have hsep := hsplit.2.2 J' hpre J List.mem_cons_self
    omega
  · rcases List.mem_cons.1 hpost with heq | hpost
    · exact hne heq
    · have hsep := (List.pairwise_cons.1 hsplit.2.1).1 J' hpost
      omega

theorem Apart.uncoveredExactly {I : DiscreteInterval} {m : DisjunctiveIntervalMap V}
    {Js : List DiscreteInterval} (h : Apart I.start.toNat I.stop.toNat m Js) :
    UncoveredExactly I m Js where
  ordered := h.apart.imp fun hlt => Offset.lt_iff.2 (by omega)
  bytes b := by rw [h.bytes b, DiscreteInterval.mem_iff]
  maximal := by
    intro J hJ
    have hproper := h.proper J hJ
    refine ⟨Offset.le_iff.2 hproper.2, fun K hJK hK => ?_⟩
    have hstart := DiscreteInterval.mem_iff.1 (hJK J.start (DiscreteInterval.mem_iff.2 (by omega)))
    have hstop := DiscreteInterval.mem_iff.1 (hJK J.stop (DiscreteInterval.mem_iff.2 (by omega)))
    -- a byte of `K` is in one of the intervals, and that one cannot be another one
    have hsame : ∀ b ∈ K, b.toNat + 1 = J.start.toNat ∨ b.toNat = J.stop.toNat + 1 → False := by
      intro b hb hnext
      have hb' := hK b hb
      rw [DiscreteInterval.mem_iff] at hb'
      rcases (h.bytes b).2 hb' with ⟨J', hJ', hmem⟩
      obtain rfl := h.eq_of_near hJ hJ' hmem (by omega) (by omega)
      rw [DiscreteInterval.mem_iff] at hmem
      omega
    have hbytes : ∀ n, K.start.toNat ≤ n → n ≤ K.stop.toNat →
        n + 1 = J.start.toNat ∨ n = J.stop.toNat + 1 → False := by
      intro n hge hle hnext
      obtain ⟨b, rfl⟩ := exists_toNat_eq (lt_of_le_of_lt hle K.stop.toNat_lt)
      exact hsame b (DiscreteInterval.mem_iff.2 ⟨hge, hle⟩) hnext
    have hfirst : K.start.toNat = J.start.toNat := by
      by_contra hne
      exact hbytes (J.start.toNat - 1) (by omega) (by omega) (Or.inl (by omega))
    have hlast : K.stop.toNat = J.stop.toNat := by
      by_contra hne
      exact hbytes (J.stop.toNat + 1) (by omega) (by omega) (Or.inr rfl)
    rw [← Offset.eq_iff] at hfirst hlast
    cases K
    cases J
    exact congrArg₂ DiscreteInterval.mk hfirst hlast

/-- The scan from `start` on runs over `stop`: the last byte and the one behind it have no entry, but
a later one has. Or the interval before an entry at the unknown offset is not empty, and the
subtraction does not leave the unknown offset. -/
def OverrunsFrom (start stop : Offset) (m : DisjunctiveIntervalMap V) : Prop :=
  (¬ Covers m stop ∧ ¬ Covers m (stop + 1) ∧ ∃ e ∈ m, stop < e.1.start) ∨
    (¬ Covers m lastByte ∧ start ≤ lastByte ∧ lastByte ≤ stop ∧ ∃ e ∈ m, e.1.start = .unknown)

theorem toNat_add_one_of_lt {a b : Offset} (h : a.toNat < b.toNat) :
    (a + 1).toNat = a.toNat + 1 := by
  have := b.toNat_lt
  exact Offset.toNat_add_one (by omega)

/-- The condition looks at bytes behind the first entry only. -/
theorem overrunsFrom_cons_iff {e : Entry V} {m : DisjunctiveIntervalMap V} {start stop : Offset}
    (hm : KeysDisjoint (e :: m)) (hstart : start.toNat ≤ e.1.stop.toNat)
    (hstop : e.1.stop.toNat < stop.toNat) :
    OverrunsFrom start stop (e :: m) ↔ OverrunsFrom (e.1.stop + 1) stop m := by
  have hproper := hm.toNat_le List.mem_cons_self
  have hsucc := toNat_add_one_of_lt hstop
  have hbound := stop.toNat_lt
  have hnext : e.1.stop.toNat < (stop + 1).toNat := by
    rw [Offset.toNat_add, Offset.toNat_one]
    omega
  have hlater : (∃ e' ∈ e :: m, stop < e'.1.start) ↔ ∃ e' ∈ m, stop < e'.1.start := by
    rw [List.exists_mem_cons_iff]
    refine or_iff_right fun h => ?_
    rw [Offset.lt_iff] at h
    omega
  have hunknown : (∃ e' ∈ e :: m, e'.1.start = .unknown) ↔ ∃ e' ∈ m, e'.1.start = .unknown := by
    rw [List.exists_mem_cons_iff]
    refine or_iff_right fun h => ?_
    rw [h, Offset.toNat_unknown] at hproper
    omega
  have hlast : (¬ Covers (e :: m) lastByte ∧ start ≤ lastByte) ↔
      (¬ Covers m lastByte ∧ e.1.stop + 1 ≤ lastByte) := by
    rw [Offset.le_iff, Offset.le_iff, hsucc, toNat_lastByte]
    by_cases hend : e.1.stop.toNat < 2 ^ 64 - 2
    · rw [covers_cons_iff (by rw [toNat_lastByte]; exact hend)]
      refine and_congr_right fun _ => ?_
      omega
    · -- the entry ends with the last byte
      refine iff_of_false (fun h => h.1 ?_) fun h => ?_
      · rw [covers_cons, DiscreteInterval.mem_iff, toNat_lastByte]
        left
        omega
      · omega
  rw [OverrunsFrom, OverrunsFrom, covers_cons_iff hstop, covers_cons_iff hnext, hlater, hunknown,
    ← and_assoc (a := ¬ Covers (e :: m) lastByte), hlast, and_assoc]

/-- The gap before an entry that does not start at the unknown offset. -/
theorem gap_spec {start : Offset} {e : Entry V} (h : start < e.1.start → e.1.start ≠ .unknown) :
    (∀ J ∈ (if start < e.1.start then [⟨start, e.1.start - 1⟩] else [] : List DiscreteInterval),
      J.start = start ∧ start.toNat ≤ J.stop.toNat ∧ J.stop.toNat + 1 = e.1.start.toNat) ∧
    ∀ b, (∃ J ∈ (if start < e.1.start then [⟨start, e.1.start - 1⟩] else [] :
        List DiscreteInterval), b ∈ J) ↔ start.toNat ≤ b.toNat ∧ b.toNat < e.1.start.toNat := by
  by_cases hlt : start < e.1.start
  · have hlt' := Offset.lt_iff.1 hlt
    have hpred := Offset.toNat_sub_one (Offset.ne_unknown_iff.1 (h hlt)) (by omega)
    rw [if_pos hlt]
    constructor
    · intro J hJ
      rw [List.mem_singleton.1 hJ]
      dsimp only
      exact ⟨rfl, by omega, by omega⟩
    · intro b
      simp only [List.mem_singleton, exists_eq_left, DiscreteInterval.mem_iff, hpred]
      omega
  · have hle := Offset.le_iff.1 (not_lt.1 hlt)
    rw [if_neg hlt]
    refine ⟨nofun, fun b => iff_of_false ?_ (by omega)⟩
    rintro ⟨J, hJ, -⟩
    cases hJ

theorem pairwise_gap (R : DiscreteInterval → DiscreteInterval → Prop) (start : Offset)
    (e : Entry V) :
    (if start < e.1.start then [⟨start, e.1.start - 1⟩] else [] :
      List DiscreteInterval).Pairwise R := by
  split
  · exact List.pairwise_singleton _ _
  · exact .nil

/-- **`uncovered`, from a byte on.** -/
theorem apart_uncoveredFrom {stop : Offset} {m : DisjunctiveIntervalMap V} :
    ∀ {start : Offset}, KeysDisjoint m → start ≤ stop → (∀ e ∈ m, start ≤ e.1.start) →
      ¬ OverrunsFrom start stop m →
        Apart start.toNat stop.toNat m (uncoveredFrom stop start m) := by
  induction m with
  | nil =>
      intro start _ hle _ _
      refine ⟨List.pairwise_singleton _ _, fun J hJ => ?_, fun b => ?_⟩
      · rw [List.mem_singleton.1 hJ]
        exact ⟨le_refl _, Offset.le_iff.1 hle⟩
      · simp [uncoveredFrom, DiscreteInterval.mem_iff]
  | cons e es ih =>
      intro start hm hle hge hnot
      have hle := Offset.le_iff.1 hle
      have hstart := Offset.le_iff.1 (hge e List.mem_cons_self)
      have hproper := hm.toNat_le List.mem_cons_self
      have hbound := stop.toNat_lt
      have hfree : ∀ b : Offset, b.toNat < e.1.start.toNat → ¬ Covers (e :: es) b := fun b hb =>
        hm.not_covers hb
      have hnot' := hnot
      rw [OverrunsFrom, not_or] at hnot'
      -- an entry behind the end comes right behind it
      have hnear : stop.toNat < e.1.start.toNat → e.1.start.toNat = stop.toNat + 1 := by
        intro hlt
        have hsucc := toNat_add_one_of_lt hlt
        by_contra hne
        exact hnot'.1 ⟨hfree _ hlt, hfree _ (by omega), e, List.mem_cons_self, Offset.lt_iff.2 hlt⟩
      have hknown : start < e.1.start → e.1.start ≠ .unknown := by
        intro hlt hunknown
        have hlt := Offset.lt_iff.1 hlt
        rw [hunknown, Offset.toNat_unknown] at hlt hnear
        refine hnot'.2 ⟨hfree _ ?_, ?_, ?_, e, List.mem_cons_self, hunknown⟩
        · rw [hunknown, toNat_lastByte, Offset.toNat_unknown]
          omega
        · rw [Offset.le_iff, toNat_lastByte]
          omega
        · rw [Offset.le_iff, toNat_lastByte]
          omega
      obtain ⟨hgap, hbytes⟩ := gap_spec hknown
      have hpairs := pairwise_gap (fun J J' => J.stop.toNat + 1 < J'.start.toNat) start e
      rw [uncoveredFrom]
      by_cases hend : stop ≤ e.1.stop
      · rw [if_pos hend, List.append_nil]
        have hend := Offset.le_iff.1 hend
        refine ⟨hpairs, fun J hJ => ?_, fun b => ?_⟩
        · rw [(hgap J hJ).1]
          exact ⟨le_refl _, (hgap J hJ).2.1⟩
        · rw [hbytes b]
          constructor
          · rintro ⟨hge, hlt⟩
            exact ⟨⟨hge, by omega⟩, hfree b hlt⟩
          · rintro ⟨⟨hge, hle⟩, hnotcov⟩
            refine ⟨hge, not_le.1 fun hge' => hnotcov ?_⟩
            rw [covers_cons, DiscreteInterval.mem_iff]
            exact Or.inl ⟨hge', by omega⟩
      · rw [if_neg hend]
        have hend := Offset.lt_iff.1 (not_le.1 hend)
        have hsucc := toNat_add_one_of_lt hend
        have hrest := ih hm.tail (Offset.le_iff.2 (by omega)) (fun e' he' => by
          have := hm.toNat_lt he'
          rw [Offset.le_iff]
          omega) ((not_congr (overrunsFrom_cons_iff hm (by omega) hend)).1 hnot)
        rw [hsucc] at hrest
        refine ⟨List.pairwise_append.2 ⟨hpairs, hrest.apart, fun J hJ J' hJ' => ?_⟩,
          fun J hJ => ?_, fun b => ?_⟩
        · have := (hgap J hJ).2.2
          have := (hrest.proper J' hJ').1
          omega
        · rcases List.mem_append.1 hJ with hJ | hJ
          · rw [(hgap J hJ).1]
            exact ⟨le_refl _, (hgap J hJ).2.1⟩
          · have := hrest.proper J hJ
            omega
        · -- before the entry, in it, behind it
          have hsplit : (∃ J ∈ (if start < e.1.start then [⟨start, e.1.start - 1⟩] else [] :
              List DiscreteInterval) ++ uncoveredFrom stop (e.1.stop + 1) es, b ∈ J) ↔
              (start.toNat ≤ b.toNat ∧ b.toNat < e.1.start.toNat) ∨
                (e.1.stop.toNat + 1 ≤ b.toNat ∧ b.toNat ≤ stop.toNat) ∧ ¬ Covers es b := by
            rw [← hbytes b, ← hrest.bytes b]
            simp only [List.mem_append, or_and_right, exists_or]
          rw [hsplit]
          rcases lt_or_ge b.toNat e.1.start.toNat with hb | hb
          · have hcov := hfree b hb
            simp only [hcov, not_false_eq_true, and_true]
            omega
          · rcases le_or_gt b.toNat e.1.stop.toNat with hb' | hb'
            · have hcov : Covers (e :: es) b := by
                rw [covers_cons, DiscreteInterval.mem_iff]
                exact Or.inl ⟨hb, hb'⟩
              simp only [hcov, not_true_eq_false, and_false, iff_false]
              omega
            · rw [covers_cons_iff hb', or_iff_right (by omega)]
              refine and_congr_left fun _ => ?_
              omega

/-- When the scan runs over the end, an interval has a byte that is not asked for, or one that has
an entry. -/
theorem exists_wrong_byte {stop : Offset} {m : DisjunctiveIntervalMap V} :
    ∀ {start : Offset}, KeysDisjoint m → start ≤ stop → (∀ e ∈ m, start ≤ e.1.start) →
      OverrunsFrom start stop m →
        ∃ J ∈ uncoveredFrom stop start m, ∃ b ∈ J, stop < b ∨ Covers m b := by
  induction m with
  | nil =>
      rintro start - - - (⟨-, -, e, he, -⟩ | ⟨-, -, -, e, he, -⟩)
      · cases he
      · cases he
  | cons e es ih =>
      intro start hm hle hge hover
      have hle := Offset.le_iff.1 hle
      have hstart := Offset.le_iff.1 (hge e List.mem_cons_self)
      have hproper := hm.toNat_le List.mem_cons_self
      have hbound := stop.toNat_lt
      rw [uncoveredFrom]
      by_cases hend : stop ≤ e.1.stop
      · -- the wrong interval is the gap before this entry
        rw [if_pos hend, List.append_nil]
        have hend := Offset.le_iff.1 hend
        have hmem : ∀ b : Offset, ¬ Covers (e :: es) b → b.toNat ≤ e.1.stop.toNat →
            b.toNat < e.1.start.toNat := by
          intro b hfree hle
          refine not_le.1 fun hge => hfree ?_
          rw [covers_cons, DiscreteInterval.mem_iff]
          exact Or.inl ⟨hge, hle⟩
        rcases hover with ⟨hstop, hnext, -⟩ | ⟨hlast, hfirst, hreach, -⟩
        · have hstop := hmem stop hstop hend
          have hsucc := toNat_add_one_of_lt hstop
          have hnext := hmem (stop + 1) hnext (by omega)
          have hlt : start < e.1.start := Offset.lt_iff.2 (by omega)
          have hpred : (stop + 1).toNat ≤ (e.1.start - 1).toNat := by
            by_cases hunknown : e.1.start = .unknown
            · rw [hunknown, Offset.unknown_sub, Offset.toNat_unknown]
              have := (stop + 1).toNat_lt
              omega
            · rw [Offset.toNat_sub_one (Offset.ne_unknown_iff.1 hunknown) (by omega)]
              omega
          rw [if_pos hlt]
          refine ⟨_, List.mem_singleton_self _, stop + 1, DiscreteInterval.mem_iff.2 ⟨?_, hpred⟩,
            Or.inl (Offset.lt_iff.2 (by omega))⟩
          dsimp only
          omega
        · rw [Offset.le_iff, toNat_lastByte] at hreach hfirst
          have hlast := hmem lastByte hlast (by rw [toNat_lastByte]; omega)
          rw [toNat_lastByte] at hlast
          have hunknown : e.1.start = .unknown := by
            have := e.1.start.toNat_lt
            rw [Offset.eq_iff, Offset.toNat_unknown]
            omega
          have hlt : start < e.1.start := Offset.lt_iff.2 (by omega)
          rw [if_pos hlt]
          refine ⟨_, List.mem_singleton_self _, .unknown, ?_, Or.inr ⟨e, List.mem_cons_self, ?_⟩⟩
          · rw [hunknown, Offset.unknown_sub, DiscreteInterval.mem_iff]
            exact ⟨by rw [Offset.toNat_unknown]; dsimp only; omega, le_refl _⟩
          · rw [DiscreteInterval.mem_iff, hunknown]
            exact ⟨le_refl _, by rw [← hunknown]; exact hproper⟩
      · have hend' := Offset.lt_iff.1 (not_le.1 hend)
        have hsucc := toNat_add_one_of_lt hend'
        rw [if_neg hend]
        obtain ⟨J, hJ, b, hb, hwrong⟩ := @ih (e.1.stop + 1) hm.tail
          (Offset.le_iff.2 (by omega)) (fun e' he' => by
            have := hm.toNat_lt he'
            rw [Offset.le_iff]
            omega) ((overrunsFrom_cons_iff hm (by omega) hend').1 hover)
        refine ⟨J, List.mem_append_right _ hJ, b, hb, hwrong.imp id fun hcov => ?_⟩
        obtain ⟨e', he', hmem⟩ := hcov
        exact ⟨e', List.mem_cons_of_mem e he', hmem⟩

/-- `le` finds the first entry that overlaps the interval. -/
theorem KeysDisjoint.le_cases {m : DisjunctiveIntervalMap V} (hm : KeysDisjoint m)
    {I : DiscreteInterval} (hI : I.start ≤ I.stop) :
    (le I m = [] ∧ ∀ e ∈ m, ¬ Overlaps I e) ∨
      ∃ pre e es, m = pre ++ e :: es ∧ le I m = e :: es ∧ Overlaps I e ∧
        ∀ p ∈ pre, p.1.stop.toNat < I.start.toNat := by
  obtain ⟨before, ge, rfl, htake, hdrop, hlow, hhigh⟩ := hm.exists_split I
  have hI' := Offset.le_iff.1 hI
  -- behind entries that end before the interval
  have hge : (∀ p ∈ before, p.1.stop.toNat < I.start.toNat) →
      ((leFrom I ge = [] ∧ ∀ e ∈ before ++ ge, ¬ Overlaps I e) ∨
        ∃ pre e es, before ++ ge = pre ++ e :: es ∧ leFrom I ge = e :: es ∧
          Overlaps I e ∧ ∀ p ∈ pre, p.1.stop.toNat < I.start.toNat) := by
    intro hbefore
    have hnot : ∀ e ∈ before, ¬ Overlaps I e := fun e he h => by
      have := hbefore e he
      have := Offset.le_iff.1 h.2
      omega
    cases ge with
    | nil => exact Or.inl ⟨rfl, fun e he => hnot e (by simpa using he)⟩
    | cons e es =>
        have hstart := hhigh e List.mem_cons_self
        have hproper := hm.right.toNat_le List.mem_cons_self
        by_cases hafter : I.stop < e.1.start
        · have hafter' := Offset.lt_iff.1 hafter
          refine Or.inl ⟨if_pos hafter, fun e' he' => ?_⟩
          rcases List.mem_append.1 he' with he' | he'
          · exact hnot e' he'
          · rintro ⟨hreach, -⟩
            have hreach := Offset.le_iff.1 hreach
            rcases List.mem_cons.1 he' with rfl | he'
            · omega
            · have := hm.right.toNat_lt he'
              omega
        · refine Or.inr ⟨before, e, es, rfl, if_neg hafter, ⟨not_lt.1 hafter, ?_⟩, hbefore⟩
          rw [Offset.le_iff]
          omega
  rcases List.eq_nil_or_concat before with rfl | ⟨pre, prev, rfl⟩
  · rw [le_of_none (by rw [htake]; rfl), hdrop]
    exact hge fun p hp => absurd hp List.not_mem_nil
  · rw [List.concat_eq_append] at *
    have hprev := hlow prev (by simp)
    have hpre := hm.lt_of_mem_init hprev
    rw [le_of_some (by rw [htake]; exact List.getLast?_concat), hdrop]
    by_cases hreach : I.start ≤ prev.1.stop
    · rw [if_pos hreach]
      refine Or.inr ⟨pre, prev, ge, by simp, rfl, ⟨?_, hreach⟩, hpre⟩
      rw [Offset.le_iff]
      omega
    · rw [if_neg hreach]
      apply hge
      intro p hp
      rcases List.mem_append.1 hp with hp | hp
      · exact hpre p hp
      · rw [List.mem_singleton.1 hp]
        exact Offset.lt_iff.1 (not_le.1 hreach)

/-- **Where `uncovered` goes wrong**: an entry shares a byte with the interval, and the scan from its
start on overruns it. -/
def Overruns (I : DiscreteInterval) (m : DisjunctiveIntervalMap V) : Prop :=
  (∃ e ∈ m, Overlaps I e) ∧ OverrunsFrom I.start I.stop m

/-- Entries that end before the interval do not count. -/
theorem overrunsFrom_append_iff {I : DiscreteInterval} (hI : I.start ≤ I.stop)
    {pre m : DisjunctiveIntervalMap V} (hm : KeysDisjoint (pre ++ m))
    (hpre : ∀ p ∈ pre, p.1.stop.toNat < I.start.toNat) :
    OverrunsFrom I.start I.stop (pre ++ m) ↔ OverrunsFrom I.start I.stop m := by
  have hI := Offset.le_iff.1 hI
  have hbound := I.stop.toNat_lt
  -- each part of the condition asks for bytes and entries that are not before the interval
  have hcov : ∀ b : Offset, I.start.toNat ≤ b.toNat → (Covers (pre ++ m) b ↔ Covers m b) :=
    fun b hb => covers_append_iff fun p hp => lt_of_lt_of_le (hpre p hp) hb
  have hnext : I.start.toNat ≤ (I.stop + 1).toNat := by
    rw [Offset.toNat_add, Offset.toNat_one]
    omega
  have hproper : ∀ p ∈ pre, p.1.start.toNat ≤ p.1.stop.toNat := fun p hp =>
    hm.toNat_le (List.mem_append_left m hp)
  have hlater : (∃ e ∈ pre ++ m, I.stop < e.1.start) ↔ ∃ e ∈ m, I.stop < e.1.start := by
    simp only [List.mem_append, or_and_right, exists_or]
    refine or_iff_right ?_
    rintro ⟨p, hp, hlt⟩
    have := hpre p hp
    have := hproper p hp
    have := Offset.lt_iff.1 hlt
    omega
  have hunknown : (∃ e ∈ pre ++ m, e.1.start = .unknown) ↔ ∃ e ∈ m, e.1.start = .unknown := by
    simp only [List.mem_append, or_and_right, exists_or]
    refine or_iff_right ?_
    rintro ⟨p, hp, heq⟩
    have := hpre p hp
    have hp := hproper p hp
    rw [heq, Offset.toNat_unknown] at hp
    have := I.start.toNat_lt
    omega
  have hlast : (¬ Covers (pre ++ m) lastByte ∧ I.start ≤ lastByte) ↔
      (¬ Covers m lastByte ∧ I.start ≤ lastByte) :=
    and_congr_left fun hle => not_congr (hcov lastByte (Offset.le_iff.1 hle))
  rw [OverrunsFrom, OverrunsFrom, hcov I.stop hI, hcov _ hnext, hlater, hunknown,
    ← and_assoc (a := ¬ Covers (pre ++ m) lastByte), hlast, and_assoc]

/-- What `uncovered` scans from the first entry that overlaps the interval. -/
def scan (I : DiscreteInterval) (e : Entry V) (es : List (Entry V)) : List DiscreteInterval :=
  if e.1.start < I.start then
    if I.stop ≤ e.1.stop then [] else uncoveredFrom I.stop (e.1.stop + 1) es
  else uncoveredFrom I.stop I.start (e :: es)

theorem uncovered_of_le {I : DiscreteInterval} {m : DisjunctiveIntervalMap V} {e : Entry V}
    {es : List (Entry V)} (h : le I m = e :: es) : uncovered I m = scan I e es := by
  rw [uncovered, h, scan]

/-- The first entry starts before the interval. -/
theorem overrunsFrom_of_covers {e : Entry V} {m : DisjunctiveIntervalMap V}
    {I : DiscreteInterval} (hlt : e.1.start < I.start) (hend : I.stop ≤ e.1.stop)
    (hI : I.start ≤ I.stop) : ¬ OverrunsFrom I.start I.stop (e :: m) := by
  have hcov : ∀ b, I.start ≤ b → b ≤ I.stop → Covers (e :: m) b := fun b hge hle =>
    ⟨e, List.mem_cons_self, (le_of_lt hlt).trans hge, hle.trans hend⟩
  rintro (⟨hstop, -⟩ | ⟨hlast, hge, hle, -⟩)
  · exact hstop (hcov _ hI (le_refl _))
  · exact hlast (hcov _ hge hle)

theorem apart_scan {I : DiscreteInterval} {e : Entry V} {es : List (Entry V)}
    (hm : KeysDisjoint (e :: es)) (hI : I.start ≤ I.stop) (hover : Overlaps I e)
    (hnot : ¬ OverrunsFrom I.start I.stop (e :: es)) :
    Apart I.start.toNat I.stop.toNat (e :: es) (scan I e es) := by
  have hreach := Offset.le_iff.1 hover.2
  have hproper := hm.toNat_le List.mem_cons_self
  rw [scan]
  split
  · next hlt =>
      have hlt' := Offset.lt_iff.1 hlt
      split
      · next hend =>
          have hend := Offset.le_iff.1 hend
          refine ⟨.nil, nofun, fun b => iff_of_false (fun ⟨J, hJ, _⟩ => nomatch hJ) ?_⟩
          rintro ⟨⟨hge, hle⟩, hfree⟩
          refine hfree ((covers_cons).2 (Or.inl (DiscreteInterval.mem_iff.2 ?_)))
          omega
      · next hend =>
          have hend := Offset.lt_iff.1 (not_le.1 hend)
          have hsucc := toNat_add_one_of_lt hend
          -- the rest is scanned from the byte after the first entry
          have hrest := apart_uncoveredFrom hm.tail (Offset.le_iff.2 (by omega))
            (fun e' he' => by
              have := hm.toNat_lt he'
              rw [Offset.le_iff]
              omega) ((not_congr (overrunsFrom_cons_iff hm hreach hend)).1 hnot)
          rw [hsucc] at hrest
          refine ⟨hrest.apart, fun J hJ => ?_, fun b => ?_⟩
          · have := hrest.proper J hJ
            omega
          · -- no byte of the first entry is free, and the others are in the rest
            rw [hrest.bytes b]
            rcases le_or_gt b.toNat e.1.stop.toNat with hb | hb
            · have hcov : b ∈ e.1 ∨ b.toNat < I.start.toNat := by
                rw [DiscreteInterval.mem_iff]
                omega
              constructor
              · rintro ⟨⟨hge, -⟩, -⟩
                omega
              · rintro ⟨⟨hge, -⟩, hfree⟩
                rcases hcov with hcov | hcov
                · exact absurd (covers_cons.2 (Or.inl hcov)) hfree
                · omega
            · rw [covers_cons_iff hb]
              refine and_congr_left fun _ => ?_
              omega
  · next hlt =>
      have hle := Offset.le_iff.1 (not_lt.1 hlt)
      apply apart_uncoveredFrom hm hI _ hnot
      intro e' he'
      rw [Offset.le_iff]
      rcases List.mem_cons.1 he' with rfl | he'
      · exact hle
      · have := hm.toNat_lt he'
        omega

theorem exists_wrong_byte_scan {I : DiscreteInterval} {e : Entry V} {es : List (Entry V)}
    (hm : KeysDisjoint (e :: es)) (hI : I.start ≤ I.stop) (hover : Overlaps I e)
    (hruns : OverrunsFrom I.start I.stop (e :: es)) :
    ∃ J ∈ scan I e es, ∃ b ∈ J, I.stop < b ∨ Covers (e :: es) b := by
  have hreach := Offset.le_iff.1 hover.2
  rw [scan]
  split
  · next hlt =>
      rw [if_neg fun hend => overrunsFrom_of_covers hlt hend hI hruns]
      have hend := Offset.lt_iff.1 (not_le.1 fun hend => overrunsFrom_of_covers hlt hend hI hruns)
      have hsucc := toNat_add_one_of_lt hend
      obtain ⟨J, hJ, b, hb, hwrong⟩ := exists_wrong_byte hm.tail
        (Offset.le_iff.2 (by omega)) (fun e' he' => by
          have := hm.toNat_lt he'
          rw [Offset.le_iff]
          omega) ((overrunsFrom_cons_iff hm hreach hend).1 hruns)
      exact ⟨J, hJ, b, hb, hwrong.imp id fun ⟨e', he', hmem⟩ =>
        ⟨e', List.mem_cons_of_mem e he', hmem⟩⟩
  · next hlt =>
      have hle := Offset.le_iff.1 (not_lt.1 hlt)
      have hproper := hm.toNat_le List.mem_cons_self
      apply exists_wrong_byte hm hI _ hruns
      intro e' he'
      rw [Offset.le_iff]
      rcases List.mem_cons.1 he' with rfl | he'
      · exact hle
      · have := hm.toNat_lt he'
        omega

/-- Without an overrun, `uncovered` is what it should be. -/
theorem apart_uncovered {I : DiscreteInterval} {m : DisjunctiveIntervalMap V} (hm : KeysDisjoint m)
    (hI : I.start ≤ I.stop) (hnot : ¬ Overruns I m) :
    Apart I.start.toNat I.stop.toNat m (uncovered I m) := by
  have hI' := Offset.le_iff.1 hI
  rcases hm.le_cases hI with ⟨hle, hnone⟩ | ⟨pre, e, es, rfl, hle, hover, hpre⟩
  · -- no entry meets the interval: all of it is free
    rw [uncovered, hle]
    refine ⟨List.pairwise_singleton _ _, fun J hJ => ?_, fun b => ?_⟩
    · rw [List.mem_singleton.1 hJ]
      exact ⟨le_refl _, hI'⟩
    · simp only [List.mem_singleton, exists_eq_left, DiscreteInterval.mem_iff]
      refine (and_iff_left_of_imp ?_).symm
      rintro ⟨hge, hle⟩ ⟨e, he, hmem⟩
      refine hnone e he ⟨?_, ?_⟩
      · exact hmem.1.trans (Offset.le_iff.2 hle)
      · exact (Offset.le_iff.2 hge).trans hmem.2
  · rw [uncovered_of_le hle]
    -- the scan starts at the first entry that meets the interval: those before cover none of its bytes
    have hruns : ¬ OverrunsFrom I.start I.stop (e :: es) := by
      intro hruns
      apply hnot
      refine ⟨⟨e, List.mem_append_right pre List.mem_cons_self, hover⟩, ?_⟩
      rwa [overrunsFrom_append_iff hI hm hpre]
    have hapart := apart_scan hm.right hI hover hruns
    refine ⟨hapart.apart, hapart.proper, fun b => ?_⟩
    rw [hapart.bytes b]
    refine and_congr_right fun hb => not_congr ?_
    exact (covers_append_iff fun p hp => lt_of_lt_of_le (hpre p hp) hb.1).symm

/-- With an overrun, an interval has a byte that is not asked for, or one that has an entry. -/
theorem exists_wrong_byte_uncovered {I : DiscreteInterval} {m : DisjunctiveIntervalMap V}
    (hm : KeysDisjoint m) (hI : I.start ≤ I.stop) (hruns : Overruns I m) :
    ∃ J ∈ uncovered I m, ∃ b ∈ J, ¬ (b ∈ I ∧ ¬ Covers m b) := by
  rcases hm.le_cases hI with ⟨-, hnone⟩ | ⟨pre, e, es, rfl, hle, hover, hpre⟩
  · rcases hruns with ⟨⟨e, he, hover⟩, -⟩
    exact absurd hover (hnone e he)
  · rw [uncovered_of_le hle]
    rcases exists_wrong_byte_scan hm.right hI hover
      ((overrunsFrom_append_iff hI hm hpre).1 hruns.2) with ⟨J, hJ, b, hb, hwrong⟩
    refine ⟨J, hJ, b, hb, ?_⟩
    rintro ⟨hmem, hfree⟩
    rcases hwrong with hlt | ⟨e', he', hmem'⟩
    · exact absurd hmem.2 (not_le.2 hlt)
    · exact hfree ⟨e', List.mem_append_right pre he', hmem'⟩

/-- **`uncovered` is exact** if and only if it does not overrun the interval. -/
theorem uncoveredExactly_iff {I : DiscreteInterval} {m : DisjunctiveIntervalMap V}
    (hm : KeysDisjoint m) (hI : I.start ≤ I.stop) :
    UncoveredExactly I m (uncovered I m) ↔ ¬ Overruns I m := by
  constructor
  · intro h hruns
    rcases exists_wrong_byte_uncovered hm hI hruns with ⟨J, hJ, b, hb, hwrong⟩
    exact hwrong ((h.bytes b).1 ⟨J, hJ, hb⟩)
  · intro hnot
    exact (apart_uncovered hm hI hnot).uncoveredExactly

theorem uncoveredExactly_iff_single :
    UncoveredExactly ⟨1, 5⟩ [(⟨0, 1⟩, [7])] (uncovered ⟨1, 5⟩ [(⟨0, 1⟩, [7])]) ↔
      ¬ Overruns ⟨1, 5⟩ [(⟨0, 1⟩, [7])] :=
  uncoveredExactly_iff ⟨by decide, by decide⟩ (by decide)

/-- Of the bytes 1 to 5 the scan finds 2 to 9. -/
theorem uncovered_overrun :
    ¬ UncoveredExactly ⟨1, 5⟩ (add ⟨10, 12⟩ 7 (add ⟨0, 1⟩ 7 []))
      (uncovered ⟨1, 5⟩ (add ⟨10, 12⟩ 7 (add ⟨0, 1⟩ 7 []))) := by
  intro h
  have hmem := (h.bytes 6).1 ⟨⟨2, 9⟩, by decide, by decide⟩
  exact absurd hmem.1 (by decide)

/-- `uncovered` finds nothing if and only if the map covers the interval. -/
theorem uncovered_eq_nil_iff {I : DiscreteInterval} {m : DisjunctiveIntervalMap V}
    (hm : KeysDisjoint m) (hI : I.start ≤ I.stop) :
    uncovered I m = [] ↔ ∀ b ∈ I, Covers m b := by
  constructor
  · intro hnil
    by_cases hruns : Overruns I m
    · -- the scan that overruns has found an interval
      rcases exists_wrong_byte_uncovered hm hI hruns with ⟨J, hJ, -⟩
      rw [hnil] at hJ
      cases hJ
    · intro b hb
      by_contra hfree
      rcases ((apart_uncovered hm hI hruns).bytes b).2 ⟨DiscreteInterval.mem_iff.1 hb, hfree⟩ with
        ⟨J, hJ, -⟩
      rw [hnil] at hJ
      cases hJ
  · intro hall
    have hruns : ¬ Overruns I m := by
      rintro ⟨-, ⟨hstop, -⟩ | ⟨hlast, hge, hle, -⟩⟩
      · exact hstop (hall I.stop ⟨hI, le_refl _⟩)
      · exact hlast (hall lastByte ⟨hge, hle⟩)
    have hapart := apart_uncovered hm hI hruns
    refine List.eq_nil_iff_forall_not_mem.2 fun J hJ => ?_
    have hproper := (hapart.proper J hJ).2
    have hmem := (hapart.bytes J.start).1 ⟨J, hJ, le_refl _, Offset.le_iff.2 hproper⟩
    exact hmem.2 (hall _ (DiscreteInterval.mem_iff.2 hmem.1))

/-! ## `overlaps` and `overlapsFull` -/

/-- `overlaps`, `overlapsFull` and `uncovered` answer what the bytes say. -/
structure OverlapsRight (I : DiscreteInterval) (m : DisjunctiveIntervalMap V) : Prop where
  some : overlaps I m = true ↔ ∃ b ∈ I, Covers m b
  every : overlapsFull I m = true ↔ ∀ b ∈ I, Covers m b
  none : overlapsFull I m = true ↔ uncovered I m = []

/-- An entry that starts before the interval reaches into it, and the next entry starts behind it.
The last case is the unknown offset, which is not one more than the last byte. -/
def Hidden (I : DiscreteInterval) (m : DisjunctiveIntervalMap V) : Prop :=
  ∃ pre e e' post, m = pre ++ e :: e' :: post ∧ e.1.start < I.start ∧ I.start ≤ e.1.stop ∧
    (I.stop < e'.1.start ∨ (e.1.stop = lastByte ∧ e'.1.start = .unknown))

theorem overlapsChain_iff {stop : Offset} {m : DisjunctiveIntervalMap V} :
    ∀ {ge : Entry V}, KeysDisjoint (ge :: m) → (overlapsChain stop ge m = true ↔
      ∀ b : Offset, ge.1.start ≤ b → b ≤ stop → Covers (ge :: m) b) := by
  induction m with
  | nil =>
      intro ge hm
      have hproper := hm.proper ge List.mem_cons_self
      rw [overlapsChain, decide_eq_true_eq]
      constructor
      · intro hle b hge hb
        exact ⟨ge, List.mem_cons_self, hge, hb.trans hle⟩
      · intro hall
        rcases le_total ge.1.start stop with hle | hle
        · obtain ⟨e, he, hmem⟩ := hall stop hle (le_refl _)
          rw [List.mem_singleton.1 he] at hmem
          exact hmem.2
        · exact hle.trans hproper
  | cons e es ih =>
      intro ge hm
      have hproper := hm.toNat_le List.mem_cons_self
      have hsep := hm.toNat_lt List.mem_cons_self
      rw [overlapsChain]
      by_cases hle : stop ≤ ge.1.stop
      · rw [if_pos hle]
        exact iff_of_true rfl fun b hge hb => ⟨ge, List.mem_cons_self, hge, hb.trans hle⟩
      · have hlt := Offset.lt_iff.1 (not_le.1 hle)
        have hsucc := toNat_add_one_of_lt hlt
        rw [if_neg hle]
        by_cases htouch : e.1.start = ge.1.stop + 1
        · rw [if_neg (not_not.2 htouch), ih hm.tail]
          have htouch := Offset.eq_iff.1 htouch
          constructor
          · intro hall b hge hb
            rcases le_or_gt b.toNat ge.1.stop.toNat with hin | hout
            · exact ⟨ge, List.mem_cons_self, hge, Offset.le_iff.2 hin⟩
            · rw [covers_cons_iff hout]
              exact hall b (Offset.le_iff.2 (by omega)) hb
          · intro hall b hge hb
            have hge := Offset.le_iff.1 hge
            rw [← covers_cons_iff (e := ge) (by omega)]
            exact hall b (Offset.le_iff.2 (by omega)) hb
        · -- the byte behind the entry is free
          rw [if_pos htouch]
          refine iff_of_false Bool.false_ne_true fun hall => ?_
          have hcov := hall (ge.1.stop + 1) (Offset.le_iff.2 (by omega)) (Offset.le_iff.2 (by omega))
          rw [covers_cons_iff (by omega)] at hcov
          refine hm.tail.not_covers ?_ hcov
          rw [Offset.eq_iff] at htouch
          omega

/-- Entries that do not start before the interval: the first one decides. -/
theorem exists_covers_iff {I : DiscreteInterval} {g : Entry V} {rest : List (Entry V)}
    (hm : KeysDisjoint (g :: rest)) (hge : I.start.toNat ≤ g.1.start.toNat) :
    (∃ b ∈ I, Covers (g :: rest) b) ↔ g.1.start ≤ I.stop := by
  constructor
  · rintro ⟨b, hb, hcov⟩
    refine not_lt.1 fun hlt => hm.not_covers ?_ hcov
    exact Offset.lt_iff.1 (lt_of_le_of_lt hb.2 hlt)
  · intro hle
    exact ⟨g.1.start, ⟨Offset.le_iff.2 hge, hle⟩, g, List.mem_cons_self, le_refl _,
      hm.proper g List.mem_cons_self⟩

/-- They cover the interval if the first one starts with it and the others follow. -/
theorem all_covers_iff {I : DiscreteInterval} {g : Entry V} {rest : List (Entry V)}
    (hm : KeysDisjoint (g :: rest)) (hI : I.start ≤ I.stop)
    (hge : I.start.toNat ≤ g.1.start.toNat) :
    (∀ b ∈ I, Covers (g :: rest) b) ↔ ¬ I.start < g.1.start ∧ overlapsChain I.stop g rest = true := by
  rw [overlapsChain_iff hm]
  constructor
  · intro hall
    refine ⟨fun hlt => ?_, fun b hb hb' => hall b ⟨(Offset.le_iff.2 hge).trans hb, hb'⟩⟩
    exact hm.not_covers (Offset.lt_iff.1 hlt) (hall I.start ⟨le_refl _, hI⟩)
  · rintro ⟨hstart, hall⟩ b ⟨hb, hb'⟩
    exact hall b ((not_lt.1 hstart).trans hb) hb'

/-- The answers do not depend on entries that end before the interval. -/
theorem forall_covers_append_iff {I : DiscreteInterval} {pre m : DisjunctiveIntervalMap V}
    (hpre : ∀ p ∈ pre, p.1.stop.toNat < I.start.toNat) :
    ((∃ b ∈ I, Covers (pre ++ m) b) ↔ ∃ b ∈ I, Covers m b) ∧
      ((∀ b ∈ I, Covers (pre ++ m) b) ↔ ∀ b ∈ I, Covers m b) := by
  have hcov : ∀ b ∈ I, (Covers (pre ++ m) b ↔ Covers m b) := fun b hb =>
    covers_append_iff fun p hp => lt_of_lt_of_le (hpre p hp) (DiscreteInterval.mem_iff.1 hb).1
  exact ⟨exists_congr fun b => and_congr_right (hcov b), forall₂_congr hcov⟩

theorem takeWhile_concat {I : DiscreteInterval} {pre rest : DisjunctiveIntervalMap V}
    {prev g : Entry V} (hm : KeysDisjoint (pre ++ [prev] ++ g :: rest))
    (hprev : prev.1.start < I.start) (hge : I.start ≤ g.1.start) :
    ((pre ++ [prev] ++ g :: rest).takeWhile fun e => e.1.start < I.start) = pre ++ [prev] := by
  rw [List.takeWhile_append_of_pos, List.takeWhile_cons_of_neg, List.append_nil]
  · simpa using hge
  · intro e he
    rw [decide_eq_true_eq, Offset.lt_iff]
    have hprev := Offset.lt_iff.1 hprev
    rcases List.mem_append.1 he with he | he
    · have := hm.lt_of_mem_init hprev e he
      have := hm.toNat_le (List.mem_append_left _ (List.mem_append_left _ he))
      omega
    · rw [List.mem_singleton.1 he]
      exact hprev

/-- The entry that `overlaps` does not look at is the last one that starts before the interval. -/
theorem hidden_iff {I : DiscreteInterval} {pre rest : DisjunctiveIntervalMap V} {prev g : Entry V}
    (hm : KeysDisjoint (pre ++ [prev] ++ g :: rest)) (hprev : prev.1.start < I.start)
    (hge : I.start ≤ g.1.start) :
    Hidden I (pre ++ [prev] ++ g :: rest) ↔ I.start ≤ prev.1.stop ∧
      (I.stop < g.1.start ∨ (prev.1.stop = lastByte ∧ g.1.start = .unknown)) := by
  constructor
  · rintro ⟨pre', e, e', post, heq, hlt, hreach, hbehind⟩
    have hsplit : pre ++ [prev] ++ g :: rest = pre' ++ [e] ++ e' :: post := by
      rw [heq, List.append_assoc, List.singleton_append]
    have hm' := hm
    rw [hsplit] at hm'
    have hpairs := (List.pairwise_append.1 hm'.disjoint).2.2
    have hafter : I.start ≤ e'.1.start :=
      hreach.trans (le_of_lt (hpairs e (by simp) e' List.mem_cons_self))
    -- both are the entries around the start of the interval
    have hfirst : pre ++ [prev] = pre' ++ [e] :=
      (takeWhile_concat hm hprev hge).symm.trans
        ((congrArg _ hsplit).trans (takeWhile_concat hm' hlt hafter))
    rw [hfirst, List.append_cancel_left_eq] at hsplit
    obtain rfl : prev = e := List.singleton_inj.1 (List.append_inj' hfirst rfl).2
    obtain rfl : g = e' := (List.cons.inj hsplit).1
    exact ⟨hreach, hbehind⟩
  · rintro ⟨hreach, hbehind⟩
    exact ⟨pre, prev, g, rest, by simp, hprev, hreach, hbehind⟩

/-- No entry starts before the interval. -/
theorem overlapsRight_of_ge {I : DiscreteInterval} {m : DisjunctiveIntervalMap V}
    (hm : KeysDisjoint m) (hI : I.start ≤ I.stop)
    (htake : (m.takeWhile fun e => e.1.start < I.start) = [])
    (hdrop : (m.dropWhile fun e => e.1.start < I.start) = m)
    (hge : ∀ e ∈ m, I.start.toNat ≤ e.1.start.toNat) :
    (overlaps I m = true ↔ ∃ b ∈ I, Covers m b) ∧
      (overlapsFull I m = true ↔ ∀ b ∈ I, Covers m b) := by
  rw [overlaps, overlapsFull]
  rw [htake, hdrop]
  cases m with
  | nil => exact ⟨by simp, by simpa using ⟨I.start, le_refl _, hI⟩⟩
  | cons g rest =>
      have hge := hge g List.mem_cons_self
      rw [exists_covers_iff hm hge, all_covers_iff hm hI hge]
      dsimp only
      refine ⟨decide_eq_true_iff, ?_⟩
      by_cases hlt : I.start < g.1.start
      · simp [hlt]
      · simp [hlt]

/-- All entries start before the interval. -/
theorem overlapsRight_of_lt {I : DiscreteInterval} {pre : DisjunctiveIntervalMap V} {prev : Entry V}
    (hI : I.start ≤ I.stop) (hprev : prev.1.start < I.start)
    (hpre : ∀ p ∈ pre, p.1.stop.toNat < I.start.toNat)
    (hdrop : ((pre ++ [prev]).dropWhile fun e => e.1.start < I.start) = []) :
    (overlaps I (pre ++ [prev]) = true ↔ ∃ b ∈ I, Covers (pre ++ [prev]) b) ∧
      (overlapsFull I (pre ++ [prev]) = true ↔ ∀ b ∈ I, Covers (pre ++ [prev]) b) := by
  rw [overlaps, overlapsFull]
  rw [hdrop, List.getLast?_concat, (forall_covers_append_iff hpre).1,
    (forall_covers_append_iff hpre).2]
  dsimp only
  rw [decide_eq_true_eq, decide_eq_true_eq]
  have hmem : ∀ b, Covers [prev] b ↔ b ∈ prev.1 := fun b => by simp [covers_cons]
  simp only [hmem]
  constructor
  · constructor
    · intro hreach
      exact ⟨I.start, ⟨le_refl _, hI⟩, le_of_lt hprev, hreach⟩
    · rintro ⟨b, hb, hb'⟩
      exact hb.1.trans hb'.2
  · constructor
    · intro hreach b hb
      exact ⟨(le_of_lt hprev).trans hb.1, hb.2.trans hreach⟩
    · intro hall
      exact (hall I.stop ⟨hI, le_refl _⟩).2

/-- An entry that starts before the interval and ends in it: the next one touches it. -/
theorem covers_touching_iff {I : DiscreteInterval} {prev g : Entry V} {rest : List (Entry V)}
    (hm : KeysDisjoint (prev :: g :: rest)) (hprev : prev.1.start < I.start)
    (hreach : I.start ≤ prev.1.stop) (hinside : g.1.start ≤ I.stop) :
    (∀ b ∈ I, Covers (prev :: g :: rest) b) ↔
      prev.1.stop.toNat + 1 = g.1.start.toNat ∧ overlapsChain I.stop g rest = true := by
  have hsep := hm.toNat_lt List.mem_cons_self
  have hreach' := Offset.le_iff.1 hreach
  have hinside' := Offset.le_iff.1 hinside
  rw [overlapsChain_iff hm.tail]
  constructor
  · intro hall
    refine ⟨?_, fun b hb hb' => ?_⟩
    · by_contra hne
      have hsucc := toNat_add_one_of_lt hsep
      have hcov := hall (prev.1.stop + 1)
        ⟨Offset.le_iff.2 (by omega), Offset.le_iff.2 (by omega)⟩
      rw [covers_cons_iff (by omega)] at hcov
      exact hm.tail.not_covers (by omega) hcov
    · have hb := Offset.le_iff.1 hb
      rw [← covers_cons_iff (e := prev) (by omega)]
      exact hall b ⟨Offset.le_iff.2 (by omega), hb'⟩
  · rintro ⟨htouch, hall⟩ b ⟨hb, hb'⟩
    rcases le_or_gt b.toNat prev.1.stop.toNat with hin | hout
    · exact ⟨prev, List.mem_cons_self, (le_of_lt hprev).trans hb, Offset.le_iff.2 hin⟩
    · rw [covers_cons_iff hout]
      exact hall b (Offset.le_iff.2 (by omega)) hb'

/-- An entry `prev` starts before the interval, and an entry `g` does not. -/
theorem overlapsRight_between {I : DiscreteInterval} {pre rest : DisjunctiveIntervalMap V}
    {prev g : Entry V} (hm : KeysDisjoint (pre ++ [prev] ++ g :: rest)) (hI : I.start ≤ I.stop)
    (hprev : prev.1.start < I.start) (hge : I.start ≤ g.1.start)
    (hdrop : ((pre ++ [prev] ++ g :: rest).dropWhile fun e => e.1.start < I.start) = g :: rest) :
    ((overlaps I (pre ++ [prev] ++ g :: rest) = true ↔
        ∃ b ∈ I, Covers (pre ++ [prev] ++ g :: rest) b) ∧
      (overlapsFull I (pre ++ [prev] ++ g :: rest) = true ↔
        ∀ b ∈ I, Covers (pre ++ [prev] ++ g :: rest) b)) ↔
      ¬ (I.start ≤ prev.1.stop ∧
        (I.stop < g.1.start ∨ (prev.1.stop = lastByte ∧ g.1.start = .unknown))) := by
  have hpre := hm.lt_of_mem_init (Offset.lt_iff.1 hprev)
  have hright : KeysDisjoint (prev :: g :: rest) := by
    rw [List.append_assoc] at hm
    exact hm.right
  have hsep := hright.toNat_lt List.mem_cons_self
  rw [overlaps, overlapsFull]
  rw [hdrop, takeWhile_concat hm hprev hge, List.getLast?_concat, List.append_assoc,
    List.singleton_append, (forall_covers_append_iff hpre).1, (forall_covers_append_iff hpre).2]
  dsimp only
  rw [decide_eq_true_eq]
  have hpred : prev.1.stop = g.1.start - 1 ↔
      prev.1.stop.toNat + 1 = g.1.start.toNat ∧ g.1.start ≠ .unknown := by
    by_cases hunknown : g.1.start = .unknown
    · refine iff_of_false (fun heq => ?_) fun h => h.2 hunknown
      rw [hunknown, Offset.unknown_sub] at heq
      rw [hunknown, heq] at hsep
      omega
    · rw [and_iff_left hunknown, Offset.eq_iff,
        Offset.toNat_sub_one (Offset.ne_unknown_iff.1 hunknown) (by omega)]
      omega
  by_cases hreach : I.start ≤ prev.1.stop
  · have hreach' := Offset.le_iff.1 hreach
    have hlt : I.start < g.1.start := Offset.lt_iff.2 (by omega)
    have hexists : ∃ b ∈ I, Covers (prev :: g :: rest) b :=
      ⟨I.start, ⟨le_refl _, hI⟩, prev, List.mem_cons_self, le_of_lt hprev, hreach⟩
    rw [and_iff_right hreach, iff_true_right hexists, if_pos hlt]
    by_cases hbehind : I.stop < g.1.start
    · exact iff_of_false (fun h => absurd hbehind (not_lt.2 h.1)) fun h => h (Or.inl hbehind)
    · have hinside := Offset.le_iff.1 (not_lt.1 hbehind)
      rw [and_iff_right (not_lt.1 hbehind), or_iff_right hbehind,
        covers_touching_iff hright hprev hreach (not_lt.1 hbehind)]
      have hlast : prev.1.stop = lastByte ↔ prev.1.stop.toNat + 1 = 2 ^ 64 - 1 := by
        rw [Offset.eq_iff, toNat_lastByte]
        omega
      by_cases hunknown : g.1.start = .unknown
      · -- the unknown offset is there, but not found
        have hcode : prev.1.stop ≠ g.1.start - 1 := fun h => (hpred.1 h).2 hunknown
        have hchain : overlapsChain I.stop g rest = true := by
          rw [overlapsChain_iff hright.tail]
          intro b hb _
          rw [le_antisymm (not_lt.1 (hunknown ▸ Offset.not_unknown_lt b)) hb]
          exact ⟨g, List.mem_cons_self, le_refl _, hright.tail.proper g List.mem_cons_self⟩
        rw [if_pos hcode, hchain, hunknown, Offset.toNat_unknown, hlast]
        simp
      · refine iff_of_true ?_ fun h => hunknown h.2
        by_cases htouch : prev.1.stop = g.1.start - 1
        · rw [if_neg (not_not.2 htouch), and_iff_right (hpred.1 htouch).1]
        · rw [if_pos htouch]
          refine iff_of_false Bool.false_ne_true fun h => htouch (hpred.2 ⟨h.1, hunknown⟩)
  · -- the entry before ends before the interval
    have hout := Offset.lt_iff.1 (not_le.1 hreach)
    have hdrop' : ((∃ b ∈ I, Covers ([prev] ++ g :: rest) b) ↔ ∃ b ∈ I, Covers (g :: rest) b) ∧
        ((∀ b ∈ I, Covers ([prev] ++ g :: rest) b) ↔ ∀ b ∈ I, Covers (g :: rest) b) :=
      forall_covers_append_iff fun p hp => by rwa [List.mem_singleton.1 hp]
    rw [List.singleton_append] at hdrop'
    rw [hdrop'.1, hdrop'.2, exists_covers_iff hright.tail (Offset.le_iff.1 hge),
      all_covers_iff hright.tail hI (Offset.le_iff.1 hge)]
    refine iff_of_true ⟨Iff.rfl, ?_⟩ fun h => hreach h.1
    by_cases hlt : I.start < g.1.start
    · have hcode : prev.1.stop ≠ g.1.start - 1 := fun h => by
        have htouch := (hpred.1 h).1
        have hlt := Offset.lt_iff.1 hlt
        omega
      rw [if_pos hlt, if_pos hcode]
      exact iff_of_false Bool.false_ne_true fun h => h.1 hlt
    · rw [if_neg hlt]
      exact (and_iff_right hlt).symm

/-- **`overlaps` and `overlapsFull` are right** if and only if no entry is hidden. -/
theorem overlapsRight_iff {I : DiscreteInterval} {m : DisjunctiveIntervalMap V}
    (hm : KeysDisjoint m) (hI : I.start ≤ I.stop) : OverlapsRight I m ↔ ¬ Hidden I m := by
  have hright : OverlapsRight I m ↔ (overlaps I m = true ↔ ∃ b ∈ I, Covers m b) ∧
      (overlapsFull I m = true ↔ ∀ b ∈ I, Covers m b) :=
    ⟨fun h => ⟨h.some, h.every⟩,
      fun h => ⟨h.1, h.2, h.2.trans (uncovered_eq_nil_iff hm hI).symm⟩⟩
  rw [hright]
  obtain ⟨before, ge, rfl, htake, hdrop, hlow, hhigh⟩ := hm.exists_split I
  rcases List.eq_nil_or_concat before with rfl | ⟨pre, prev, rfl⟩
  · refine iff_of_true (overlapsRight_of_ge hm hI htake hdrop hhigh) ?_
    rintro ⟨pre, e, e', post, rfl, hlt, -⟩
    have := hhigh e (by simp)
    have := Offset.lt_iff.1 hlt
    omega
  · rw [List.concat_eq_append] at *
    have hprev := hlow prev (by simp)
    have hpre := hm.lt_of_mem_init hprev
    cases ge with
    | nil =>
        rw [List.append_nil] at *
        refine iff_of_true (overlapsRight_of_lt hI (Offset.lt_iff.2 hprev) hpre hdrop) ?_
        rintro ⟨pre', e, e', post, heq, -, hreach, -⟩
        -- the next entry would not start before the interval
        have hlt := hlow e' (by rw [heq]; simp)
        rw [heq] at hm
        have hsep := hm.right.toNat_lt List.mem_cons_self
        have := Offset.le_iff.1 hreach
        omega
    | cons g rest =>
        have hge := Offset.le_iff.2 (hhigh g List.mem_cons_self)
        rw [overlapsRight_between hm hI (Offset.lt_iff.2 hprev) hge hdrop,
          hidden_iff hm (Offset.lt_iff.2 hprev) hge]

theorem overlapsRight_iff_single :
    OverlapsRight ⟨1, 5⟩ [(⟨0, 1⟩, [7])] ↔ ¬ Hidden ⟨1, 5⟩ [(⟨0, 1⟩, [7])] :=
  overlapsRight_iff ⟨by decide, by decide⟩ (by decide)

/-- The entry for the bytes 0 to 10 is not found when the bytes 5 to 7 are asked for. -/
theorem overlaps_missed :
    ¬ OverlapsRight ⟨5, 7⟩ (add ⟨20, 30⟩ 7 (add ⟨0, 10⟩ 7 [])) := by
  intro h
  have hfound := h.some.2 ⟨5, by decide, (⟨0, 10⟩, [7]), by decide, by decide⟩
  exact absurd hfound (by decide)

end Cape.DisjunctiveIntervalMap
