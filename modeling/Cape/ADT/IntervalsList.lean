import Cape.ADT.DisjunctiveIntervalMap

/-!
# Lists of intervals

`IntervalsList` keeps a set of bytes as a sorted list of disjoint intervals. `add` takes the interval
behind the first one that overlaps for this one, and `intersectWith` goes on in the list only by
erasing. `Op.right_iff` says where one operation is right, `runRight_iff` where a sequence of
operations is.
-/

set_option autoImplicit false

namespace Cape.IntervalsList

/-- `Interval`: the constructor checks the order of the ends. -/
structure Interval extends DiscreteInterval where
  start_le_stop : start ≤ stop
deriving DecidableEq

/-- `overlaps`. -/
def Interval.overlaps (J I : Interval) : Bool := J.start ≤ I.stop ∧ I.start ≤ J.stop

/-- The bytes of a list. -/
def Bytes (L : List Interval) (b : Offset) : Prop := ∃ J ∈ L, b ∈ J.toDiscreteInterval

/-- The list is sorted, and its intervals are disjoint. -/
def Sorted (L : List Interval) : Prop := L.Pairwise fun J J' => J.stop < J'.start

/-! ## Operations -/

/-- The interval that comes for those from `it` to `to`. -/
def cover (I it last : Interval) : Interval where
  start := min it.start I.start
  stop := max last.stop I.stop
  start_le_stop := (min_le_right _ _).trans (I.start_le_stop.trans (le_max_right _ _))

/-- `_replace_overlapping`, from the first interval that does not overlap on, or from the last one. At
the end of the list there is no interval that could be replaced. -/
def replaceOverlapping (I : Interval) : List Interval → Option (List Interval)
  | [] => none
  | it :: rest =>
      match (it :: rest).dropWhile fun J => I.overlaps J with
      | [] => some [cover I it ((it :: rest).getLast (List.cons_ne_nil it rest))]
      | last :: after => some (cover I it last :: after)

/-- The loop of `add`. -/
def addLoop (I : Interval) : List Interval → Option (List Interval)
  | [] => some [I]
  | J :: rest =>
      -- the iterator is moved to the next interval before
      if I.overlaps J then (replaceOverlapping I rest).map (J :: ·)
      else if I.stop < J.start then some (I :: J :: rest)
      else (addLoop I rest).map (J :: ·)

/-- `add`: into an empty list the interval comes first, and then the loop meets it. -/
def add (I : Interval) (L : List Interval) : Option (List Interval) :=
  addLoop I (if L.isEmpty then [I] else L)

/-- What two intervals have in common. -/
def meet (J RI : Interval) (h : J.overlaps RI = true) : Interval where
  start := max J.start RI.start
  stop := min J.stop RI.stop
  start_le_stop := by
    rw [Interval.overlaps, decide_eq_true_eq] at h
    exact max_le (le_min J.start_le_stop h.1) (le_min h.2 RI.start_le_stop)

/-- One interval of the other list: what ends before it is erased, and the next one is cut. -/
def intersectStep (L : List Interval) (RI : Interval) : List Interval :=
  match L.dropWhile fun J => J.stop < RI.start with
  | [] => []
  | J :: rest => (if h : J.overlaps RI = true then meet J RI h else J) :: rest

/-- `intersectWith`. -/
def intersectWith (L rhs : List Interval) : List Interval := rhs.foldl intersectStep L

/-! ## Bytes and intervals -/

theorem Interval.toNat_le (J : Interval) : J.start.toNat ≤ J.stop.toNat :=
  Offset.le_iff.1 J.start_le_stop

theorem Interval.overlaps_iff {J I : Interval} :
    J.overlaps I = true ↔ J.start.toNat ≤ I.stop.toNat ∧ I.start.toNat ≤ J.stop.toNat := by
  rw [Interval.overlaps, decide_eq_true_eq, Offset.le_iff, Offset.le_iff]

/-- Intervals overlap if they have a byte in common. -/
theorem Interval.overlaps_iff_exists_mem {J I : Interval} :
    J.overlaps I = true ↔ ∃ b, b ∈ J.toDiscreteInterval ∧ b ∈ I.toDiscreteInterval := by
  rw [Interval.overlaps, decide_eq_true_eq]
  constructor
  · rintro ⟨hstart, hstop⟩
    refine ⟨max J.start I.start, ⟨le_max_left _ _, ?_⟩, le_max_right _ _, ?_⟩
    · exact max_le J.start_le_stop hstop
    · exact max_le hstart I.start_le_stop
  · rintro ⟨b, hJ, hI⟩
    exact ⟨hJ.1.trans hI.2, hI.1.trans hJ.2⟩

@[simp] theorem bytes_nil (b : Offset) : ¬ Bytes [] b := by
  rintro ⟨J, hJ, -⟩
  exact nomatch hJ

theorem bytes_cons {J : Interval} {L : List Interval} {b : Offset} :
    Bytes (J :: L) b ↔ b ∈ J.toDiscreteInterval ∨ Bytes L b := by
  simp [Bytes]

theorem Interval.start_mem (J : Interval) : J.start ∈ J.toDiscreteInterval :=
  ⟨le_refl _, J.start_le_stop⟩

theorem Interval.stop_mem (J : Interval) : J.stop ∈ J.toDiscreteInterval :=
  ⟨J.start_le_stop, le_refl _⟩

theorem Sorted.tail {J : Interval} {L : List Interval} (h : Sorted (J :: L)) : Sorted L :=
  (List.pairwise_cons.1 h).2

theorem Sorted.toNat_lt {J J' : Interval} {L : List Interval} (h : Sorted (J :: L)) (hJ' : J' ∈ L) :
    J.stop.toNat < J'.start.toNat :=
  Offset.lt_iff.1 ((List.pairwise_cons.1 h).1 J' hJ')

/-! ## `add` -/

/-- The list and the new interval, one behind the other. -/
theorem addLoop_of_apart {I : Interval} {L : List Interval} (hL : Sorted L)
    (happart : ∀ J ∈ L, I.overlaps J = false) :
    ∃ L', addLoop I L = some L' ∧ Sorted L' ∧ ∀ J, J ∈ L' ↔ J = I ∨ J ∈ L := by
  induction L with
  | nil => exact ⟨[I], rfl, List.pairwise_singleton _ _, by simp⟩
  | cons J rest ih =>
      have hnot := happart J List.mem_cons_self
      rw [addLoop, hnot]
      simp only [Bool.false_eq_true, if_false]
      split
      · next hlt =>
          refine ⟨_, rfl, List.pairwise_cons.2 ⟨fun J' hJ' => ?_, hL⟩, by simp⟩
          rcases List.mem_cons.1 hJ' with rfl | hJ'
          · exact hlt
          · have := hL.toNat_lt hJ'
            have := J.toNat_le
            rw [Offset.lt_iff] at hlt ⊢
            omega
      · next hlt =>
          rcases ih hL.tail fun J' hJ' => happart J' (List.mem_cons_of_mem J hJ') with
            ⟨L', heq, hsorted, hmem⟩
          refine ⟨J :: L', by rw [heq]; rfl, List.pairwise_cons.2 ⟨fun J' hJ' => ?_, hsorted⟩, ?_⟩
          · rcases (hmem J').1 hJ' with rfl | hJ'
            · -- the new interval is behind this one
              rw [← Bool.not_eq_true, Interval.overlaps_iff] at hnot
              rw [Offset.lt_iff] at hlt ⊢
              omega
            · exact (List.pairwise_cons.1 hL).1 J' hJ'
          · intro J'
            rw [List.mem_cons, List.mem_cons, hmem J']
            tauto

/-- An interval that overlaps comes to stand before the one that should have been changed. -/
theorem not_sorted_of_overlaps {I : Interval} {L : List Interval} (hL : Sorted L)
    (hover : ∃ J ∈ L, I.overlaps J = true) :
    ∀ L', addLoop I L = some L' → ¬ Sorted L' := by
  induction L with
  | nil =>
      rcases hover with ⟨J, hJ, -⟩
      exact nomatch hJ
  | cons J rest ih =>
      intro L' heq hsorted
      rw [addLoop] at heq
      split at heq
      · next hover =>
          rw [Interval.overlaps_iff] at hover
          have hstart : ∀ L'', replaceOverlapping I rest = some L'' →
              ∃ K after, L'' = K :: after ∧ K.start.toNat ≤ I.start.toNat := by
            intro L'' h
            cases rest with
            | nil => cases h
            | cons it rest =>
                have hle : ∀ last, (cover I it last).start.toNat ≤ I.start.toNat := fun last =>
                  Offset.le_iff.1 (min_le_right _ _)
                rw [replaceOverlapping] at h
                split at h
                · exact ⟨_, _, (Option.some.inj h).symm, hle _⟩
                · exact ⟨_, _, (Option.some.inj h).symm, hle _⟩
          rcases Option.map_eq_some_iff.1 heq with ⟨L'', h, rfl⟩
          rcases hstart L'' h with ⟨K, after, rfl, hK⟩
          have := hsorted.toNat_lt List.mem_cons_self
          omega
      · next hnot =>
          rcases hover with ⟨J', hJ', hover⟩
          rcases List.mem_cons.1 hJ' with rfl | hJ'
          · exact hnot hover
          split at heq
          · next hlt =>
              -- all intervals are behind the new one
              have := hL.toNat_lt hJ'
              have := J.toNat_le
              rw [Interval.overlaps_iff] at hover
              rw [Offset.lt_iff] at hlt
              omega
          · rcases Option.map_eq_some_iff.1 heq with ⟨L'', h, rfl⟩
            exact ih hL.tail ⟨J', hJ', hover⟩ L'' h hsorted.tail

/-- Nothing can be added to an empty list. -/
theorem add_nil (I : Interval) : add I [] = none := by
  have hover : I.overlaps I = true := Interval.overlaps_iff.2 ⟨I.toNat_le, I.toNat_le⟩
  show addLoop I [I] = none
  rw [addLoop, if_pos hover]
  rfl

/-! ## `intersectWith` -/

/-- The intervals that end before an offset come first. -/
theorem Sorted.dropWhile_spec {L : List Interval} (hL : Sorted L) (start : Offset) :
    Sorted (L.dropWhile fun J => J.stop < start) ∧
      ∀ J, J ∈ (L.dropWhile fun J => J.stop < start) ↔ J ∈ L ∧ start.toNat ≤ J.stop.toNat := by
  induction L with
  | nil => exact ⟨.nil, by simp⟩
  | cons J rest ih =>
      rw [List.dropWhile_cons]
      split
      · next hlt =>
          rw [decide_eq_true_eq, Offset.lt_iff] at hlt
          rcases ih hL.tail with ⟨hsorted, hmem⟩
          refine ⟨hsorted, fun J' => ?_⟩
          rw [hmem J', List.mem_cons]
          refine and_congr_left fun hstop => (or_iff_right ?_).symm
          rintro rfl
          omega
      · next hlt =>
          rw [decide_eq_true_eq, Offset.lt_iff] at hlt
          refine ⟨hL, fun J' => (and_iff_left_of_imp fun hJ' => ?_).symm⟩
          rcases List.mem_cons.1 hJ' with rfl | hJ'
          · omega
          · have := hL.toNat_lt hJ'
            have := J'.toNat_le
            omega

/-- What one interval of the other list leaves is sorted, and none of it is before this interval. -/
theorem intersectStep_spec {L : List Interval} (hL : Sorted L) (RI : Interval) :
    Sorted (intersectStep L RI) ∧
      ∀ b, Bytes (intersectStep L RI) b → Bytes L b ∧ RI.start.toNat ≤ b.toNat := by
  rcases hL.dropWhile_spec RI.start with ⟨hsorted, hmem⟩
  rw [intersectStep]
  cases hdrop : L.dropWhile fun J => J.stop < RI.start with
  | nil => exact ⟨.nil, fun b hb => absurd hb (bytes_nil b)⟩
  | cons J rest =>
      rw [hdrop] at hsorted hmem
      have hJ := (hmem J).1 List.mem_cons_self
      have hrest : ∀ b, Bytes rest b → Bytes L b ∧ RI.start.toNat ≤ b.toNat := by
        rintro b ⟨J', hJ', hb⟩
        have := hsorted.toNat_lt hJ'
        have hle := (DiscreteInterval.mem_iff.1 hb).1
        exact ⟨⟨J', ((hmem J').1 (List.mem_cons_of_mem J hJ')).1, hb⟩, by omega⟩
      dsimp only
      split
      · next hover =>
          constructor
          · refine List.pairwise_cons.2 ⟨fun J' hJ' => ?_, hsorted.tail⟩
            have hlt := (List.pairwise_cons.1 hsorted).1 J' hJ'
            exact lt_of_le_of_lt (min_le_left _ _) hlt
          · intro b hb
            rcases bytes_cons.1 hb with hb | hb
            · have hstart := max_le_iff.1 hb.1
              have hstop := le_min_iff.1 hb.2
              exact ⟨⟨J, hJ.1, hstart.1, hstop.1⟩, Offset.le_iff.1 hstart.2⟩
            · exact hrest b hb
      · next hnot =>
          refine ⟨hsorted, fun b hb => ?_⟩
          rcases bytes_cons.1 hb with hb | hb
          · -- the interval is behind the other one
            rw [Interval.overlaps_iff] at hnot
            have := RI.toNat_le
            have hle := (DiscreteInterval.mem_iff.1 hb).1
            exact ⟨⟨J, hJ.1, hb⟩, by omega⟩
          · exact hrest b hb

theorem intersectWith_spec {L : List Interval} (hL : Sorted L) (rhs : List Interval) :
    Sorted (intersectWith L rhs) ∧ ∀ b, Bytes (intersectWith L rhs) b → Bytes L b := by
  induction rhs generalizing L with
  | nil => exact ⟨hL, fun b hb => hb⟩
  | cons RI rhs ih =>
      rcases intersectStep_spec hL RI with ⟨hsorted, hstep⟩
      rcases ih hsorted with ⟨hsorted', hrest⟩
      exact ⟨hsorted', fun b hb => (hstep b (hrest b hb)).1⟩

theorem intersectWith_concat (L init : List Interval) (RI : Interval) :
    intersectWith L (init ++ [RI]) = intersectStep (intersectWith L init) RI := by
  rw [intersectWith, List.foldl_append]
  rfl

/-- What ends before an offset is dropped with what ends before a later one. -/
theorem dropWhile_dropWhile {start start' : Offset} (hle : start ≤ start') (L : List Interval) :
    ((L.dropWhile fun J => J.stop < start).dropWhile fun J => J.stop < start') =
      L.dropWhile fun J => J.stop < start' := by
  induction L with
  | nil => rfl
  | cons J rest ih =>
      by_cases hlt : J.stop < start
      · have hlt' := lt_of_lt_of_le hlt hle
        simp only [List.dropWhile_cons, hlt, hlt', decide_true, if_true, ih]
      · simp only [List.dropWhile_cons, hlt, decide_false, Bool.false_eq_true, if_false]

/-- Intervals that overlap nothing only erase what is before the last one. -/
theorem intersectWith_of_apart {L init : List Interval} (hL : Sorted L) {RI : Interval}
    (hrhs : Sorted (init ++ [RI])) (happart : ∀ J ∈ L, ∀ R ∈ init, J.overlaps R = false) :
    intersectWith L (init ++ [RI]) = intersectStep L RI := by
  induction init generalizing L with
  | nil => rfl
  | cons R init ih =>
      have hstep : intersectStep L R = L.dropWhile fun J => J.stop < R.start := by
        rw [intersectStep]
        cases hdrop : L.dropWhile fun J => J.stop < R.start with
        | nil => rfl
        | cons J rest =>
            have hJ : J ∈ L := (List.dropWhile_suffix _).subset (by
              rw [hdrop]
              exact List.mem_cons_self)
            have hnot := happart J hJ R List.mem_cons_self
            simp only [hnot, Bool.false_eq_true, dite_false]
      -- what is dropped before `R` would be dropped before the last one, too
      have hdrop : intersectStep (intersectStep L R) RI = intersectStep L RI := by
        have hle : R.start ≤ RI.start := by
          have := (List.pairwise_cons.1 hrhs).1 RI (List.mem_append_right _ (by simp))
          exact R.start_le_stop.trans (le_of_lt this)
        rw [hstep, intersectStep, dropWhile_dropWhile hle, intersectStep]
      have hsorted := (intersectStep_spec hL R).1
      rw [← hdrop]
      apply ih hsorted hrhs.tail
      intro J hJ R' hR'
      rw [hstep] at hJ
      exact happart J ((List.dropWhile_suffix _).subset hJ) R' (List.mem_cons_of_mem R hR')

/-- No interval is behind the last one of the other list, and only the first that is not before it
may go past its end. -/
def LastFits (L : List Interval) (RI : Interval) : Prop :=
  ∀ J ∈ L, RI.start ≤ J.stop → J.start ≤ RI.stop ∧
    (RI.stop < J.stop → ∀ J' ∈ L, RI.start ≤ J'.stop → J.start ≤ J'.start)

/-- The first interval is cut, and the others are left as they are. -/
theorem cut_right_iff {J RI : Interval} {rest : List Interval} (hL : Sorted (J :: rest))
    (hreach : RI.start ≤ J.stop) :
    (∀ b, Bytes ((if h : J.overlaps RI = true then meet J RI h else J) :: rest) b ↔
        Bytes (J :: rest) b ∧ b ∈ RI.toDiscreteInterval) ↔
      J.start ≤ RI.stop ∧ ∀ K ∈ rest, K.stop ≤ RI.stop := by
  constructor
  · intro hright
    constructor
    · by_contra hbehind
      have hnot : ¬ J.overlaps RI = true := by
        rw [Interval.overlaps, decide_eq_true_eq]
        exact fun h => hbehind h.1
      rw [dif_neg hnot] at hright
      exact hbehind ((hright J.start).1 (bytes_cons.2 (Or.inl J.start_mem))).2.2
    · intro K hK
      exact ((hright K.stop).1 (bytes_cons.2 (Or.inr ⟨K, hK, K.stop_mem⟩))).2.2
  · rintro ⟨hstart, hrest⟩ b
    have hover : J.overlaps RI = true := by
      rw [Interval.overlaps, decide_eq_true_eq]
      exact ⟨hstart, hreach⟩
    rw [dif_pos hover, bytes_cons, bytes_cons, or_and_right]
    refine or_congr ?_ ?_
    · constructor
      · intro hb
        have hge := max_le_iff.1 hb.1
        have hle := le_min_iff.1 hb.2
        exact ⟨⟨hge.1, hle.1⟩, hge.2, hle.2⟩
      · rintro ⟨hb, hb'⟩
        exact ⟨max_le hb.1 hb'.1, le_min hb.2 hb'.2⟩
    · -- the intervals behind the first one lie in the interval
      refine (and_iff_left_of_imp ?_).symm
      rintro ⟨K, hK, hb⟩
      have hlt := (List.pairwise_cons.1 hL).1 K hK
      exact ⟨hreach.trans ((le_of_lt hlt).trans hb.1), hb.2.trans (hrest K hK)⟩

theorem intersectStep_right_iff {L : List Interval} (hL : Sorted L) (RI : Interval) :
    (∀ b, Bytes (intersectStep L RI) b ↔ Bytes L b ∧ b ∈ RI.toDiscreteInterval) ↔
      LastFits L RI := by
  rcases hL.dropWhile_spec RI.start with ⟨hsorted, hmem⟩
  -- what is dropped has no byte in common
  have hbytes : ∀ b, Bytes L b ∧ b ∈ RI.toDiscreteInterval ↔
      Bytes (L.dropWhile fun J => J.stop < RI.start) b ∧ b ∈ RI.toDiscreteInterval := by
    intro b
    refine and_congr_left fun hb => ?_
    constructor
    · rintro ⟨J, hJ, hbJ⟩
      exact ⟨J, (hmem J).2 ⟨hJ, Offset.le_iff.1 (hb.1.trans hbJ.2)⟩, hbJ⟩
    · rintro ⟨J, hJ, hbJ⟩
      exact ⟨J, ((hmem J).1 hJ).1, hbJ⟩
  have hfits : LastFits L RI ↔ ∀ J ∈ (L.dropWhile fun J => J.stop < RI.start),
      J.start ≤ RI.stop ∧ (RI.stop < J.stop →
        ∀ J' ∈ (L.dropWhile fun J => J.stop < RI.start), J.start ≤ J'.start) := by
    simp only [hmem, ← Offset.le_iff, LastFits, and_imp]
  simp only [hbytes, hfits]
  rw [intersectStep]
  cases hdrop : L.dropWhile fun J => J.stop < RI.start with
  | nil => simp
  | cons J rest =>
      rw [hdrop] at hsorted hmem
      have hreach := Offset.le_iff.2 ((hmem J).1 List.mem_cons_self).2
      dsimp only
      rw [cut_right_iff hsorted hreach]
      have hbehind : ∀ K ∈ rest, J.start < K.start := fun K hK =>
        lt_of_le_of_lt J.start_le_stop ((List.pairwise_cons.1 hsorted).1 K hK)
      constructor
      · rintro ⟨hstart, hrest⟩ K hK
        rcases List.mem_cons.1 hK with rfl | hK
        · refine ⟨hstart, fun _ J' hJ' => ?_⟩
          rcases List.mem_cons.1 hJ' with rfl | hJ'
          · exact le_refl _
          · exact le_of_lt (hbehind J' hJ')
        · have hstop := hrest K hK
          exact ⟨K.start_le_stop.trans hstop, fun hlt => absurd hstop (not_le.2 hlt)⟩
      · intro hall
        refine ⟨(hall J List.mem_cons_self).1, fun K hK => ?_⟩
        by_contra hpast
        have hfirst := (hall K (List.mem_cons_of_mem J hK)).2 (not_le.1 hpast) J List.mem_cons_self
        exact absurd (hbehind K hK) (not_lt.2 hfirst)

/-- **Where an intersection is right.** The list is empty; or it has no byte in common with any but
the last interval of the other list, and with the last one it is right. -/
def IntersectFits (L rhs : List Interval) : Prop :=
  L = [] ∨ ∃ init RI, rhs = init ++ [RI] ∧ (∀ J ∈ L, ∀ R ∈ init, J.overlaps R = false) ∧
    LastFits L RI

theorem intersectWith_right_iff {L rhs : List Interval} (hL : Sorted L) (hrhs : Sorted rhs) :
    (∀ b, Bytes (intersectWith L rhs) b ↔ Bytes L b ∧ Bytes rhs b) ↔ IntersectFits L rhs := by
  rcases L with _ | ⟨J, rest⟩
  · refine iff_of_true (fun b => ?_) (Or.inl rfl)
    have hnil : ¬ Bytes (intersectWith [] rhs) b := fun hb =>
      bytes_nil b ((intersectWith_spec .nil rhs).2 b hb)
    simp [hnil]
  rcases List.eq_nil_or_concat rhs with rfl | ⟨init, RI, rfl⟩
  · -- nothing is erased
    refine iff_of_false (fun hright => ?_) ?_
    · exact bytes_nil _ ((hright J.start).1 (bytes_cons.2 (Or.inl J.start_mem))).2
    · rintro (h | ⟨init, RI, h, -⟩)
      · exact absurd h (List.cons_ne_nil J rest)
      · exact List.append_ne_nil_of_right_ne_nil init (List.cons_ne_nil RI []) h.symm
  rw [List.concat_eq_append] at hrhs ⊢
  have hconcat : ∀ b, Bytes (init ++ [RI]) b ↔ Bytes init b ∨ b ∈ RI.toDiscreteInterval := by
    intro b
    simp [Bytes, or_and_right, exists_or]
  have hinit : ∀ b, (∀ K ∈ J :: rest, ∀ R ∈ init, K.overlaps R = false) →
      Bytes (J :: rest) b → ¬ Bytes init b := by
    rintro b happart ⟨K, hK, hb⟩ ⟨R, hR, hb'⟩
    have hover := Interval.overlaps_iff_exists_mem.2 ⟨b, hb, hb'⟩
    rw [happart K hK R hR] at hover
    cases hover
  constructor
  · intro hright
    -- what is left is not before the last interval
    have happart : ∀ K ∈ J :: rest, ∀ R ∈ init, K.overlaps R = false := by
      intro K hK R hR
      rw [← Bool.not_eq_true, Interval.overlaps_iff_exists_mem]
      rintro ⟨b, hb, hb'⟩
      have hin := (hright b).2 ⟨⟨K, hK, hb⟩, (hconcat b).2 (Or.inl ⟨R, hR, hb'⟩)⟩
      rw [intersectWith_concat] at hin
      have hge := ((intersectStep_spec (intersectWith_spec hL init).1 RI).2 b hin).2
      have hlt := (List.pairwise_append.1 hrhs).2.2 R hR RI (List.mem_singleton_self RI)
      have hle := (DiscreteInterval.mem_iff.1 hb').2
      rw [Offset.lt_iff] at hlt
      omega
    refine Or.inr ⟨init, RI, rfl, happart, (intersectStep_right_iff hL RI).1 fun b => ?_⟩
    rw [← intersectWith_of_apart hL hrhs happart, hright b, hconcat b]
    refine and_congr_right fun hb => or_iff_right (hinit b happart hb)
  · rintro (h | ⟨init', RI', h, happart, hfits⟩)
    · exact absurd h (List.cons_ne_nil J rest)
    · rcases List.append_inj' h rfl with ⟨rfl, hRI⟩
      obtain rfl := (List.cons.inj hRI).1
      intro b
      rw [intersectWith_of_apart hL hrhs happart, (intersectStep_right_iff hL RI).2 hfits b,
        hconcat b]
      refine and_congr_right fun hb => (or_iff_right (hinit b happart hb)).symm

/-! ## Sequences of operations -/

/-- An operation; the other list of an intersection is sorted. -/
inductive Op where
  | add (I : Interval)
  | intersectWith (rhs : { R : List Interval // Sorted R })

namespace Op

def apply : Op → List Interval → Option (List Interval)
  | .add I, L => IntervalsList.add I L
  | .intersectWith rhs, L => some (IntervalsList.intersectWith L rhs.1)

/-- What the operation is for: the union, and the intersection of the byte sets. -/
def denote (S : Offset → Prop) : Op → Offset → Prop
  | .add I => fun b => S b ∨ b ∈ I.toDiscreteInterval
  | .intersectWith rhs => fun b => S b ∧ Bytes rhs.1 b

/-- **Where an operation is right**: what is added overlaps nothing, and the list is not empty. -/
def Fits : Op → List Interval → Prop
  | .add I, L => L ≠ [] ∧ ∀ J ∈ L, I.overlaps J = false
  | .intersectWith rhs, L => IntersectFits L rhs.1

/-- The operation ends with a sorted list that has the right bytes. -/
def Right (op : Op) (L : List Interval) (S : Offset → Prop) : Prop :=
  ∃ L', op.apply L = some L' ∧ Sorted L' ∧ ∀ b, Bytes L' b ↔ op.denote S b

theorem right_iff (op : Op) {L : List Interval} (hL : Sorted L) :
    op.Right L (Bytes L) ↔ op.Fits L := by
  cases op with
  | add I =>
      constructor
      · rintro ⟨L', happly, hsorted, -⟩
        have hne : L ≠ [] := by
          rintro rfl
          have hnone : IntervalsList.add I [] = some L' := happly
          rw [add_nil] at hnone
          cases hnone
        have hloop : addLoop I L = some L' := by
          have happly : IntervalsList.add I L = some L' := happly
          rw [IntervalsList.add, if_neg (by simpa using hne)] at happly
          exact happly
        refine ⟨hne, fun J hJ => Bool.eq_false_iff.2 fun hover => ?_⟩
        exact not_sorted_of_overlaps hL ⟨J, hJ, hover⟩ L' hloop hsorted
      · -- apart from all others, the interval is inserted at its place
        rintro ⟨hne, happart⟩
        rcases addLoop_of_apart hL happart with ⟨L', heq, hsorted, hmem⟩
        refine ⟨L', ?_, hsorted, fun b => ?_⟩
        · show IntervalsList.add I L = some L'
          rw [IntervalsList.add, if_neg (by simpa using hne), heq]
        · simp only [Bytes, hmem, or_and_right, exists_or, exists_eq_left, denote]
          exact or_comm
  | intersectWith rhs =>
      show _ ↔ IntersectFits L rhs.1
      rw [← intersectWith_right_iff hL rhs.2]
      constructor
      · rintro ⟨L', happly, -, hbytes⟩
        obtain rfl := Option.some.inj happly
        exact hbytes
      · intro hbytes
        exact ⟨_, rfl, (intersectWith_spec hL rhs.1).1, hbytes⟩

end Op

/-- The list after a sequence of operations. -/
def run (L : List Interval) (ops : List Op) : Option (List Interval) :=
  ops.foldlM (fun L op => op.apply L) L

/-- The bytes after a sequence of operations. -/
def denote (S : Offset → Prop) (ops : List Op) : Offset → Prop := ops.foldl Op.denote S

/-- After each operation the list is sorted and has the right bytes. -/
def RunRight (L : List Interval) (ops : List Op) : Prop :=
  ∀ pre, pre <+: ops →
    ∃ L', run L pre = some L' ∧ Sorted L' ∧ ∀ b, Bytes L' b ↔ denote (Bytes L) pre b

/-- Each operation meets a list where it is right. -/
def RunFits (L : List Interval) (ops : List Op) : Prop :=
  ∀ pre op, pre ++ [op] <+: ops → ∀ L', run L pre = some L' → op.Fits L'

theorem run_concat (L : List Interval) (pre : List Op) (op : Op) :
    run L (pre ++ [op]) = (run L pre).bind op.apply := by
  rw [run, run, List.foldlM_append]
  cases ops : List.foldlM (fun L op => op.apply L) L pre with
  | none => rfl
  | some L' =>
      show (op.apply L' >>= fun L => pure L) = op.apply L'
      exact bind_pure _

theorem denote_concat (S : Offset → Prop) (pre : List Op) (op : Op) :
    denote S (pre ++ [op]) = op.denote (denote S pre) := by
  rw [denote, List.foldl_append]
  rfl

/-- **Where a sequence of operations is right.** -/
theorem runRight_iff {L : List Interval} (hL : Sorted L) (ops : List Op) :
    RunRight L ops ↔ RunFits L ops := by
  constructor
  · intro hright pre op hpre L' hrun
    rcases hright pre ((List.prefix_append pre [op]).trans hpre) with ⟨L₁, hrun₁, hsorted, hbytes⟩
    rcases hright _ hpre with ⟨L₂, hrun₂, hsorted₂, hbytes₂⟩
    obtain rfl := Option.some.inj (hrun.symm.trans hrun₁)
    rw [run_concat, hrun, Option.bind_some] at hrun₂
    have hsame : Bytes L' = denote (Bytes L) pre := funext fun b => propext (hbytes b)
    refine (op.right_iff hsorted).1 ⟨L₂, hrun₂, hsorted₂, fun b => ?_⟩
    rw [hbytes₂ b, denote_concat, hsame]
  · intro hfits pre
    -- from one prefix to the next one
    induction pre using List.reverseRecOn with
    | nil => exact fun _ => ⟨L, rfl, hL, fun b => Iff.rfl⟩
    | append_singleton pre op ih =>
        intro hpre
        rcases ih ((List.prefix_append pre [op]).trans hpre) with ⟨L', hrun, hsorted, hbytes⟩
        rcases (op.right_iff hsorted).2 (hfits pre op hpre L' hrun) with
          ⟨L₂, happly, hsorted₂, hbytes₂⟩
        have hsame : Bytes L' = denote (Bytes L) pre := funext fun b => propext (hbytes b)
        refine ⟨L₂, ?_, hsorted₂, fun b => ?_⟩
        · rw [run_concat, hrun, Option.bind_some, happly]
        · rw [hbytes₂ b, denote_concat, hsame]

/-- From the empty list on, every operation finds an empty list. -/
theorem run_nil {ops : List Op} {L : List Interval} (h : run [] ops = some L) :
    L = [] ∧ ∀ I, Op.add I ∉ ops := by
  induction ops using List.reverseRecOn generalizing L with
  | nil =>
      obtain rfl := Option.some.inj h
      exact ⟨rfl, fun I => List.not_mem_nil⟩
  | append_singleton ops op ih =>
      rw [run_concat] at h
      rcases Option.bind_eq_some_iff.1 h with ⟨L', hrun, happly⟩
      rcases ih hrun with ⟨rfl, hnone⟩
      cases op with
      | add I =>
          have happly : add I [] = some L := happly
          rw [add_nil] at happly
          cases happly
      | intersectWith rhs =>
          obtain rfl := Option.some.inj happly
          refine ⟨?_, fun I hI => ?_⟩
          · cases hrest : intersectWith [] rhs.1 with
            | nil => rfl
            | cons J rest =>
                have hb := (intersectWith_spec .nil rhs.1).2 J.start
                  (by rw [hrest]; exact bytes_cons.2 (Or.inl J.start_mem))
                exact absurd hb (bytes_nil _)
          · rcases List.mem_append.1 hI with hI | hI
            · exact hnone I hI
            · cases List.mem_singleton.1 hI

/-- Of the sequences that start with the empty list, those are right that add nothing. -/
theorem runRight_nil_iff (ops : List Op) : RunRight [] ops ↔ ∀ I, Op.add I ∉ ops := by
  constructor
  · intro hright
    rcases hright ops List.prefix_rfl with ⟨L', hrun, -⟩
    exact (run_nil hrun).2
  · intro hnone
    refine (runRight_iff .nil ops).2 fun pre op hpre L' hrun => ?_
    obtain rfl := (run_nil hrun).1
    cases op with
    | add I =>
        apply absurd _ (hnone I)
        exact hpre.subset (List.mem_append_right pre (List.mem_singleton_self _))
    | intersectWith rhs => exact Or.inl rfl

end Cape.IntervalsList
