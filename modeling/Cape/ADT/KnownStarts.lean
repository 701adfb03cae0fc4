import Cape.ADT.IntervalCoverage

/-!
# Intervals that start at known offsets

The intervals of def-sites start at a known offset. When only such intervals are added, the keys stay
disjoint, and the operations are exact for the unknown offset, too, which then stands for all that
comes behind the last byte (`Tight.has_addOrUpdate`).
-/

set_option autoImplicit false

namespace Cape.DisjunctiveIntervalMap

universe u

variable {V : Type u}

/-! ## Entries that reach the unknown offset -/

/-- The sets of the entries that end at the unknown offset. -/
def tops (m : DisjunctiveIntervalMap V) : List (List V) :=
  (m.filter fun e => e.1.stop = .unknown).map Prod.snd

@[simp] theorem tops_nil : tops ([] : DisjunctiveIntervalMap V) = [] := rfl

theorem tops_cons_of_eq {J : DiscreteInterval} {vals : List V} {m : DisjunctiveIntervalMap V}
    (h : J.stop = .unknown) : tops ((J, vals) :: m) = vals :: tops m := by
  simp [tops, h]

theorem tops_cons_of_ne {J : DiscreteInterval} {vals : List V} {m : DisjunctiveIntervalMap V}
    (h : J.stop ≠ .unknown) : tops ((J, vals) :: m) = tops m := by
  simp [tops, h]

theorem tops_cons_congr {e e' : Entry V} {m m' : DisjunctiveIntervalMap V}
    (hstop : e.1.stop = e'.1.stop) (hvals : e.2 = e'.2) (h : tops m = tops m') :
    tops (e :: m) = tops (e' :: m') := by
  simp [tops, List.filter_cons, hstop] at h ⊢
  split <;> simp [h, hvals]

@[simp] theorem tops_append (m m' : DisjunctiveIntervalMap V) :
    tops (m ++ m') = tops m ++ tops m' := by
  simp [tops]

theorem tops_eq_nil_of_forall {m : DisjunctiveIntervalMap V} (h : ∀ e ∈ m, e.1.stop ≠ .unknown) :
    tops m = [] := by
  simpa [tops] using h

theorem mem_tops {m : DisjunctiveIntervalMap V} {vals : List V} :
    vals ∈ tops m ↔ ∃ e ∈ m, e.1.stop = .unknown ∧ e.2 = vals := by
  simp [tops, and_assoc]

theorem unknown_mem_iff {I : DiscreteInterval} : Offset.unknown ∈ I ↔ I.stop = .unknown := by
  have hstart := I.start.toNat_lt
  have hstop := I.stop.toNat_lt
  rw [DiscreteInterval.mem_iff, Offset.eq_iff, Offset.toNat_unknown]
  omega

theorem has_unknown_iff {m : DisjunctiveIntervalMap V} {v : V} :
    Has m .unknown v ↔ ∃ vals ∈ tops m, v ∈ vals := by
  constructor
  · rintro ⟨e, he, hmem, hv⟩
    exact ⟨e.2, mem_tops.2 ⟨e, he, unknown_mem_iff.1 hmem, rfl⟩, hv⟩
  · rintro ⟨vals, hvals, hv⟩
    rcases mem_tops.1 hvals with ⟨e, he, hstop, rfl⟩
    exact ⟨e, he, unknown_mem_iff.2 hstop, hv⟩

theorem ne_unknown_of_lt {a b : Offset} (h : a < b) : a ≠ .unknown := by
  rintro rfl
  exact Offset.not_unknown_lt b h

/-- The offset before a known one is known. -/
theorem sub_one_ne_unknown {a b : Offset} (ha : a ≠ .unknown) (h : b < a) :
    a - 1 ≠ .unknown := by
  have hlt := Offset.lt_iff.1 h
  have hknown := Offset.ne_unknown_iff.1 ha
  rw [Offset.ne_unknown_iff, Offset.toNat_sub_one hknown (by omega)]
  omega

/-! ## Splits and gaps -/

theorem tops_splitStop (I : DiscreteInterval) (m : DisjunctiveIntervalMap V) :
    tops (splitStop I m) = tops m := by
  induction m with
  | nil => rfl
  | cons e rest ih =>
      rw [splitStop]
      split
      · split
        · next hlt =>
            -- the first part ends with `I`, before the entry
            simp only [splitInterval]
            rw [tops_cons_of_ne (J := ⟨e.1.start, I.stop⟩) (ne_unknown_of_lt hlt)]
            exact tops_cons_congr rfl rfl rfl
        · exact tops_cons_congr rfl rfl ih
      · rfl

theorem tops_splitPrev {I : DiscreteInterval} {e : Entry V} (hI : I.start ≠ .unknown)
    (hlt : e.1.start < I.start) : tops (splitPrev I e) = tops [e] := by
  have hfirst := sub_one_ne_unknown hI hlt
  rw [splitPrev]
  split
  · dsimp only
    split
    · next hover =>
        simp only [splitInterval]
        rw [tops_cons_of_ne hfirst,
          tops_cons_of_ne (J := ⟨I.start - 1 + 1, I.stop⟩) (ne_unknown_of_lt hover)]
        exact tops_cons_congr rfl rfl rfl
    · simp only [splitInterval]
      rw [tops_cons_of_ne hfirst]
      exact tops_cons_congr rfl rfl rfl
  · rfl

/-- Cutting at the borders of an interval leaves the sets at the unknown offset as they are. -/
theorem tops_splitExtBorders {I : DiscreteInterval} (hI : I.start ≠ .unknown)
    (m : DisjunctiveIntervalMap V) : tops (splitExtBorders I m) = tops m := by
  induction m with
  | nil => rfl
  | cons e rest ih =>
      rw [splitExtBorders]
      split
      · next hlt =>
          rw [tops_append, tops_splitPrev hI hlt, ih, ← tops_append]
          rfl
      · exact tops_splitStop I (e :: rest)

variable [DecidableEq V]

/-- An interval with a known end does not reach the unknown offset. -/
theorem tops_fill_of_ne (v : V) (update : Bool) {m : DisjunctiveIntervalMap V} :
    ∀ {I : DiscreteInterval}, I.stop ≠ .unknown → (∀ e ∈ m, e.1.start ≤ I.stop → e.1.stop ≤ I.stop) →
      tops (fill v update I m) = tops m := by
  induction m with
  | nil =>
      intro I hI _
      exact tops_cons_of_ne hI
  | cons e es ih =>
      intro I hI hfits
      rw [fill]
      split
      · rw [tops_cons_of_ne hI]
      · next hreach =>
          have hlt : I.stop < .unknown := lt_of_le_of_ne (not_lt.1 (Offset.not_unknown_lt _)) hI
          have hstart : e.1.start ≠ .unknown := ne_unknown_of_lt (lt_of_le_of_lt (not_lt.1 hreach) hlt)
          have hstop : e.1.stop ≠ .unknown :=
            ne_unknown_of_lt (lt_of_le_of_lt (hfits e List.mem_cons_self (not_lt.1 hreach)) hlt)
          have hgap : tops (if I.start < e.1.start then [(⟨I.start, e.1.start - 1⟩, [v])] else []) =
              [] := by
            apply tops_eq_nil_of_forall
            intro p hp
            split at hp
            · next hbefore =>
                rw [List.mem_singleton.1 hp]
                exact sub_one_ne_unknown hstart hbefore
            · cases hp
          rw [tops_append, hgap, List.nil_append, tops_cons_of_ne hstop, tops_cons_of_ne hstop]
          split
          · rfl
          · exact ih hI fun e' he' => hfits e' (List.mem_cons_of_mem e he')

/-- An unbounded interval: the entry that reaches the unknown offset gets the value, or there is a
new one. There is no gap to fill right before an entry for the unknown offset alone. -/
theorem tops_fill_of_eq (v : V) (update : Bool) {m : DisjunctiveIntervalMap V} :
    ∀ {I : DiscreteInterval}, I.stop = .unknown → Ordered m → (tops m).length ≤ 1 →
      (∀ e ∈ m, I.start ≤ e.1.start) →
      (∀ e ∈ m, e.1.start = .unknown → I.start = .unknown ∨ Covers m lastByte) →
        tops (fill v update I m) =
          [match tops m with
            | [] => [v]
            | vals :: _ => addValue v update vals] := by
  induction m with
  | nil =>
      intro I hI _ _ _ _
      exact tops_cons_of_eq hI
  | cons e es ih =>
      intro I hI hm hsingle hge hlast
      have hproper := hm.proper e List.mem_cons_self
      have hgap : tops (if I.start < e.1.start then [(⟨I.start, e.1.start - 1⟩, [v])] else []) =
          [] := by
        apply tops_eq_nil_of_forall
        intro p hp
        split at hp
        · next hbefore =>
            rw [List.mem_singleton.1 hp]
            apply sub_one_ne_unknown _ hbefore
            intro hunknown
            rcases hlast e List.mem_cons_self hunknown with hstart | ⟨e', he', hmem⟩
            · rw [hstart] at hbefore
              exact Offset.not_unknown_lt _ hbefore
            · -- no entry from here on has the last byte
              rw [DiscreteInterval.mem_iff, toNat_lastByte] at hmem
              have hle : e.1.start.toNat ≤ e'.1.start.toNat := by
                rcases List.mem_cons.1 he' with rfl | he'
                · exact le_refl _
                · exact hm.start_le he'
              rw [hunknown, Offset.toNat_unknown] at hle
              omega
        · cases hp
      rw [fill, if_neg (by rw [hI]; exact Offset.not_unknown_lt _), tops_append, hgap,
        List.nil_append]
      by_cases hstop : e.1.stop = .unknown
      · rw [tops_cons_of_eq hstop] at hsingle ⊢
        have hnil : tops es = [] := by
          rw [← List.length_eq_zero_iff]
          simpa using hsingle
        rw [if_pos (hstop.trans hI.symm), tops_cons_of_eq hstop, hnil]
      · rw [tops_cons_of_ne hstop] at hsingle ⊢
        rw [tops_cons_of_ne hstop, if_neg fun h => hstop (h.trans hI)]
        have hknown := Offset.ne_unknown_iff.1 hstop
        have hsucc := Offset.toNat_add_one hknown
        apply ih (I := ⟨e.1.stop + 1, I.stop⟩) hI hm.tail hsingle
        · intro e' he'
          rw [Offset.le_iff, hsucc]
          rcases (List.pairwise_cons.1 hm.sorted).1 e' he' with hsep | hunknown
          · exact Offset.lt_iff.1 hsep
          · rw [hunknown, Offset.toNat_unknown]
            omega
        · intro e' he' hunknown
          rcases hlast e' (List.mem_cons_of_mem e he') hunknown with hstart | hcov
          · -- then this entry would start at the unknown offset, too
            have hle := Offset.le_iff.1 ((hge e List.mem_cons_self).trans hproper)
            rw [hstart, Offset.toNat_unknown] at hle
            omega
          · rcases covers_cons.1 hcov with hmem | hcov
            · left
              rw [DiscreteInterval.mem_iff, toNat_lastByte] at hmem
              show e.1.stop + 1 = .unknown
              rw [Offset.eq_iff, hsucc, Offset.toNat_unknown]
              omega
            · exact Or.inr hcov

/-! ## The invariant -/

omit [DecidableEq V] in
/-- The keys are disjoint, and the byte before an entry for the unknown offset alone has an entry. -/
structure Tight (m : DisjunctiveIntervalMap V) : Prop where
  ordered : Ordered m
  single : (tops m).length ≤ 1
  last : ∀ e ∈ m, e.1.start = .unknown → Covers m lastByte

omit [DecidableEq V] in
theorem Tight.nil : Tight ([] : DisjunctiveIntervalMap V) := ⟨.nil, Nat.zero_le _, nofun⟩

omit [DecidableEq V] in
theorem Tight.keysDisjoint {m : DisjunctiveIntervalMap V} (h : Tight m) : KeysDisjoint m where
  proper := h.ordered.proper
  disjoint := by
    have hsingle := h.single
    have hordered := h.ordered
    clear h
    induction m with
    | nil => exact .nil
    | cons e m ih =>
        have hrest : (tops m).length ≤ 1 := by
          by_cases hstop : e.1.stop = .unknown
          · rw [tops_cons_of_eq hstop, List.length_cons] at hsingle
            omega
          · rwa [tops_cons_of_ne hstop] at hsingle
        refine List.pairwise_cons.2 ⟨fun e' he' => ?_, ih hrest hordered.tail⟩
        rcases (List.pairwise_cons.1 hordered.sorted).1 e' he' with hsep | hunknown
        · exact hsep
        · -- both would reach the unknown offset
          have hproper := hordered.proper e' (List.mem_cons_of_mem e he')
          have hstop' : e'.1.stop = .unknown :=
            le_antisymm (not_lt.1 (Offset.not_unknown_lt _)) (hunknown ▸ hproper)
          have hstop : e.1.stop ≠ .unknown := by
            intro hstop
            rw [tops_cons_of_eq hstop, List.length_cons] at hsingle
            have hmem : e'.2 ∈ tops m := mem_tops.2 ⟨e', he', hstop', rfl⟩
            have hpos := List.length_pos_of_mem hmem
            omega
          rw [hunknown]
          exact lt_of_le_of_ne (not_lt.1 (Offset.not_unknown_lt _)) hstop

/-- What an operation makes of the sets at the unknown offset. -/
theorem Tight.tops_addOrUpdate {I : DiscreteInterval} {m : DisjunctiveIntervalMap V} (h : Tight m)
    (hI : I.start ≤ I.stop) (hknown : I.start ≠ .unknown) (v : V) (update : Bool) :
    tops (addOrUpdate I v update m) =
      if I.stop = .unknown then
        [match tops m with
          | [] => [v]
          | vals :: _ => addValue v update vals]
      else tops m := by
  rcases refines_splitExtBorders hI h.ordered with ⟨hrefines, hfits⟩
  have hsplit : (splitExtBorders I m).takeWhile (fun e => e.1.start < I.start) ++
      (splitExtBorders I m).dropWhile (fun e => e.1.start < I.start) = splitExtBorders I m :=
    List.takeWhile_append_dropWhile
  have htops := tops_splitExtBorders hknown m
  rw [addOrUpdate]
  have hlow : ∀ e ∈ (splitExtBorders I m).takeWhile (fun e => e.1.start < I.start),
      e.1.start < I.start := fun e he => start_lt_of_mem_takeWhile he
  have hhigh : ∀ e ∈ (splitExtBorders I m).dropWhile (fun e => e.1.start < I.start),
      I.start ≤ e.1.start := fun e he => start_le_of_mem_dropWhile hrefines.ordered he
  generalize (splitExtBorders I m).takeWhile (fun e => e.1.start < I.start) = before at hsplit hlow ⊢
  generalize (splitExtBorders I m).dropWhile (fun e => e.1.start < I.start) = ge at hsplit hhigh ⊢
  rw [← hsplit] at htops hfits
  -- what comes before the interval ends there
  have hbefore : tops before = [] := by
    apply tops_eq_nil_of_forall
    intro e he
    rcases (hfits e (List.mem_append_left ge he)).1 (hlow e he) with hlt | hunknown
    · exact ne_unknown_of_lt hlt
    · exact absurd hunknown hknown
  rw [tops_append, hbefore, List.nil_append] at htops
  rw [tops_append, hbefore, List.nil_append]
  split
  · next hstop =>
      rw [← htops]
      have hordered : Ordered (before ++ ge) := hsplit ▸ hrefines.ordered
      apply tops_fill_of_eq v update hstop hordered.right (by rw [htops]; exact h.single) hhigh
      intro e he hunknown
      right
      -- the byte before has an entry, and that one is not before the interval
      have hcov : Covers (before ++ ge) lastByte := by
        have hhas := hrefines.has lastByte (by decide)
        rw [← hsplit] at hhas
        have hinside := hrefines.inside e (hsplit ▸ List.mem_append_right before he)
        rcases hinside with ⟨e', he', hle, hle'⟩
        have hmem : Covers m lastByte := by
          by_cases hstart : e'.1.start = .unknown
          · exact h.last e' he' hstart
          · have hlt := Offset.ne_unknown_iff.1 hstart
            have hproper := Offset.le_iff.1 (hordered.right.proper e he)
            have hle' := Offset.le_iff.1 hle'
            rw [hunknown, Offset.toNat_unknown] at hproper
            refine ⟨e', he', ?_⟩
            rw [DiscreteInterval.mem_iff, toNat_lastByte]
            omega
        rcases h.ordered.covers_iff.1 hmem with ⟨w, hw⟩
        exact ((hhas w).2 hw).covers
      rcases covers_append.1 hcov with ⟨e', he', hmem⟩ | hcov
      · exfalso
        rcases (hfits e' (List.mem_append_left ge he')).1 (hlow e' he') with hlt | hunknown
        · rw [DiscreteInterval.mem_iff, toNat_lastByte] at hmem
          have hlt := Offset.lt_iff.1 hlt
          have hbound := Offset.ne_unknown_iff.1 hknown
          omega
        · exact hknown hunknown
      · exact hcov
  · next hstop =>
      rw [← htops]
      apply tops_fill_of_ne v update hstop
      intro e he hreach
      exact (hfits e (List.mem_append_right before he)).2 (hhigh e he) hreach

/-- **The operations are exact for every offset**, the unknown one included. -/
theorem Tight.has_addOrUpdate {I : DiscreteInterval} {m : DisjunctiveIntervalMap V} (h : Tight m)
    (hI : I.start ≤ I.stop) (hknown : I.start ≠ .unknown) (v : V) (update : Bool) (b : Offset)
    (w : V) : Has (addOrUpdate I v update m) b w ↔ Written I v update m b w := by
  by_cases hb : b = .unknown
  · subst hb
    rw [has_unknown_iff, h.tops_addOrUpdate hI hknown, Written, unknown_mem_iff, has_unknown_iff]
    by_cases hstop : I.stop = .unknown
    · have hsingle := h.single
      rw [if_pos hstop]
      cases htops : tops m with
      | nil => simp [hstop]
      | cons vals rest =>
          rw [htops, List.length_cons] at hsingle
          obtain rfl : rest = [] := List.length_eq_zero_iff.1 (by omega)
          simp [hstop, mem_addValue]
    · rw [if_neg hstop]
      simp [hstop]
  · exact (addOrUpdate_spec hI v update h.ordered).2 b hb w

/-- The invariant is kept. -/
theorem Tight.addOrUpdate {I : DiscreteInterval} {m : DisjunctiveIntervalMap V} (h : Tight m)
    (hI : I.start ≤ I.stop) (hknown : I.start ≠ .unknown) (v : V) (update : Bool) :
    Tight (addOrUpdate I v update m) := by
  have hordered := (addOrUpdate_spec hI v update h.ordered).1
  have htops := h.tops_addOrUpdate hI hknown v update
  constructor
  case ordered => exact hordered
  case single =>
    rw [htops]
    split
    · exact Nat.le_refl 1
    · exact h.single
  case last =>
    intro p hp hunknown
    rw [hordered.covers_iff]
    have hspec := fun w => h.has_addOrUpdate hI hknown v update lastByte w
    by_cases hmem : lastByte ∈ I
    · exact ⟨v, (hspec v).2 (Or.inr ⟨hmem, Or.inl rfl⟩)⟩
    · -- then the interval ends before, and the entry that reaches the unknown offset was there
      have hbound := Offset.ne_unknown_iff.1 hknown
      have hstop : I.stop ≠ .unknown := by
        intro hstop
        apply hmem
        rw [DiscreteInterval.mem_iff, hstop, Offset.toNat_unknown, toNat_lastByte]
        omega
      rw [if_neg hstop] at htops
      have htop : p.2 ∈ tops m := by
        rw [← htops, mem_tops]
        have hproper := hordered.proper p hp
        rw [hunknown] at hproper
        exact ⟨p, hp, le_antisymm (not_lt.1 (Offset.not_unknown_lt _)) hproper, rfl⟩
      rcases mem_tops.1 htop with ⟨e, he, hend, -⟩
      have hcov : Covers m lastByte := by
        by_cases hstart : e.1.start = .unknown
        · exact h.last e he hstart
        · have hlt := Offset.ne_unknown_iff.1 hstart
          refine ⟨e, he, ?_⟩
          rw [DiscreteInterval.mem_iff, toNat_lastByte, hend, Offset.toNat_unknown]
          omega
      rcases h.ordered.covers_iff.1 hcov with ⟨w, hw⟩
      exact ⟨w, (hspec w).2 (Or.inl ⟨hmem, hw⟩)⟩

omit [DecidableEq V] in
/-- **Where `uncovered` goes wrong** on such a map, in terms of bytes: some byte of the interval has
an entry, the last one and the one behind it have none, and a later one has. -/
theorem Tight.overruns_iff {I : DiscreteInterval} {m : DisjunctiveIntervalMap V} (h : Tight m)
    (hI : I.start ≤ I.stop) :
    Overruns I m ↔ (∃ b ∈ I, Covers m b) ∧ (¬ Covers m I.stop ∧ ¬ Covers m (I.stop + 1)) ∧
      ∃ b, I.stop < b ∧ Covers m b := by
  have hover : (∃ e ∈ m, Overlaps I e) ↔ ∃ b ∈ I, Covers m b := by
    constructor
    · rintro ⟨e, he, hover⟩
      rcases (overlaps_iff_exists_mem hI (h.ordered.proper e he)).1 hover with ⟨b, hb, hmem⟩
      exact ⟨b, hb, e, he, hmem⟩
    · rintro ⟨b, hb, e, he, hmem⟩
      exact ⟨e, he, (overlaps_iff_exists_mem hI (h.ordered.proper e he)).2 ⟨b, hb, hmem⟩⟩
  -- no interval before an entry at the unknown offset is left
  have hfirst : OverrunsFrom I.start I.stop m ↔
      ¬ Covers m I.stop ∧ ¬ Covers m (I.stop + 1) ∧ ∃ e ∈ m, I.stop < e.1.start := by
    rw [OverrunsFrom]
    refine or_iff_left ?_
    rintro ⟨hlast, -, -, e, he, hunknown⟩
    exact hlast (h.last e he hunknown)
  rw [Overruns, hover, hfirst, and_assoc]
  refine and_congr_right fun _ => and_congr_right fun hstop => and_congr_right fun _ => ?_
  constructor
  · rintro ⟨e, he, hlt⟩
    exact ⟨e.1.start, hlt, e, he, le_refl _, h.ordered.proper e he⟩
  · rintro ⟨b, hlt, e, he, hmem⟩
    refine ⟨e, he, ?_⟩
    -- an entry that starts earlier has the last byte
    by_contra hle
    exact hstop ⟨e, he, not_lt.1 hle, (le_of_lt hlt).trans hmem.2⟩

end Cape.DisjunctiveIntervalMap
