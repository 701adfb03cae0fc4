import Cape.ADT.DisjunctiveIntervalMap

/-!
# What maps from intervals answer

`gather` finds the values that share an offset with an interval; `uncovered` finds the bytes of an
interval that have no entry. The last interval of the answer of `uncovered` may go on behind the
end of the interval that was asked for, up to the next entry (`Gaps`).
-/

set_option autoImplicit false

namespace Cape.DisjunctiveIntervalMap

universe u

variable {V : Type u}

/-- The entry shares an offset with the interval. -/
def Overlaps (I : DiscreteInterval) (e : Entry V) : Prop := e.1.start ≤ I.stop ∧ I.start ≤ e.1.stop

/-- An entry and an interval overlap if they have an offset in common. -/
theorem overlaps_iff_exists_mem {I : DiscreteInterval} {e : Entry V} (hI : I.start ≤ I.stop)
    (he : e.1.start ≤ e.1.stop) : Overlaps I e ↔ ∃ b ∈ I, b ∈ e.1 := by
  constructor
  · rintro ⟨hstart, hstop⟩
    refine ⟨max I.start e.1.start, ⟨le_max_left _ _, max_le hI hstart⟩, le_max_right _ _, ?_⟩
    exact max_le hstop he
  · rintro ⟨b, hb, hb'⟩
    exact ⟨hb'.1.trans hb.2, hb.1.trans hb'.2⟩

theorem Ordered.left {l l' : List (Entry V)} (h : Ordered (l ++ l')) : Ordered l :=
  ⟨(List.pairwise_append.1 h.sorted).1, fun e he => h.proper e (List.mem_append_left _ he),
    fun e he => h.nonempty e (List.mem_append_left _ he)⟩

theorem Ordered.right {l l' : List (Entry V)} (h : Ordered (l ++ l')) : Ordered l' :=
  ⟨(List.pairwise_append.1 h.sorted).2.1, fun e he => h.proper e (List.mem_append_right _ he),
    fun e he => h.nonempty e (List.mem_append_right _ he)⟩

/-- What `le` finds among the entries that do not start before the interval. -/
def leFrom (I : DiscreteInterval) : DisjunctiveIntervalMap V → List (Entry V)
  | [] => []
  | e :: es => if I.stop < e.1.start then [] else e :: es

theorem le_of_none {I : DiscreteInterval} {m : DisjunctiveIntervalMap V}
    (h : (m.takeWhile fun e => e.1.start < I.start).getLast? = none) :
    le I m = leFrom I (m.dropWhile fun e => e.1.start < I.start) := by
  rw [le, h]
  cases (m.dropWhile fun e => e.1.start < I.start) <;> rfl

theorem le_of_some {I : DiscreteInterval} {m : DisjunctiveIntervalMap V} {prev : Entry V}
    (h : (m.takeWhile fun e => e.1.start < I.start).getLast? = some prev) :
    le I m = if I.start ≤ prev.1.stop then prev :: m.dropWhile fun e => e.1.start < I.start
      else leFrom I (m.dropWhile fun e => e.1.start < I.start) := by
  rw [le, h]
  cases (m.dropWhile fun e => e.1.start < I.start) <;> rfl

/-- `le` finds the first entry that overlaps the interval. -/
theorem le_spec {I : DiscreteInterval} {m : DisjunctiveIntervalMap V} (hm : Ordered m)
    (hI : I.start ≤ I.stop) :
    (le I m = [] ∧ ∀ e ∈ m, ¬ Overlaps I e) ∨
      ∃ pre e es, m = pre ++ e :: es ∧ le I m = e :: es ∧ Overlaps I e ∧
        ∀ p ∈ pre, p.1.stop < I.start := by
  have hsplit : (m.takeWhile fun e => e.1.start < I.start) ++
      (m.dropWhile fun e => e.1.start < I.start) = m := List.takeWhile_append_dropWhile
  have hlow : ∀ e ∈ m.takeWhile fun e => e.1.start < I.start, e.1.start < I.start :=
    fun e he => start_lt_of_mem_takeWhile he
  have hhigh : ∀ e ∈ m.dropWhile fun e => e.1.start < I.start, I.start ≤ e.1.start :=
    fun e he => start_le_of_mem_dropWhile hm he
  have hnone := le_of_none (I := I) (m := m)
  have hsome := @le_of_some _ I m
  generalize le I m = found at hnone hsome ⊢
  generalize (m.takeWhile fun e => e.1.start < I.start) = before at hsplit hlow hnone hsome
  generalize (m.dropWhile fun e => e.1.start < I.start) = ge at hsplit hhigh hnone hsome
  subst hsplit
  -- the search goes on behind entries that end before the interval
  have hge : (∀ p ∈ before, p.1.stop < I.start) →
      ((leFrom I ge = [] ∧ ∀ e ∈ before ++ ge, ¬ Overlaps I e) ∨
        ∃ pre e es, before ++ ge = pre ++ e :: es ∧ leFrom I ge = e :: es ∧
          Overlaps I e ∧ ∀ p ∈ pre, p.1.stop < I.start) := by
    intro hbefore
    have hnot : ∀ e ∈ before, ¬ Overlaps I e := fun e he h =>
      absurd (hbefore e he) (not_lt.2 h.2)
    cases ge with
    | nil =>
        left
        refine ⟨rfl, fun e he => hnot e ?_⟩
        simpa using he
    | cons e es =>
        have hproper := hm.right.proper e List.mem_cons_self
        by_cases hafter : I.stop < e.1.start
        · left
          refine ⟨if_pos hafter, fun e' he' => ?_⟩
          obtain he' | he' := List.mem_append.1 he'
          · exact hnot e' he'
          · rintro ⟨hstart, -⟩
            have hstart := Offset.le_iff.1 hstart
            have hafter := Offset.lt_iff.1 hafter
            obtain rfl | he' := List.mem_cons.1 he'
            · omega
            · have := hm.right.start_le he'
              omega
        · right
          exact ⟨before, e, es, rfl, if_neg hafter, ⟨not_lt.1 hafter,
            (hhigh e List.mem_cons_self).trans hproper⟩, hbefore⟩
  cases hlast : before.getLast? with
  | none =>
      rw [hnone hlast]
      rw [List.getLast?_eq_none_iff] at hlast
      subst hlast
      exact hge fun p hp => absurd hp List.not_mem_nil
  | some prev =>
      rw [hsome hlast]
      obtain ⟨pre, rfl⟩ := List.getLast?_eq_some_iff.1 hlast
      have hprev := hlow prev (by simp)
      have hpre : ∀ p ∈ pre, p.1.stop < I.start := by
        intro p hp
        have hsorted := (List.pairwise_append.1 hm.left.sorted).2.2 p hp prev (List.mem_singleton_self _)
        obtain hlt | hunknown := hsorted
        · exact hlt.trans hprev
        · rw [hunknown] at hprev
          exact absurd hprev (Offset.not_unknown_lt _)
      split
      · next hreach =>
          right
          refine ⟨pre, prev, ge, by simp, rfl, ⟨(le_of_lt hprev).trans hI, hreach⟩, hpre⟩
      · next hreach =>
          apply hge
          intro p hp
          obtain hp | hp := List.mem_append.1 hp
          · exact hpre p hp
          · rw [List.mem_singleton.1 hp]
            exact not_le.1 hreach

/-- The intervals `Js` start between `start` and `stop` and have no covered byte; they contain all
bytes from `start` to `stop` that are not covered. -/
structure Gaps (start stop : Offset) (m : DisjunctiveIntervalMap V) (Js : List DiscreteInterval) :
    Prop where
  proper : ∀ J ∈ Js, start ≤ J.start ∧ J.start ≤ stop ∧ J.start ≤ J.stop
  free : ∀ J ∈ Js, ∀ b ∈ J, b ≠ .unknown → ¬ Covers m b
  all : ∀ b, start ≤ b → b ≤ stop → b ≠ .unknown → ¬ Covers m b → ∃ J ∈ Js, b ∈ J

theorem toNat_succ {a b : Offset} (h : a < b) : (a + 1).toNat = a.toNat + 1 := by
  have hlt := Offset.lt_iff.1 h
  have hbound := b.toNat_lt
  exact Offset.toNat_add_one (by omega)

theorem succ_le {a b : Offset} (h : a < b) : a + 1 ≤ b := by
  rw [Offset.le_iff, toNat_succ h]
  exact Offset.lt_iff.1 h

theorem le_of_lt_succ {a b c : Offset} (h : a < b) (hc : c < a + 1) : c ≤ a := by
  rw [Offset.lt_iff, toNat_succ h] at hc
  exact Offset.le_iff.2 (Nat.le_of_lt_succ hc)

theorem Ordered.le_start {e : Entry V} {m : DisjunctiveIntervalMap V} (hm : Ordered (e :: m))
    {b : Offset} (hb : b ≤ e.1.start) : ∀ e' ∈ e :: m, b ≤ e'.1.start := by
  intro e' he'
  obtain rfl | he' := List.mem_cons.1 he'
  · exact hb
  · exact hb.trans (Offset.le_iff.2 (hm.start_le he'))

/-- The entries behind the first one start behind its end. -/
theorem Ordered.succ_le_start {e : Entry V} {m : DisjunctiveIntervalMap V} (hm : Ordered (e :: m)) :
    ∀ e' ∈ m, e.1.stop + 1 ≤ e'.1.start := by
  intro e' he'
  obtain hsep | hunknown := (List.pairwise_cons.1 hm.sorted).1 e' he'
  · exact succ_le hsep
  · rw [hunknown]
    exact not_lt.1 (Offset.not_unknown_lt _)

/-- The gap between a byte and an entry. -/
theorem mem_gap {start : Offset} {I J : DiscreteInterval}
    (hJ : J ∈ (if start < I.start then [⟨start, I.start - 1⟩] else [] : List DiscreteInterval)) :
    J.start = start ∧ start ≤ J.stop ∧ ∀ b, b ≠ .unknown → (b ∈ J ↔ start ≤ b ∧ b < I.start) := by
  split at hJ
  · next hlt =>
      rw [List.mem_singleton.1 hJ]
      by_cases hunknown : I.start = .unknown
      · -- the unknown offset less one is the unknown offset
        rw [hunknown, Offset.unknown_sub]
        refine ⟨rfl, not_lt.1 (Offset.not_unknown_lt _), fun b hb => ?_⟩
        rw [Offset.ne_unknown_iff] at hb
        show start ≤ b ∧ b ≤ Offset.unknown ↔ _
        rw [Offset.le_iff, Offset.le_iff, Offset.lt_iff, Offset.toNat_unknown]
        omega
      · rw [← Ne, Offset.ne_unknown_iff] at hunknown
        have hlt' := Offset.lt_iff.1 hlt
        have hpred := Offset.toNat_sub_one hunknown (by omega)
        refine ⟨rfl, ?_, fun b _ => ?_⟩
        · show start ≤ I.start - 1
          rw [Offset.le_iff, hpred]
          omega
        · show start ≤ b ∧ b ≤ I.start - 1 ↔ _
          rw [Offset.le_iff, Offset.le_iff, Offset.lt_iff, hpred]
          omega
  · cases hJ

theorem exists_mem_gap {start b : Offset} {I : DiscreteInterval} (hstart : start ≤ b)
    (hlt : b < I.start) (hb : b ≠ .unknown) :
    ∃ J ∈ (if start < I.start then [⟨start, I.start - 1⟩] else [] : List DiscreteInterval),
      b ∈ J := by
  have hJ : (⟨start, I.start - 1⟩ : DiscreteInterval) ∈
      (if start < I.start then [⟨start, I.start - 1⟩] else [] : List DiscreteInterval) := by
    rw [if_pos (hstart.trans_lt hlt)]
    exact List.mem_singleton_self _
  exact ⟨_, hJ, ((mem_gap hJ).2.2 b hb).2 ⟨hstart, hlt⟩⟩

/-- Behind the end of the first entry, the gaps are those of the other entries. -/
theorem Gaps.cons {e : Entry V} {m : DisjunctiveIntervalMap V} {stop : Offset}
    {Js : List DiscreteInterval} (h : Gaps (e.1.stop + 1) stop m Js) (hend : e.1.stop < stop) :
    Gaps (e.1.stop + 1) stop (e :: m) Js := by
  have hsucc := toNat_succ hend
  refine ⟨h.proper, fun J hJ b hmem hb => ?_, fun b hstart hstop hb hnot => ?_⟩
  · have hJstart := Offset.le_iff.1 (h.proper J hJ).1
    have hmem' := DiscreteInterval.mem_iff.1 hmem
    rw [covers_cons, DiscreteInterval.mem_iff]
    rintro (hin | hin)
    · omega
    · exact h.free J hJ b hmem hb hin
  · rw [covers_cons, not_or] at hnot
    exact h.all b hstart hstop hb hnot.2

/-- Gaps behind `mid`, and those in front of it. -/
theorem Gaps.append {m : DisjunctiveIntervalMap V} {start mid stop : Offset}
    {Js Ks : List DiscreteInterval} (hmid : start ≤ mid)
    (hproper : ∀ J ∈ Js, start ≤ J.start ∧ J.start ≤ stop ∧ J.start ≤ J.stop)
    (hfree : ∀ J ∈ Js, ∀ b ∈ J, b ≠ .unknown → ¬ Covers m b)
    (hall : ∀ b, start ≤ b → b < mid → b ≠ .unknown → ¬ Covers m b → ∃ J ∈ Js, b ∈ J)
    (h : Gaps mid stop m Ks) : Gaps start stop m (Js ++ Ks) := by
  refine ⟨fun J hJ => ?_, fun J hJ => ?_, fun b hstart hstop hb hnot => ?_⟩
  · obtain hJ | hJ := List.mem_append.1 hJ
    · exact hproper J hJ
    · exact ⟨hmid.trans (h.proper J hJ).1, (h.proper J hJ).2⟩
  · obtain hJ | hJ := List.mem_append.1 hJ
    · exact hfree J hJ
    · exact h.free J hJ
  · obtain hlt | hge := lt_or_ge b mid
    · obtain ⟨J, hJ, hmem⟩ := hall b hstart hlt hb hnot
      exact ⟨J, List.mem_append_left _ hJ, hmem⟩
    · obtain ⟨J, hJ, hmem⟩ := h.all b hge hstop hb hnot
      exact ⟨J, List.mem_append_right _ hJ, hmem⟩

theorem gaps_uncoveredFrom (stop : Offset) {m : DisjunctiveIntervalMap V} :
    ∀ (start : Offset), Ordered m → start ≤ stop → (∀ e ∈ m, start ≤ e.1.start) →
      Gaps start stop m (uncoveredFrom stop start m) := by
  induction m with
  | nil =>
      intro start _ hle _
      refine ⟨fun J hJ => ?_, fun _ _ _ _ _ => covers_nil _, fun b hstart hstop _ _ => ?_⟩
      · rw [List.mem_singleton.1 hJ]
        exact ⟨le_refl _, hle, hle⟩
      · exact ⟨_, List.mem_singleton_self _, hstart, hstop⟩
  | cons e es ih =>
      intro start hm hle hge
      have hproper := hm.proper e List.mem_cons_self
      -- the gap before the entry
      have hgap : ∀ J ∈ (if start < e.1.start then [⟨start, e.1.start - 1⟩] else [] :
          List DiscreteInterval), start ≤ J.start ∧ J.start ≤ stop ∧ J.start ≤ J.stop := by
        intro J hJ
        obtain ⟨hstart, hstop, -⟩ := mem_gap hJ
        rw [hstart]
        exact ⟨le_refl _, hle, hstop⟩
      have hfree : ∀ J ∈ (if start < e.1.start then [⟨start, e.1.start - 1⟩] else [] :
          List DiscreteInterval), ∀ b ∈ J, b ≠ .unknown → ¬ Covers (e :: es) b := by
        intro J hJ b hmem hb hcovers
        have hbefore : b < e.1.start := (((mem_gap hJ).2.2 b hb).1 hmem).2
        obtain hin | hin := covers_cons.1 hcovers
        · exact absurd hbefore (not_lt.2 hin.1)
        · have hlater : e.1.stop < b := Offset.lt_iff.2 (hm.lt_of_has hb hin)
          exact absurd (hlater.trans (hbefore.trans_le hproper)) (lt_irrefl _)
      have hall : ∀ b, start ≤ b → b ≤ e.1.stop → b ≠ .unknown → ¬ Covers (e :: es) b →
          ∃ J ∈ (if start < e.1.start then [⟨start, e.1.start - 1⟩] else [] :
            List DiscreteInterval), b ∈ J := by
        intro b hstart hstop hb hnot
        exact exists_mem_gap hstart (not_le.1 fun hin => hnot (covers_cons.2 (Or.inl ⟨hin, hstop⟩))) hb
      rw [uncoveredFrom]
      by_cases hend : stop ≤ e.1.stop
      · rw [if_pos hend, List.append_nil]
        exact ⟨hgap, hfree, fun b hstart hstop => hall b hstart (hstop.trans hend)⟩
      · -- the scan goes on behind the entry
        rw [if_neg hend]
        have hend := not_le.1 hend
        have hrest := ih (e.1.stop + 1) hm.tail (succ_le hend) hm.succ_le_start
        have hmid : start ≤ e.1.stop + 1 := by
          have hfirst := Offset.le_iff.1 ((hge e List.mem_cons_self).trans hproper)
          rw [Offset.le_iff, toNat_succ hend]
          exact Nat.le_succ_of_le hfirst
        exact .append hmid hgap hfree
          (fun b hstart hlt => hall b hstart (le_of_lt_succ hend hlt)) (hrest.cons hend)

/-- An interval without a covered byte is uncovered as a whole. -/
theorem uncovered_of_free {I : DiscreteInterval} {m : DisjunctiveIntervalMap V} (hm : Ordered m)
    (hI : I.start ≤ I.stop) (hfree : ∀ b ∈ I, ¬ Covers m b) : uncovered I m = [I] := by
  rw [uncovered]
  obtain ⟨hle, -⟩ | ⟨pre, e, es, rfl, -, hover, -⟩ := le_spec hm hI
  · rw [hle]
  · have he : e ∈ pre ++ e :: es := List.mem_append_right pre List.mem_cons_self
    obtain ⟨b, hb, hmem⟩ := (overlaps_iff_exists_mem hI (hm.proper e he)).1 hover
    exact absurd ⟨e, he, hmem⟩ (hfree b hb)

/-- **`uncovered`.** The intervals start in `I` and have no covered byte, and every byte of `I` that
is not covered is in one of them. -/
theorem gaps_uncovered {I : DiscreteInterval} {m : DisjunctiveIntervalMap V} (hm : Ordered m)
    (hI : I.start ≤ I.stop) : Gaps I.start I.stop m (uncovered I m) := by
  rw [uncovered]
  obtain ⟨hle, hnot⟩ | ⟨pre, e, es, rfl, hle, hover, hpre⟩ := le_spec hm hI
  · rw [hle]
    refine ⟨fun J hJ => ?_, fun J hJ b hmem _ => ?_, fun b hstart hstop _ _ => ?_⟩
    · rw [List.mem_singleton.1 hJ]
      exact ⟨le_refl _, hI, hI⟩
    · rw [List.mem_singleton.1 hJ] at hmem
      rintro ⟨e, he, hmem'⟩
      exact hnot e he ⟨hmem'.1.trans hmem.2, hmem.1.trans hmem'.2⟩
    · exact ⟨I, List.mem_singleton_self _, hstart, hstop⟩
  · have hordered : Ordered (e :: es) := hm.right
    -- the entries before it do not reach the interval
    have hcovers : ∀ b, I.start ≤ b → (Covers (pre ++ e :: es) b ↔ Covers (e :: es) b) := by
      intro b hb
      constructor
      · rintro ⟨e', he', hmem⟩
        obtain he' | he' := List.mem_append.1 he'
        · exact absurd (lt_of_le_of_lt hmem.2 (hpre e' he')) (not_lt.2 hb)
        · exact ⟨e', he', hmem⟩
      · rintro ⟨e', he', hmem⟩
        exact ⟨e', List.mem_append_right _ he', hmem⟩
    rw [hle]
    have hgaps : Gaps I.start I.stop (e :: es)
        (if e.1.start < I.start then
          if I.stop ≤ e.1.stop then [] else uncoveredFrom I.stop (e.1.stop + 1) es
        else uncoveredFrom I.stop I.start (e :: es)) := by
      split
      · next hlt =>
          split
          · next hend =>
              refine ⟨nofun, nofun, fun b hstart hstop _ hnot => ?_⟩
              exact absurd ⟨e, List.mem_cons_self, (le_of_lt hlt).trans hstart, hstop.trans hend⟩ hnot
          · next hend =>
              have hend := not_le.1 hend
              have hrest := gaps_uncoveredFrom I.stop (e.1.stop + 1) hordered.tail (succ_le hend)
                hordered.succ_le_start
              -- up to the end of the entry, all is covered
              rw [← List.nil_append (uncoveredFrom I.stop (e.1.stop + 1) es)]
              refine .append ?_ nofun nofun (fun b hstart hstop _ hnot => ?_) (hrest.cons hend)
              · have hreach := Offset.le_iff.1 hover.2
                rw [Offset.le_iff, toNat_succ hend]
                exact Nat.le_succ_of_le hreach
              · exact absurd (covers_cons.2 (Or.inl ⟨(le_of_lt hlt).trans hstart,
                  le_of_lt_succ hend hstop⟩)) hnot
      · next hlt =>
          exact gaps_uncoveredFrom _ _ hordered hI (hordered.le_start (not_lt.1 hlt))
    refine ⟨hgaps.proper, fun J hJ b hmem hb => ?_, fun b hstart hstop hb hnot => ?_⟩
    · rw [hcovers b ((hgaps.proper J hJ).1.trans hmem.1)]
      exact hgaps.free J hJ b hmem hb
    · rw [hcovers b hstart] at hnot
      exact hgaps.all b hstart hstop hb hnot

/-- The scan starts its intervals at bytes that are not covered. -/
theorem not_covers_start_uncoveredFrom (stop : Offset) {m : DisjunctiveIntervalMap V} :
    ∀ (start : Offset), Ordered m → start ≤ stop → (∀ e ∈ m, start ≤ e.1.start) →
      ∀ J ∈ uncoveredFrom stop start m, ¬ Covers m J.start := by
  induction m with
  | nil => exact fun _ _ _ _ _ _ => covers_nil _
  | cons e es ih =>
      intro start hm hle hge J hJ
      have hgaps := gaps_uncoveredFrom stop start hm hle hge
      have hproper := hgaps.proper J hJ
      by_cases hne : J.start = .unknown
      · -- the last offset is only reached behind the last entry
        have hbound := stop.toNat_lt
        have hstop := Offset.le_iff.1 hproper.2.1
        rw [hne, Offset.toNat_unknown] at hstop
        rw [uncoveredFrom] at hJ
        obtain hJ | hJ := List.mem_append.1 hJ
        · split at hJ
          · next hlt =>
              rw [List.mem_singleton.1 hJ] at hne
              have hne : start = .unknown := hne
              rw [hne] at hlt
              exact absurd hlt (Offset.not_unknown_lt _)
          · exact absurd hJ List.not_mem_nil
        · split at hJ
          · exact absurd hJ List.not_mem_nil
          · next hend =>
              have hlt := Offset.lt_iff.1 (not_le.1 hend)
              have hrest := ih (e.1.stop + 1) hm.tail (succ_le (not_le.1 hend)) hm.succ_le_start J hJ
              rw [covers_cons, not_or, DiscreteInterval.mem_iff, hne, Offset.toNat_unknown, ← hne]
              exact ⟨by omega, hrest⟩
      · exact hgaps.free J hJ _ ⟨le_refl _, hproper.2.2⟩ hne

/-- Where the scan finds nothing, its last byte is covered. -/
theorem covers_of_uncoveredFrom_eq_nil {stop : Offset} {m : DisjunctiveIntervalMap V} :
    ∀ {start : Offset}, start ≤ stop → uncoveredFrom stop start m = [] → Covers m stop := by
  induction m with
  | nil =>
      intro start _ hnil
      rw [uncoveredFrom] at hnil
      exact absurd hnil (List.cons_ne_nil _ _)
  | cons e es ih =>
      intro start hle hnil
      rw [uncoveredFrom, List.append_eq_nil_iff] at hnil
      rw [covers_cons]
      split at hnil
      · exact absurd hnil.1 (List.cons_ne_nil _ _)
      · next hlt =>
          by_cases hend : stop ≤ e.1.stop
          · exact Or.inl ⟨(not_lt.1 hlt).trans hle, hend⟩
          · rw [if_neg hend] at hnil
            exact Or.inr (ih (succ_le (not_le.1 hend)) hnil.2)

/-- The intervals of `uncovered` start at bytes that are not covered. -/
theorem not_covers_start_uncovered {I : DiscreteInterval} {m : DisjunctiveIntervalMap V}
    (hm : Ordered m) (hI : I.start ≤ I.stop) {J : DiscreteInterval} (hJ : J ∈ uncovered I m) :
    ¬ Covers m J.start := by
  have hgaps := gaps_uncovered hm hI
  have hproper := hgaps.proper J hJ
  by_cases hne : J.start = .unknown
  · have hbound := I.stop.toNat_lt
    have hstop := Offset.le_iff.1 hproper.2.1
    rw [hne, Offset.toNat_unknown] at hstop
    rw [uncovered] at hJ
    obtain ⟨hle, hnot⟩ | ⟨pre, e, es, rfl, hle, hover, hpre⟩ := le_spec hm hI
    · rw [hle] at hJ
      rintro ⟨e, he, hmem⟩
      obtain rfl := List.mem_singleton.1 hJ
      exact hnot e he ⟨hmem.1.trans hI, hmem.2⟩
    · have hordered : Ordered (e :: es) := hm.right
      have hreach := Offset.le_iff.1 hover.2
      have hbefore : ∀ p ∈ pre, ¬ J.start ∈ p.1 := fun p hp hmem =>
        absurd (lt_of_le_of_lt hmem.2 (hpre p hp)) (not_lt.2 hproper.1)
      have hrest : ¬ Covers (e :: es) J.start := by
        rw [hle] at hJ
        dsimp only at hJ
        split at hJ
        · split at hJ
          · exact absurd hJ List.not_mem_nil
          · next hend =>
              have hlt := Offset.lt_iff.1 (not_le.1 hend)
              rw [covers_cons, not_or, DiscreteInterval.mem_iff, hne, Offset.toNat_unknown, ← hne]
              refine ⟨by omega, ?_⟩
              exact not_covers_start_uncoveredFrom I.stop (e.1.stop + 1) hordered.tail
                (succ_le (not_le.1 hend)) hordered.succ_le_start J hJ
        · next hlt =>
            exact not_covers_start_uncoveredFrom I.stop I.start hordered hI
              (hordered.le_start (not_lt.1 hlt)) J hJ
      rintro ⟨e', he', hmem⟩
      obtain he' | he' := List.mem_append.1 he'
      · exact hbefore e' he' hmem
      · exact hrest ⟨e', he', hmem⟩
  · exact hgaps.free J hJ _ ⟨le_refl _, hproper.2.2⟩ hne

/-- Where `uncovered` finds nothing, all bytes are covered. -/
theorem covers_of_uncovered_eq_nil {I : DiscreteInterval} {m : DisjunctiveIntervalMap V}
    (hm : Ordered m) (hI : I.start ≤ I.stop) (hnil : uncovered I m = []) : ∀ b ∈ I, Covers m b := by
  intro b hb
  by_contra hfree
  by_cases hne : b = .unknown
  · subst hne
    have hbound := I.stop.toNat_lt
    have hstop : I.stop = .unknown := by
      have hle := Offset.le_iff.1 hb.2
      rw [Offset.toNat_unknown] at hle
      rw [Offset.eq_iff, Offset.toNat_unknown]
      omega
    refine hfree ?_
    rw [uncovered] at hnil
    obtain ⟨hle, -⟩ | ⟨pre, e, es, rfl, hle, hover, -⟩ := le_spec hm hI
    · rw [hle] at hnil
      exact absurd hnil (List.cons_ne_nil _ _)
    · rw [hle] at hnil
      dsimp only at hnil
      have hrest : Covers (e :: es) I.stop := by
        rw [covers_cons]
        split at hnil
        · split at hnil
          · next hend => exact Or.inl ⟨hover.1, hend⟩
          · next hend =>
              have hend := Offset.lt_iff.1 (not_le.1 hend)
              have hsucc : (e.1.stop + 1).toNat = e.1.stop.toNat + 1 :=
                Offset.toNat_add_one (by omega)
              refine Or.inr (covers_of_uncoveredFrom_eq_nil ?_ hnil)
              rw [Offset.le_iff, hsucc]
              omega
        · rw [← covers_cons]
          exact covers_of_uncoveredFrom_eq_nil hI hnil
      obtain ⟨e', he', hmem⟩ := hrest
      rw [hstop] at hmem
      exact ⟨e', List.mem_append_right pre he', hmem⟩
  · obtain ⟨J, hJ, -⟩ := (gaps_uncovered hm hI).all b hb.1 hb.2 hne hfree
    rw [hnil] at hJ
    exact List.not_mem_nil hJ

/-! ## Values -/

variable [DecidableEq V]

theorem mem_foldr_union {l : List (Entry V)} {v : V} :
    v ∈ l.foldr (fun e s => e.2 ∪ s) [] ↔ ∃ e ∈ l, v ∈ e.2 := by
  induction l with
  | nil => simp
  | cons e l ih => simp [ih]

omit [DecidableEq V] in
theorem overlaps_iff {I : DiscreteInterval} {e : Entry V} (hI : I.start ≤ I.stop) :
    e.1.overlaps I = true ↔ e.1.start ≤ I.stop := by
  simp only [DiscreteInterval.overlaps, Bool.or_eq_true, Bool.and_eq_true, decide_eq_true_eq]
  exact ⟨fun h => h.elim (fun h => h.1.trans hI) id, Or.inr⟩

/-- **`gather`** finds the values of the entries that overlap the interval. -/
theorem mem_gather {I : DiscreteInterval} {m : DisjunctiveIntervalMap V} (hm : Ordered m)
    (hI : I.start ≤ I.stop) {v : V} : v ∈ gather I m ↔ ∃ e ∈ m, Overlaps I e ∧ v ∈ e.2 := by
  rw [gather]
  rw [mem_foldr_union]
  obtain ⟨hle, hnot⟩ | ⟨pre, e, es, rfl, hle, hover, hpre⟩ := le_spec hm hI
  · rw [hle]
    constructor
    · rintro ⟨e, he, -⟩
      cases he
    · rintro ⟨e, he, hover, -⟩
      exact absurd hover (hnot e he)
  · rw [hle]
    have hlater : ∀ {e : Entry V} {es : List (Entry V)}, Ordered (e :: es) → I.start ≤ e.1.stop →
        ∀ e' ∈ es, I.start ≤ e'.1.stop := by
      intro e es hordered hreach e' he'
      apply hreach.trans
      obtain hsep | hunknown := (List.pairwise_cons.1 hordered.sorted).1 e' he'
      · exact (le_of_lt hsep).trans (hordered.proper e' (List.mem_cons_of_mem e he'))
      · apply le_trans (not_lt.1 (Offset.not_unknown_lt _))
        rw [← hunknown]
        exact hordered.proper e' (List.mem_cons_of_mem e he')
    constructor
    · rintro ⟨e', he', hv⟩
      have hstart : e'.1.start ≤ I.stop :=
        (overlaps_iff hI).1 (List.mem_takeWhile_imp (p := fun e : Entry V => e.1.overlaps I) he')
      have hmem : e' ∈ e :: es := (List.takeWhile_prefix _).subset he'
      refine ⟨e', List.mem_append_right _ hmem, ⟨hstart, ?_⟩, hv⟩
      obtain rfl | hmem := List.mem_cons.1 hmem
      · exact hover.2
      · exact hlater hm.right hover.2 e' hmem
    · rintro ⟨e', he', hover', hv⟩
      refine ⟨e', ?_, hv⟩
      have hmem : e' ∈ e :: es := by
        obtain he' | he' := List.mem_append.1 he'
        · exact absurd (hpre e' he') (not_lt.2 hover'.2)
        · exact he'
      -- the entries before it start before it
      have htake : ∀ {l : List (Entry V)}, Ordered l → e' ∈ l →
          e' ∈ l.takeWhile fun e => e.1.overlaps I := by
        intro l
        induction l with
        | nil => exact fun _ h => h
        | cons a l ih =>
            intro hl he'
            have hstart : a.1.start ≤ I.stop := by
              obtain rfl | he' := List.mem_cons.1 he'
              · exact hover'.1
              · have := hl.start_le he'
                have hover' := Offset.le_iff.1 hover'.1
                rw [Offset.le_iff]
                omega
            rw [List.takeWhile_cons, if_pos ((overlaps_iff hI).2 hstart)]
            obtain rfl | he' := List.mem_cons.1 he'
            · exact List.mem_cons_self
            · exact List.mem_cons_of_mem a (ih hl.tail he')
      exact htake hm.right hmem

/-- What `gather` finds, with offsets. -/
theorem mem_gather_iff {I : DiscreteInterval} {m : DisjunctiveIntervalMap V} (hm : Ordered m)
    (hI : I.start ≤ I.stop) {v : V} : v ∈ gather I m ↔ ∃ b ∈ I, Has m b v := by
  rw [mem_gather hm hI]
  constructor
  · rintro ⟨e, he, hover, hv⟩
    rcases (overlaps_iff_exists_mem hI (hm.proper e he)).1 hover with ⟨b, hb, hmem⟩
    exact ⟨b, hb, e, he, hmem, hv⟩
  · rintro ⟨b, hb, e, he, hmem, hv⟩
    exact ⟨e, he, (overlaps_iff_exists_mem hI (hm.proper e he)).2 ⟨b, hb, hmem⟩, hv⟩

end Cape.DisjunctiveIntervalMap
