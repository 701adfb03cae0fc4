import Cape.ADT.Offset
import Mathlib.Data.List.TakeWhile
import Mathlib.Tactic

/-!
# Maps from intervals

`DisjunctiveIntervalMap`: a sorted list of disjoint intervals of offsets, each with a set of values.
What the operations mean is said with bytes, which are the known offsets: `Has m b v` when an entry
with the value `v` contains the byte `b`. The unknown offset may only end an interval.
-/

set_option autoImplicit false

namespace Cape

universe u

/-- `DiscreteInterval`; both ends belong to it. -/
structure DiscreteInterval where
  start : Offset
  stop : Offset
deriving DecidableEq, Repr

namespace DiscreteInterval

def length (I : DiscreteInterval) : Offset := I.stop - I.start + 1

instance : Membership Offset DiscreteInterval := ⟨fun I b => I.start ≤ b ∧ b ≤ I.stop⟩

instance (I : DiscreteInterval) (b : Offset) : Decidable (b ∈ I) :=
  inferInstanceAs (Decidable (I.start ≤ b ∧ b ≤ I.stop))

theorem mem_iff {I : DiscreteInterval} {b : Offset} :
    b ∈ I ↔ I.start.toNat ≤ b.toNat ∧ b.toNat ≤ I.stop.toNat :=
  and_congr Offset.le_iff Offset.le_iff

/-- `overlaps`. -/
def overlaps (J I : DiscreteInterval) : Bool :=
  (J.start ≤ I.start && I.start ≤ J.stop) || J.start ≤ I.stop

end DiscreteInterval

/-- An interval with its set of values, as a list. -/
abbrev Entry (V : Type u) := DiscreteInterval × List V

/-- The entries, by their starts. -/
abbrev DisjunctiveIntervalMap (V : Type u) := List (Entry V)

namespace DisjunctiveIntervalMap

variable {V : Type u}

section Operations

variable [DecidableEq V]

/-! ## Adding -/

/-- `splitIntervalHint`: the entry as two entries, the first of which ends at `w`. -/
def splitInterval (w : Offset) (e : Entry V) : Entry V × Entry V :=
  ((⟨e.1.start, w⟩, e.2), (⟨w + 1, e.1.stop⟩, e.2))

/-- An entry that starts before `I`, split at the borders of `I` that it contains. -/
def splitPrev (I : DiscreteInterval) (e : Entry V) : List (Entry V) :=
  if I.start ≤ e.1.stop then
    let s := splitInterval (I.start - 1) e
    if I.stop < e.1.stop then
      [s.1, (splitInterval I.stop s.2).1, (splitInterval I.stop s.2).2]
    else [s.1, s.2]
  else [e]

/-- Among the entries that do not start before `I`, the one that contains the end of `I` is split. -/
def splitStop (I : DiscreteInterval) : List (Entry V) → List (Entry V)
  | [] => []
  | e :: rest =>
      if e.1.start ≤ I.stop then
        if I.stop < e.1.stop then
          (splitInterval I.stop e).1 :: (splitInterval I.stop e).2 :: rest
        else e :: splitStop I rest
      else e :: rest

/-- `splitExtBorders`. Of the entries that start before `I` only the last one can reach `I`. -/
def splitExtBorders (I : DiscreteInterval) : List (Entry V) → List (Entry V)
  | [] => []
  | e :: rest =>
      if e.1.start < I.start then splitPrev I e ++ splitExtBorders I rest
      else splitStop I (e :: rest)

/-- `_addValue`. -/
def addValue (v : V) (update : Bool) (values : List V) : List V :=
  if update then [v] else values.insert v

/-- The loop of `_add` over the entries that do not start before the rest of the interval: gaps are
filled, and entries get the value. -/
def fill (v : V) (update : Bool) : DiscreteInterval → List (Entry V) → List (Entry V)
  | rest, [] => [(rest, [v])]
  | rest, e :: es =>
      if rest.stop < e.1.start then (rest, [v]) :: e :: es
      else
        (if rest.start < e.1.start then [(⟨rest.start, e.1.start - 1⟩, [v])] else []) ++
          (e.1, addValue v update e.2) ::
            if e.1.stop = rest.stop then es else fill v update ⟨e.1.stop + 1, rest.stop⟩ es

/-- `_add`. -/
def addOrUpdate (I : DiscreteInterval) (v : V) (update : Bool) (m : DisjunctiveIntervalMap V) :
    DisjunctiveIntervalMap V :=
  let split := splitExtBorders I m
  split.takeWhile (fun e => e.1.start < I.start) ++
    fill v update I (split.dropWhile fun e => e.1.start < I.start)

/-- `add`. -/
def add (I : DiscreteInterval) (v : V) (m : DisjunctiveIntervalMap V) : DisjunctiveIntervalMap V :=
  addOrUpdate I v false m

/-- `update`. -/
def update (I : DiscreteInterval) (v : V) (m : DisjunctiveIntervalMap V) :
    DisjunctiveIntervalMap V :=
  addOrUpdate I v true m

/-! ## Queries -/

omit [DecidableEq V] in
/-- `le`: the entries from the first one that overlaps `I`, none when no entry does. -/
def le (I : DiscreteInterval) (m : DisjunctiveIntervalMap V) : List (Entry V) :=
  let ge := m.dropWhile fun e => e.1.start < I.start
  match (m.takeWhile fun e => e.1.start < I.start).getLast? with
  | some prev =>
      if I.start ≤ prev.1.stop then prev :: ge
      else
        match ge with
        | [] => []
        | e :: _ => if I.stop < e.1.start then [] else ge
  | none =>
      match ge with
      | [] => []
      | e :: _ => if I.stop < e.1.start then [] else ge

/-- `gather`: the values of the entries that overlap `I`. -/
def gather (I : DiscreteInterval) (m : DisjunctiveIntervalMap V) : List V :=
  ((le I m).takeWhile fun e => e.1.overlaps I).foldr (fun e s => e.2 ∪ s) []

/-- The loop of `uncovered` from the byte `start` on. It does not look whether an entry starts after
`stop`. -/
def uncoveredFrom (stop : Offset) : Offset → List (Entry V) → List DiscreteInterval
  | start, [] => [⟨start, stop⟩]
  | start, e :: es =>
      (if start < e.1.start then [⟨start, e.1.start - 1⟩] else []) ++
        if stop ≤ e.1.stop then [] else uncoveredFrom stop (e.1.stop + 1) es

/-- `uncovered`. -/
def uncovered (I : DiscreteInterval) (m : DisjunctiveIntervalMap V) : List DiscreteInterval :=
  match le I m with
  | [] => [I]
  | e :: es =>
      if e.1.start < I.start then
        if I.stop ≤ e.1.stop then []
        else uncoveredFrom I.stop (e.1.stop + 1) es
      else uncoveredFrom I.stop I.start (e :: es)

/-- The values of all entries. -/
def values (m : DisjunctiveIntervalMap V) : List V := m.foldr (fun e s => e.2 ∪ s) []

end Operations

/-! ## Bytes -/

/-- An entry with the value contains the byte. -/
def Has (m : DisjunctiveIntervalMap V) (b : Offset) (v : V) : Prop := ∃ e ∈ m, b ∈ e.1 ∧ v ∈ e.2

/-- An entry contains the byte. -/
def Covers (m : DisjunctiveIntervalMap V) (b : Offset) : Prop := ∃ e ∈ m, b ∈ e.1

/-- The entries are sorted and disjoint; those that have no byte, but only the unknown offset, come
last. -/
structure Ordered (m : DisjunctiveIntervalMap V) : Prop where
  sorted : m.Pairwise fun e e' => e.1.stop < e'.1.start ∨ e'.1.start = .unknown
  proper : ∀ e ∈ m, e.1.start ≤ e.1.stop
  nonempty : ∀ e ∈ m, e.2 ≠ []

theorem Ordered.nil : Ordered ([] : DisjunctiveIntervalMap V) := ⟨.nil, nofun, nofun⟩

theorem Ordered.tail {e : Entry V} {m : DisjunctiveIntervalMap V} (h : Ordered (e :: m)) :
    Ordered m where
  sorted := (List.pairwise_cons.1 h.sorted).2
  proper := fun e' he' => h.proper e' (List.mem_cons_of_mem e he')
  nonempty := fun e' he' => h.nonempty e' (List.mem_cons_of_mem e he')

theorem Ordered.cons {e : Entry V} {m : DisjunctiveIntervalMap V} (hm : Ordered m)
    (hproper : e.1.start ≤ e.1.stop) (hvalues : e.2 ≠ [])
    (h : ∀ e' ∈ m, e.1.stop < e'.1.start ∨ e'.1.start = .unknown) : Ordered (e :: m) where
  sorted := List.pairwise_cons.2 ⟨h, hm.sorted⟩
  proper := by
    intro e' he'
    obtain rfl | he' := List.mem_cons.1 he'
    · exact hproper
    · exact hm.proper e' he'
  nonempty := by
    intro e' he'
    obtain rfl | he' := List.mem_cons.1 he'
    · exact hvalues
    · exact hm.nonempty e' he'

theorem Ordered.append {m m' : DisjunctiveIntervalMap V} (hm : Ordered m) (hm' : Ordered m')
    (h : ∀ e ∈ m, ∀ e' ∈ m', e.1.stop < e'.1.start ∨ e'.1.start = .unknown) :
    Ordered (m ++ m') where
  sorted := List.pairwise_append.2 ⟨hm.sorted, hm'.sorted, h⟩
  proper := fun e he => (List.mem_append.1 he).elim (hm.proper e) (hm'.proper e)
  nonempty := fun e he => (List.mem_append.1 he).elim (hm.nonempty e) (hm'.nonempty e)

/-- Later entries start later. -/
theorem Ordered.start_le {e : Entry V} {m : DisjunctiveIntervalMap V} (h : Ordered (e :: m))
    {e' : Entry V} (he' : e' ∈ m) : e.1.start.toNat ≤ e'.1.start.toNat := by
  have hproper := Offset.le_iff.1 (h.proper e List.mem_cons_self)
  have hlt := e.1.start.toNat_lt
  obtain hsep | hunknown := (List.pairwise_cons.1 h.sorted).1 e' he'
  · have hsep := Offset.lt_iff.1 hsep
    omega
  · rw [hunknown, Offset.toNat_unknown]
    omega

@[simp] theorem has_nil (b : Offset) (v : V) : ¬ Has [] b v := nofun

@[simp] theorem covers_nil (b : Offset) : ¬ Covers ([] : DisjunctiveIntervalMap V) b := nofun

theorem has_cons {e : Entry V} {m : DisjunctiveIntervalMap V} {b : Offset} {v : V} :
    Has (e :: m) b v ↔ (b ∈ e.1 ∧ v ∈ e.2) ∨ Has m b v := by
  simp [Has]

theorem has_append {m m' : DisjunctiveIntervalMap V} {b : Offset} {v : V} :
    Has (m ++ m') b v ↔ Has m b v ∨ Has m' b v := by
  simp only [Has, List.mem_append, or_and_right, exists_or]

theorem covers_cons {e : Entry V} {m : DisjunctiveIntervalMap V} {b : Offset} :
    Covers (e :: m) b ↔ b ∈ e.1 ∨ Covers m b := by
  simp [Covers]

theorem covers_append {m m' : DisjunctiveIntervalMap V} {b : Offset} :
    Covers (m ++ m') b ↔ Covers m b ∨ Covers m' b := by
  simp only [Covers, List.mem_append, or_and_right, exists_or]

theorem Has.covers {m : DisjunctiveIntervalMap V} {b : Offset} {v : V} (h : Has m b v) :
    Covers m b := by
  obtain ⟨e, he, hb, -⟩ := h
  exact ⟨e, he, hb⟩

theorem Ordered.covers_iff {m : DisjunctiveIntervalMap V} (h : Ordered m) {b : Offset} :
    Covers m b ↔ ∃ v, Has m b v := by
  constructor
  · rintro ⟨e, he, hb⟩
    obtain ⟨v, hv⟩ := List.exists_mem_of_ne_nil _ (h.nonempty e he)
    exact ⟨v, e, he, hb, hv⟩
  · rintro ⟨v, hv⟩
    exact hv.covers

/-! ## Splitting -/

/-- The entry does not cross a border of `I`. -/
def Fits (I : DiscreteInterval) (e : Entry V) : Prop :=
  (e.1.start < I.start → e.1.stop < I.start ∨ I.start = .unknown) ∧
    (I.start ≤ e.1.start → e.1.start ≤ I.stop → e.1.stop ≤ I.stop)

/-- The entries `pieces` are the entry `e`, split. -/
structure Pieces (e : Entry V) (pieces : List (Entry V)) : Prop where
  ordered : Ordered pieces
  inside : ∀ p ∈ pieces, e.1.start ≤ p.1.start ∧ p.1.stop ≤ e.1.stop
  has : ∀ b, b ≠ .unknown → ∀ v, Has pieces b v ↔ b ∈ e.1 ∧ v ∈ e.2

theorem Pieces.self {e : Entry V} (h : e.1.start ≤ e.1.stop) (hv : e.2 ≠ []) : Pieces e [e] where
  ordered := Ordered.nil.cons h hv nofun
  inside := by
    intro p hp
    rw [List.mem_singleton.1 hp]
    exact ⟨le_refl _, le_refl _⟩
  has := fun b _ v => by simp [has_cons]

/-- An entry is cut behind the byte `w`. -/
theorem pieces_splitInterval {e : Entry V} {w : Offset} (hstart : e.1.start ≤ w)
    (hstop : w < e.1.stop) (hv : e.2 ≠ []) :
    Pieces e [(splitInterval w e).1, (splitInterval w e).2] := by
  have hstart' := Offset.le_iff.1 hstart
  have hstop' := Offset.lt_iff.1 hstop
  have hbound := e.1.stop.toNat_lt
  have hsucc : (w + 1).toNat = w.toNat + 1 := Offset.toNat_add_one (by omega)
  refine ⟨Ordered.cons (Ordered.nil.cons ?_ hv nofun) hstart hv ?_, ?_, ?_⟩
  · show w + 1 ≤ e.1.stop
    rw [Offset.le_iff, hsucc]
    omega
  · intro e' he'
    rw [List.mem_singleton.1 he']
    left
    show w < w + 1
    rw [Offset.lt_iff, hsucc]
    omega
  · intro p hp
    obtain rfl | hp := List.mem_cons.1 hp
    · exact ⟨le_refl _, le_of_lt hstop⟩
    · rw [List.mem_singleton.1 hp]
      refine ⟨?_, le_refl _⟩
      show e.1.start ≤ w + 1
      rw [Offset.le_iff, hsucc]
      omega
  · intro b _ v
    simp only [has_cons, has_nil, or_false, splitInterval, DiscreteInterval.mem_iff, hsucc]
    constructor
    · rintro (⟨hb, hv⟩ | ⟨hb, hv⟩)
      · exact ⟨⟨hb.1, by omega⟩, hv⟩
      · exact ⟨⟨by omega, hb.2⟩, hv⟩
    · rintro ⟨hb, hv⟩
      by_cases hle : b.toNat ≤ w.toNat
      · exact Or.inl ⟨⟨hb.1, hle⟩, hv⟩
      · exact Or.inr ⟨⟨by omega, hb.2⟩, hv⟩

/-- A piece is split further. -/
theorem Pieces.cons_trans {e p : Entry V} {ps : List (Entry V)} {q : Entry V}
    (h : Pieces e [q, p]) (hp : Pieces p ps) : Pieces e (q :: ps) where
  ordered := by
    have hq := h.ordered.proper q List.mem_cons_self
    have hsep := (List.pairwise_cons.1 h.ordered.sorted).1 p (List.mem_singleton_self p)
    refine hp.ordered.cons hq (h.ordered.nonempty q List.mem_cons_self) fun e' he' => ?_
    have hinside := Offset.le_iff.1 (hp.inside e' he').1
    obtain hsep | hsep := hsep
    · exact Or.inl (lt_of_lt_of_le hsep (hp.inside e' he').1)
    · right
      rw [Offset.eq_iff]
      rw [hsep, Offset.toNat_unknown] at hinside
      have := e'.1.start.toNat_lt
      rw [Offset.toNat_unknown]
      omega
  inside := by
    intro r hr
    have hinside := h.inside p (List.mem_cons_of_mem _ (List.mem_singleton_self p))
    obtain rfl | hr := List.mem_cons.1 hr
    · exact h.inside r List.mem_cons_self
    · exact ⟨hinside.1.trans (hp.inside r hr).1, (hp.inside r hr).2.trans hinside.2⟩
  has := by
    intro b hb v
    rw [← h.has b hb v, has_cons, has_cons, has_cons, hp.has b hb v]
    simp only [has_nil, or_false]

/-- The cut at the unknown offset: nothing is known behind it. -/
theorem pieces_unknown {e : Entry V} (hproper : e.1.start ≤ e.1.stop) (hstop : e.1.stop = .unknown)
    (hv : e.2 ≠ []) :
    Pieces e [(splitInterval .unknown e).1, (splitInterval .unknown e).2] := by
  -- the second piece starts at the unknown offset, where there are no bytes
  have hsucc : Offset.unknown + 1 = .unknown := rfl
  have hfirst : (splitInterval .unknown e).1 = e := by
    rw [splitInterval, ← hstop]
  refine ⟨Ordered.cons (Ordered.nil.cons ?_ hv nofun) ?_ hv ?_, ?_, ?_⟩
  · show Offset.unknown + 1 ≤ e.1.stop
    rw [hsucc, hstop]
  · rw [hfirst]
    exact hproper
  · intro e' he'
    rw [List.mem_singleton.1 he']
    exact Or.inr hsucc
  · intro p hp
    obtain rfl | hp := List.mem_cons.1 hp
    · rw [hfirst]
      exact ⟨le_refl _, le_refl _⟩
    · rw [List.mem_singleton.1 hp]
      refine ⟨?_, le_refl _⟩
      show e.1.start ≤ Offset.unknown + 1
      rw [hsucc, ← hstop]
      exact hproper
  · intro b hb v
    rw [has_cons, hfirst]
    have hnot : ¬ Has [(splitInterval .unknown e).2] b v := by
      rintro ⟨p, hp, hmem, -⟩
      rw [List.mem_singleton.1 hp, DiscreteInterval.mem_iff] at hmem
      have hstart : Offset.unknown.toNat ≤ b.toNat := hmem.1
      rw [Offset.toNat_unknown] at hstart
      rw [Offset.ne_unknown_iff] at hb
      omega
    simp [hnot]

theorem pieces_splitPrev {I : DiscreteInterval} {e : Entry V} (hI : I.start ≤ I.stop)
    (hproper : e.1.start ≤ e.1.stop) (hv : e.2 ≠ []) (hlt : e.1.start < I.start) :
    Pieces e (splitPrev I e) ∧ ∀ p ∈ splitPrev I e, Fits I p := by
  have hlt' := Offset.lt_iff.1 hlt
  have hI' := Offset.le_iff.1 hI
  rw [splitPrev]
  split
  · next hreach =>
      have hreach' := Offset.le_iff.1 hreach
      by_cases hcorner : I.start = .unknown
      · -- the interval is the unknown offset alone
        have hstop : e.1.stop = .unknown := by
          rw [Offset.eq_iff]
          have := e.1.stop.toNat_lt
          rw [hcorner] at hreach'
          rw [Offset.toNat_unknown] at hreach' ⊢
          omega
        have hnot : ¬ I.stop < e.1.stop := by
          rw [Offset.lt_iff, hstop, Offset.toNat_unknown]
          rw [hcorner, Offset.toNat_unknown] at hI'
          omega
        simp only [hnot, if_false, hcorner, Offset.unknown_sub]
        refine ⟨pieces_unknown hproper hstop hv, fun p _ => ⟨fun _ => Or.inr hcorner, ?_⟩⟩
        intro _ _
        rw [Offset.le_iff]
        have := p.1.stop.toNat_lt
        rw [hcorner, Offset.toNat_unknown] at hI'
        omega
      · rw [← Ne, Offset.ne_unknown_iff] at hcorner
        have hpred : (I.start - 1).toNat = I.start.toNat - 1 :=
          Offset.toNat_sub_one hcorner (by omega)
        have hsucc : (I.start - 1 + 1).toNat = I.start.toNat := by
          rw [Offset.toNat_add_one] <;> omega
        have hcut : Pieces e [(splitInterval (I.start - 1) e).1, (splitInterval (I.start - 1) e).2] := by
          apply pieces_splitInterval _ _ hv
          · rw [Offset.le_iff, hpred]
            omega
          · rw [Offset.lt_iff, hpred]
            omega
        have hlow : Fits I (splitInterval (I.start - 1) e).1 := by
          refine ⟨fun _ => Or.inl ?_, fun hge => ?_⟩
          · show I.start - 1 < I.start
            rw [Offset.lt_iff, hpred]
            omega
          · exact absurd hlt (not_lt.2 hge)
        split
        · next hover =>
            have hover' := Offset.lt_iff.1 hover
            have hbound := e.1.stop.toNat_lt
            have hsucc' : (I.stop + 1).toNat = I.stop.toNat + 1 := Offset.toNat_add_one (by omega)
            refine ⟨hcut.cons_trans (pieces_splitInterval ?_ hover hv), ?_⟩
            · show I.start - 1 + 1 ≤ I.stop
              rw [Offset.le_iff, hsucc]
              exact hI'
            · intro p hp
              simp only [List.mem_cons, List.not_mem_nil, or_false] at hp
              obtain rfl | rfl | rfl := hp
              · exact hlow
              · refine ⟨fun h => ?_, fun _ _ => le_refl _⟩
                have h : (I.start - 1 + 1).toNat < I.start.toNat := Offset.lt_iff.1 h
                omega
              · refine ⟨fun h => ?_, fun _ h => ?_⟩
                · have h : (I.stop + 1).toNat < I.start.toNat := Offset.lt_iff.1 h
                  omega
                · have h : (I.stop + 1).toNat ≤ I.stop.toNat := Offset.le_iff.1 h
                  omega
        · next hover =>
            refine ⟨hcut, fun p hp => ?_⟩
            simp only [List.mem_cons, List.not_mem_nil, or_false] at hp
            obtain rfl | rfl := hp
            · exact hlow
            · refine ⟨fun h => ?_, fun _ _ => not_lt.1 hover⟩
              have h : (I.start - 1 + 1).toNat < I.start.toNat := Offset.lt_iff.1 h
              omega
  · next hreach =>
      refine ⟨Pieces.self hproper hv, fun p hp => ?_⟩
      rw [List.mem_singleton.1 hp]
      exact ⟨fun _ => Or.inl (not_le.1 hreach), fun h => absurd hlt (not_lt.2 h)⟩

/-- The entries of `m'` are those of `m`, split. -/
structure Refines (m m' : DisjunctiveIntervalMap V) : Prop where
  ordered : Ordered m'
  inside : ∀ p ∈ m', ∃ e ∈ m, e.1.start ≤ p.1.start ∧ p.1.stop ≤ e.1.stop
  has : ∀ b, b ≠ .unknown → ∀ v, Has m' b v ↔ Has m b v

theorem Refines.refl {m : DisjunctiveIntervalMap V} (h : Ordered m) : Refines m m :=
  ⟨h, fun p hp => ⟨p, hp, le_refl _, le_refl _⟩, fun _ _ _ => Iff.rfl⟩

theorem Refines.cons {e : Entry V} {m m' : DisjunctiveIntervalMap V} {ps : List (Entry V)}
    (hm : Ordered (e :: m)) (hps : Pieces e ps) (h : Refines m m') : Refines (e :: m) (ps ++ m') where
  ordered := by
    apply hps.ordered.append h.ordered
    intro p hp p' hp'
    obtain ⟨e', he', hstart, -⟩ := h.inside p' hp'
    have hstop := (hps.inside p hp).2
    obtain hsep | hunknown := (List.pairwise_cons.1 hm.sorted).1 e' he'
    · exact Or.inl (lt_of_lt_of_le (lt_of_le_of_lt hstop hsep) hstart)
    · right
      rw [hunknown] at hstart
      exact le_antisymm (not_lt.1 (Offset.not_unknown_lt _)) hstart
  inside := by
    intro p hp
    obtain hp | hp := List.mem_append.1 hp
    · exact ⟨e, List.mem_cons_self, hps.inside p hp⟩
    · obtain ⟨e', he', h'⟩ := h.inside p hp
      exact ⟨e', List.mem_cons_of_mem e he', h'⟩
  has := by
    intro b hb v
    rw [has_append, has_cons, hps.has b hb v, h.has b hb v]

theorem refines_splitStop {I : DiscreteInterval} {m : DisjunctiveIntervalMap V} (hm : Ordered m)
    (hge : ∀ e ∈ m, I.start ≤ e.1.start) :
    Refines m (splitStop I m) ∧ ∀ p ∈ splitStop I m, Fits I p := by
  -- what starts behind the interval fits
  have hafter : ∀ (l : List (Entry V)) , (∀ e ∈ l, I.start ≤ e.1.start) →
      (∀ e ∈ l, I.stop < e.1.start) → ∀ p ∈ l, Fits I p := fun l hl hl' p hp =>
    ⟨fun h => absurd (hl p hp) (not_le.2 h), fun _ h => absurd (hl' p hp) (not_lt.2 h)⟩
  induction m with
  | nil => exact ⟨Refines.refl hm, nofun⟩
  | cons e rest ih =>
      have hrest : ∀ e' ∈ rest, I.start ≤ e'.1.start := fun e' he' =>
        hge e' (List.mem_cons_of_mem e he')
      have hproper := hm.proper e List.mem_cons_self
      have hvalues := hm.nonempty e List.mem_cons_self
      have hself : Fits I e ↔ (e.1.start ≤ I.stop → e.1.stop ≤ I.stop) :=
        ⟨fun h => h.2 (hge e List.mem_cons_self),
          fun h => ⟨fun h' => absurd (hge e List.mem_cons_self) (not_le.2 h'), fun _ => h⟩⟩
      rw [splitStop]
      split
      · next hstart =>
          split
          · next hover =>
              have hpieces := pieces_splitInterval hstart hover hvalues
              refine ⟨Refines.cons hm hpieces (Refines.refl hm.tail), fun p hp => ?_⟩
              have hbound := e.1.stop.toNat_lt
              have hover' := Offset.lt_iff.1 hover
              have hsucc : (I.stop + 1).toNat = I.stop.toNat + 1 := Offset.toNat_add_one (by omega)
              obtain rfl | hp := List.mem_cons.1 hp
              · exact ⟨fun h => absurd (hge e List.mem_cons_self) (not_le.2 h), fun _ _ => le_refl _⟩
              · refine hafter _ (fun p hp => ?_) (fun p hp => ?_) p hp
                · obtain rfl | hp := List.mem_cons.1 hp
                  · exact (hge e List.mem_cons_self).trans
                      (hpieces.inside _ (List.mem_cons_of_mem _ (List.mem_singleton_self _))).1
                  · exact hrest p hp
                · obtain rfl | hp := List.mem_cons.1 hp
                  · show I.stop < I.stop + 1
                    rw [Offset.lt_iff, hsucc]
                    omega
                  · obtain hsep | hunknown := (List.pairwise_cons.1 hm.sorted).1 p hp
                    · exact hover.trans hsep
                    · rw [hunknown, Offset.lt_iff, Offset.toNat_unknown]
                      omega
          · next hover =>
              obtain ⟨hrefines, hfits⟩ := ih hm.tail hrest
              refine ⟨Refines.cons hm (Pieces.self hproper hvalues) hrefines, fun p hp => ?_⟩
              obtain rfl | hp := List.mem_cons.1 hp
              · exact hself.2 fun _ => not_lt.1 hover
              · exact hfits p hp
      · next hstart =>
          have hstart' := Offset.lt_iff.1 (not_le.1 hstart)
          refine ⟨Refines.refl hm, hafter _ hge fun p hp => ?_⟩
          obtain rfl | hp := List.mem_cons.1 hp
          · exact not_le.1 hstart
          · have := hm.start_le hp
            rw [Offset.lt_iff]
            omega

theorem refines_splitExtBorders {I : DiscreteInterval} (hI : I.start ≤ I.stop)
    {m : DisjunctiveIntervalMap V} (hm : Ordered m) :
    Refines m (splitExtBorders I m) ∧ ∀ p ∈ splitExtBorders I m, Fits I p := by
  induction m with
  | nil => exact ⟨Refines.refl hm, nofun⟩
  | cons e rest ih =>
      rw [splitExtBorders]
      split
      · next hlt =>
          obtain ⟨hpieces, hfits⟩ := pieces_splitPrev hI (hm.proper e List.mem_cons_self)
            (hm.nonempty e List.mem_cons_self) hlt
          obtain ⟨hrefines, hfits'⟩ := ih hm.tail
          refine ⟨Refines.cons hm hpieces hrefines, fun p hp => ?_⟩
          exact (List.mem_append.1 hp).elim (hfits p) (hfits' p)
      · next hlt =>
          apply refines_splitStop hm
          intro e' he'
          obtain rfl | he' := List.mem_cons.1 he'
          · exact not_lt.1 hlt
          · have hle := Offset.le_iff.1 (not_lt.1 hlt)
            have := hm.start_le he'
            rw [Offset.le_iff]
            omega

/-! ## Filling -/

/-- After `lower_bound`: the entries that do not start before `I`. -/
theorem start_le_of_mem_dropWhile {I : DiscreteInterval} {m : DisjunctiveIntervalMap V}
    (hm : Ordered m) {e : Entry V} (he : e ∈ m.dropWhile fun e => e.1.start < I.start) :
    I.start ≤ e.1.start := by
  induction m with
  | nil => cases he
  | cons e' rest ih =>
      rw [List.dropWhile_cons] at he
      split at he
      · exact ih hm.tail he
      · next hlt =>
          have hle : I.start ≤ e'.1.start := not_lt.1 (by simpa using hlt)
          obtain rfl | he := List.mem_cons.1 he
          · exact hle
          · have hle := Offset.le_iff.1 hle
            have := hm.start_le he
            rw [Offset.le_iff]
            omega

theorem start_lt_of_mem_takeWhile {I : DiscreteInterval} {m : DisjunctiveIntervalMap V}
    {e : Entry V} (he : e ∈ m.takeWhile fun e => e.1.start < I.start) : e.1.start < I.start := by
  simpa using List.mem_takeWhile_imp he

/-- Later entries have later bytes. -/
theorem Ordered.lt_of_has {e : Entry V} {m : DisjunctiveIntervalMap V} (h : Ordered (e :: m))
    {b : Offset} (hb : b ≠ .unknown) (hm : Covers m b) : e.1.stop.toNat < b.toNat := by
  obtain ⟨e', he', hmem⟩ := hm
  rw [DiscreteInterval.mem_iff] at hmem
  rw [Offset.ne_unknown_iff] at hb
  obtain hsep | hunknown := (List.pairwise_cons.1 h.sorted).1 e' he'
  · have hsep := Offset.lt_iff.1 hsep
    omega
  · rw [hunknown, Offset.toNat_unknown] at hmem
    omega

variable [DecidableEq V]

theorem mem_addValue {v w : V} {update : Bool} {values : List V} :
    w ∈ addValue v update values ↔ w = v ∨ (update = false ∧ w ∈ values) := by
  cases update <;> simp [addValue]

/-- What adding or updating a value does to the bytes: those of the interval get the value. -/
def Written (I : DiscreteInterval) (v : V) (update : Bool) (m : DisjunctiveIntervalMap V)
    (b : Offset) (w : V) : Prop :=
  (b ∉ I ∧ Has m b w) ∨ (b ∈ I ∧ (w = v ∨ (update = false ∧ Has m b w)))

/-- The result `l` starts with the interval and has what is written. -/
structure Filled (I : DiscreteInterval) (v : V) (update : Bool) (m l : DisjunctiveIntervalMap V) :
    Prop where
  ordered : Ordered l
  start : ∀ e ∈ l, I.start ≤ e.1.start
  has : ∀ b, b ≠ .unknown → ∀ w, Has l b w ↔ Written I v update m b w

omit [DecidableEq V] in
/-- Nothing overlaps the interval. -/
theorem filled_before {I : DiscreteInterval} (v : V) (update : Bool) {m : DisjunctiveIntervalMap V}
    (hm : Ordered m) (hI : I.start ≤ I.stop) (hafter : ∀ e ∈ m, I.stop < e.1.start) :
    Filled I v update m ((I, [v]) :: m) where
  ordered := hm.cons hI (List.cons_ne_nil v []) fun e he => Or.inl (hafter e he)
  start := by
    intro e he
    obtain rfl | he := List.mem_cons.1 he
    · exact le_refl _
    · exact hI.trans (le_of_lt (hafter e he))
  has := by
    intro b _ w
    have hnot : b ∈ I → ¬ Has m b w := by
      rintro hmem ⟨e, he, hmem', -⟩
      exact absurd (lt_of_lt_of_le (hafter e he) hmem'.1) (not_lt.2 hmem.2)
    rw [has_cons, Written]
    by_cases hmem : b ∈ I
    · simp [hmem, hnot hmem]
    · simp [hmem]

omit [DecidableEq V] in
/-- A gap before the first entry is filled. -/
theorem filled_gap {I : DiscreteInterval} {v : V} {update : Bool} {e : Entry V}
    {m l : DisjunctiveIntervalMap V} (hm : Ordered (e :: m)) (hlt : I.start < e.1.start)
    (hreach : e.1.start ≤ I.stop) (h : Filled ⟨e.1.start, I.stop⟩ v update (e :: m) l) :
    Filled I v update (e :: m) ((⟨I.start, e.1.start - 1⟩, [v]) :: l) := by
  have hlt' := Offset.lt_iff.1 hlt
  have hreach' := Offset.le_iff.1 hreach
  have hbound := e.1.start.toNat_lt
  have hpred : (e.1.start.toNat < 2 ^ 64 - 1 ∧ (e.1.start - 1).toNat = e.1.start.toNat - 1) ∨
      (e.1.start = .unknown ∧ (e.1.start - 1).toNat = 2 ^ 64 - 1) := by
    by_cases h : e.1.start = .unknown
    · right
      rw [h, Offset.unknown_sub, Offset.toNat_unknown]
      exact ⟨rfl, rfl⟩
    · rw [← Ne, Offset.ne_unknown_iff] at h
      exact Or.inl ⟨h, Offset.toNat_sub_one h (by omega)⟩
  have hstart : I.start ≤ e.1.start - 1 := by
    rw [Offset.le_iff]
    omega
  refine ⟨h.ordered.cons hstart (List.cons_ne_nil v []) fun e' he' => ?_, ?_, ?_⟩
  · have hle := Offset.le_iff.1 (h.start e' he')
    have hle : e.1.start.toNat ≤ e'.1.start.toNat := hle
    obtain ⟨-, hpred⟩ | ⟨hunknown, -⟩ := hpred
    · left
      show e.1.start - 1 < e'.1.start
      rw [Offset.lt_iff]
      omega
    · right
      rw [hunknown, Offset.toNat_unknown] at hle
      rw [Offset.eq_iff, Offset.toNat_unknown]
      have := e'.1.start.toNat_lt
      omega
  · intro e' he'
    obtain rfl | he' := List.mem_cons.1 he'
    · exact le_refl _
    · exact (le_of_lt hlt).trans (h.start e' he')
  · intro b hb w
    have hb' := Offset.ne_unknown_iff.1 hb
    -- no entry has a byte in the gap
    have hnot : b.toNat < e.1.start.toNat → ¬ Has (e :: m) b w := by
      rintro hlt ⟨e', he', hmem, -⟩
      rw [DiscreteInterval.mem_iff] at hmem
      obtain rfl | he' := List.mem_cons.1 he'
      · omega
      · have := hm.start_le he'
        omega
    have hgap : b ∈ (⟨I.start, e.1.start - 1⟩ : DiscreteInterval) ↔
        I.start.toNat ≤ b.toNat ∧ b.toNat < e.1.start.toNat := by
      show I.start ≤ b ∧ b ≤ e.1.start - 1 ↔ _
      rw [Offset.le_iff, Offset.le_iff]
      obtain ⟨-, hpred⟩ | ⟨hunknown, hpred⟩ := hpred
      · rw [hpred]
        omega
      · rw [hpred, hunknown, Offset.toNat_unknown]
        omega
    rw [has_cons, h.has b hb w, Written, Written, hgap, List.mem_singleton,
      DiscreteInterval.mem_iff, DiscreteInterval.mem_iff]
    by_cases hbefore : b.toNat < e.1.start.toNat
    · have hnot' : ¬ (e.1.start.toNat ≤ b.toNat ∧ b.toNat ≤ I.stop.toNat) := by omega
      have hiff : I.start.toNat ≤ b.toNat ∧ b.toNat ≤ I.stop.toNat ↔ I.start.toNat ≤ b.toNat := by
        omega
      simp only [hnot hbefore, hnot', hiff, hbefore, and_true, and_false, or_false, false_and,
        false_or]
    · have hiff : I.start.toNat ≤ b.toNat ∧ b.toNat ≤ I.stop.toNat ↔
          e.1.start.toNat ≤ b.toNat ∧ b.toNat ≤ I.stop.toNat := by omega
      simp only [hiff, hbefore, and_false, false_and, false_or]

/-- The first entry starts with the interval and is written; what is behind it follows. -/
theorem filled_entry {I : DiscreteInterval} {v : V} {update : Bool} {e : Entry V}
    {m l : DisjunctiveIntervalMap V} (hm : Ordered (e :: m)) (hstart : e.1.start = I.start)
    (hlt : e.1.stop < I.stop) (h : Filled ⟨e.1.stop + 1, I.stop⟩ v update m l) :
    Filled I v update (e :: m) ((e.1, addValue v update e.2) :: l) := by
  have hlt' := Offset.lt_iff.1 hlt
  have hbound := I.stop.toNat_lt
  have hproper := Offset.le_iff.1 (hm.proper e List.mem_cons_self)
  have hsucc : (e.1.stop + 1).toNat = e.1.stop.toNat + 1 := Offset.toNat_add_one (by omega)
  have hbehind : ∀ e' ∈ l, e.1.stop.toNat < e'.1.start.toNat := by
    intro e' he'
    have hle := Offset.le_iff.1 (h.start e' he')
    have hle : (e.1.stop + 1).toNat ≤ e'.1.start.toNat := hle
    omega
  refine ⟨h.ordered.cons (hm.proper e List.mem_cons_self) (List.ne_nil_of_mem (mem_addValue.2 (Or.inl (Eq.refl v))))
    fun e' he' => Or.inl (Offset.lt_iff.2 (hbehind e' he')), ?_, ?_⟩
  · intro e' he'
    rw [← hstart]
    obtain rfl | he' := List.mem_cons.1 he'
    · exact le_refl _
    · have := hbehind e' he'
      rw [Offset.le_iff]
      omega
  · intro b hb w
    have hbytes : Has m b w → e.1.stop.toNat < b.toNat := fun h => hm.lt_of_has hb h.covers
    rw [has_cons, h.has b hb w, Written, Written, has_cons, mem_addValue, DiscreteInterval.mem_iff,
      DiscreteInterval.mem_iff, DiscreteInterval.mem_iff, hsucc, ← hstart]
    by_cases hle : b.toNat ≤ e.1.stop.toNat
    · -- a byte of the first entry, or one before it
      have hnot : ¬ Has m b w := fun h => by have := hbytes h; omega
      have hnot' : ¬ (e.1.stop.toNat + 1 ≤ b.toNat ∧ b.toNat ≤ I.stop.toNat) := by omega
      have hiff : e.1.start.toNat ≤ b.toNat ∧ b.toNat ≤ I.stop.toNat ↔
          e.1.start.toNat ≤ b.toNat ∧ b.toNat ≤ e.1.stop.toNat := by omega
      simp only [hnot, hnot', hiff, and_false, or_false, false_and]
      by_cases hin : e.1.start.toNat ≤ b.toNat ∧ b.toNat ≤ e.1.stop.toNat
      · simp [hin]
      · simp [hin]
    · have hnot : ¬ (e.1.start.toNat ≤ b.toNat ∧ b.toNat ≤ e.1.stop.toNat) := by omega
      have hiff : e.1.start.toNat ≤ b.toNat ∧ b.toNat ≤ I.stop.toNat ↔
          e.1.stop.toNat + 1 ≤ b.toNat ∧ b.toNat ≤ I.stop.toNat := by omega
      simp only [hnot, hiff, false_and, false_or]

/-- The interval ends with the first entry. -/
theorem filled_last {I : DiscreteInterval} {v : V} {update : Bool} {e : Entry V}
    {m : DisjunctiveIntervalMap V} (hm : Ordered (e :: m)) (h : e.1 = I) :
    Filled I v update (e :: m) ((e.1, addValue v update e.2) :: m) := by
  refine ⟨hm.tail.cons (hm.proper e List.mem_cons_self) (List.ne_nil_of_mem (mem_addValue.2 (Or.inl (Eq.refl v))))
    (List.pairwise_cons.1 hm.sorted).1, ?_, ?_⟩
  · intro e' he'
    rw [← h, Offset.le_iff]
    obtain rfl | he' := List.mem_cons.1 he'
    · exact le_refl _
    · exact hm.start_le he'
  · intro b hb w
    have hbytes : b ∈ I → ¬ Has m b w := by
      intro hmem h'
      have := hm.lt_of_has hb h'.covers
      rw [← h, DiscreteInterval.mem_iff] at hmem
      omega
    rw [has_cons, Written, has_cons, mem_addValue, h]
    by_cases hmem : b ∈ I
    · simp only [hmem, hbytes hmem, true_and, not_true, false_and, or_false, false_or]
    · simp only [hmem, not_false_eq_true, true_and, false_and, false_or, or_false]

theorem filled_fill (v : V) (update : Bool) {m : DisjunctiveIntervalMap V} :
    ∀ {I : DiscreteInterval}, Ordered m → I.start ≤ I.stop → (∀ e ∈ m, I.start ≤ e.1.start) →
      (∀ e ∈ m, Fits I e) → Filled I v update m (fill v update I m) := by
  induction m with
  | nil => exact fun hm hI _ _ => filled_before v update hm hI nofun
  | cons e es ih =>
      intro I hm hI hge hfits
      have hstart := hge e List.mem_cons_self
      rw [fill]
      split
      · next hafter =>
          apply filled_before v update hm hI
          intro e' he'
          obtain rfl | he' := List.mem_cons.1 he'
          · exact hafter
          · have hafter := Offset.lt_iff.1 hafter
            have := hm.start_le he'
            rw [Offset.lt_iff]
            omega
      · next hafter =>
          have hreach : e.1.start ≤ I.stop := not_lt.1 hafter
          have hstop : e.1.stop ≤ I.stop := (hfits e List.mem_cons_self).2 hstart hreach
          -- from the entry on
          have hrest : Filled ⟨e.1.start, I.stop⟩ v update (e :: es) ((e.1, addValue v update e.2) ::
              if e.1.stop = I.stop then es else fill v update ⟨e.1.stop + 1, I.stop⟩ es) := by
            split
            · next heq => exact filled_last hm (by rw [← heq])
            · next hne =>
                have hlt : e.1.stop < I.stop := lt_of_le_of_ne hstop hne
                have hlt' := Offset.lt_iff.1 hlt
                have hbound := I.stop.toNat_lt
                have hsucc : (e.1.stop + 1).toNat = e.1.stop.toNat + 1 :=
                  Offset.toNat_add_one (by omega)
                have hge' : ∀ e' ∈ es, e.1.stop + 1 ≤ e'.1.start := by
                  intro e' he'
                  rw [Offset.le_iff, hsucc]
                  obtain hsep | hunknown := (List.pairwise_cons.1 hm.sorted).1 e' he'
                  · exact Offset.lt_iff.1 hsep
                  · rw [hunknown, Offset.toNat_unknown]
                    omega
                apply filled_entry (I := ⟨e.1.start, I.stop⟩) hm rfl hlt
                apply ih hm.tail _ hge'
                · intro e' he'
                  exact ⟨fun h => absurd (hge' e' he') (not_le.2 h), fun _ =>
                    (hfits e' (List.mem_cons_of_mem e he')).2 (hge e' (List.mem_cons_of_mem e he'))⟩
                · show e.1.stop + 1 ≤ I.stop
                  rw [Offset.le_iff, hsucc]
                  omega
          split
          · next hgap => exact filled_gap hm hgap hreach hrest
          · next hgap =>
              have heq : e.1.start = I.start := le_antisymm (not_lt.1 hgap) hstart
              rw [heq] at hrest
              exact hrest

/-- **Adding or updating a value.** -/
theorem addOrUpdate_spec {I : DiscreteInterval} (hI : I.start ≤ I.stop) (v : V) (update : Bool)
    {m : DisjunctiveIntervalMap V} (hm : Ordered m) :
    Ordered (addOrUpdate I v update m) ∧ ∀ b, b ≠ .unknown → ∀ w,
      Has (addOrUpdate I v update m) b w ↔ Written I v update m b w := by
  obtain ⟨hrefines, hfits⟩ := refines_splitExtBorders hI hm
  let before := (splitExtBorders I m).takeWhile fun e => e.1.start < I.start
  let ge := (splitExtBorders I m).dropWhile fun e => e.1.start < I.start
  have hsplit : before ++ ge = splitExtBorders I m := List.takeWhile_append_dropWhile
  have hordered : Ordered (before ++ ge) := hsplit ▸ hrefines.ordered
  have hbefore : Ordered before := ⟨(List.pairwise_append.1 hordered.sorted).1,
    fun e he => hordered.proper e (List.mem_append_left _ he),
    fun e he => hordered.nonempty e (List.mem_append_left _ he)⟩
  have hge : Ordered ge := ⟨(List.pairwise_append.1 hordered.sorted).2.1,
    fun e he => hordered.proper e (List.mem_append_right _ he),
    fun e he => hordered.nonempty e (List.mem_append_right _ he)⟩
  have hfilled : Filled I v update ge (fill v update I ge) :=
    filled_fill v update hge hI (fun e he => start_le_of_mem_dropWhile hrefines.ordered he)
      fun e he => hfits e (hsplit ▸ List.mem_append_right _ he)
  -- what comes before does not reach the interval
  have hleft : ∀ e ∈ before, e.1.stop < I.start ∨ I.start = .unknown := fun e he =>
    (hfits e (hsplit ▸ List.mem_append_left _ he)).1 (start_lt_of_mem_takeWhile he)
  constructor
  · apply hbefore.append hfilled.ordered
    intro e he e' he'
    obtain hlt | hunknown := hleft e he
    · exact Or.inl (lt_of_lt_of_le hlt (hfilled.start e' he'))
    · right
      have hle := hfilled.start e' he'
      rw [hunknown] at hle
      exact le_antisymm (not_lt.1 (Offset.not_unknown_lt _)) hle
  · intro b hb w
    have hnot : b ∈ I → ¬ Has before b w := by
      rintro hmem ⟨e, he, hmem', -⟩
      obtain hlt | hunknown := hleft e he
      · exact absurd (lt_of_le_of_lt hmem'.2 hlt) (not_lt.2 hmem.1)
      · have hle := Offset.le_iff.1 hmem.1
        rw [hunknown, Offset.toNat_unknown] at hle
        rw [Offset.ne_unknown_iff] at hb
        omega
    show Has (before ++ fill v update I ge) b w ↔ _
    have hhas := hrefines.has b hb w
    rw [← hsplit, has_append] at hhas
    rw [has_append, hfilled.has b hb w, Written, Written, ← hhas]
    by_cases hmem : b ∈ I
    · simp only [hmem, hnot hmem, not_true, false_and, false_or, true_and]
    · simp only [hmem, not_false_eq_true, true_and, false_and, or_false]

theorem Ordered.add {I : DiscreteInterval} (hI : I.start ≤ I.stop) (v : V)
    {m : DisjunctiveIntervalMap V} (hm : Ordered m) : Ordered (add I v m) :=
  (addOrUpdate_spec hI v false hm).1

theorem has_add {I : DiscreteInterval} (hI : I.start ≤ I.stop) (v : V)
    {m : DisjunctiveIntervalMap V} (hm : Ordered m) {b : Offset} (hb : b ≠ .unknown) (w : V) :
    Has (add I v m) b w ↔ Has m b w ∨ (b ∈ I ∧ w = v) := by
  rw [add, (addOrUpdate_spec hI v false hm).2 b hb w, Written]
  by_cases hmem : b ∈ I
  · simp only [hmem, not_true, false_and, false_or, true_and, or_comm]
  · simp only [hmem, not_false_eq_true, true_and, false_and, or_false]

theorem Ordered.update {I : DiscreteInterval} (hI : I.start ≤ I.stop) (v : V)
    {m : DisjunctiveIntervalMap V} (hm : Ordered m) : Ordered (update I v m) :=
  (addOrUpdate_spec hI v true hm).1

theorem has_update {I : DiscreteInterval} (hI : I.start ≤ I.stop) (v : V)
    {m : DisjunctiveIntervalMap V} (hm : Ordered m) {b : Offset} (hb : b ≠ .unknown) (w : V) :
    Has (update I v m) b w ↔ (b ∉ I ∧ Has m b w) ∨ (b ∈ I ∧ w = v) := by
  rw [DisjunctiveIntervalMap.update, (addOrUpdate_spec hI v true hm).2 b hb w, Written]
  simp only [Bool.true_eq_false, false_and, or_false]

end DisjunctiveIntervalMap

end Cape
