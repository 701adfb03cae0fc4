import Cape.ADT.DisjunctiveIntervalMap
import Cape.Library.Reporting

/-!
# Runs of additions and updates

A call of `add` or `update` gives the new map and the report whether the stored mapping changed.
`run_exact`: after any calls on intervals with known ends the keys are disjoint, the next call
writes exactly the bytes of its interval, and it reports exactly the changes.
-/

set_option autoImplicit false

namespace Cape.DisjunctiveIntervalMap

open Cape.Library

universe u

variable {V : Type u}

/-! ## Reports -/

section Reports

variable [DecidableEq V]

/-- What `_addValue` returns. -/
def addValueReports (v : V) (update : Bool) (values : List V) : Bool :=
  if update then !(values.length == 1 && values.contains v) else !values.contains v

omit [DecidableEq V] in
/-- `splitStop` splits an entry. -/
def splitStopReports (I : DiscreteInterval) : List (Entry V) → Bool
  | [] => false
  | e :: rest =>
      if e.1.start ≤ I.stop then
        if I.stop < e.1.stop then true else splitStopReports I rest
      else false

omit [DecidableEq V] in
/-- What `splitExtBorders` returns. -/
def splitExtBordersReports (I : DiscreteInterval) : List (Entry V) → Bool
  | [] => false
  | e :: rest =>
      if e.1.start < I.start then
        decide (I.start ≤ e.1.stop) || splitExtBordersReports I rest
      else splitStopReports I (e :: rest)

/-- What the loop of `_add` adds to the report: gaps that are filled, and sets that change. -/
def fillReports (v : V) (update : Bool) : DiscreteInterval → List (Entry V) → Bool
  | _, [] => true
  | rest, e :: es =>
      if rest.stop < e.1.start then true
      else
        decide (rest.start < e.1.start) || addValueReports v update e.2 ||
          if e.1.stop = rest.stop then false else fillReports v update ⟨e.1.stop + 1, rest.stop⟩ es

/-- What `_add` returns. -/
def addOrUpdateReports (I : DiscreteInterval) (v : V) (update : Bool)
    (m : DisjunctiveIntervalMap V) : Bool :=
  splitExtBordersReports I m ||
    fillReports v update I ((splitExtBorders I m).dropWhile fun e => e.1.start < I.start)

/-- A call of `add` or `update` with a single value, on an interval whose ends are known. -/
structure Call (V : Type u) where
  interval : DiscreteInterval
  value : V
  update : Bool
  proper : interval.start ≤ interval.stop
  known : interval.stop < .unknown

/-- The map after the call, and what the call returns. -/
def Call.step (c : Call V) : Step (DisjunctiveIntervalMap V) := fun m =>
  (addOrUpdate c.interval c.value c.update m, addOrUpdateReports c.interval c.value c.update m)

/-- The map after the calls. -/
def run (calls : List (Call V)) : DisjunctiveIntervalMap V := (Step.each Call.step calls []).1

end Reports

/-! ## The stored mapping -/

/-- The keys are disjoint intervals, in order. -/
structure KeysDisjoint (m : DisjunctiveIntervalMap V) : Prop where
  disjoint : m.Pairwise fun e e' => e.1.stop < e'.1.start
  proper : ∀ e ∈ m, e.1.start ≤ e.1.stop

/-- The values of a byte. -/
def valuesAt (m : DisjunctiveIntervalMap V) (b : Offset) : Set V := {v | Has m b v}

/-- The keys and their sets. -/
def stored [DecidableEq V] (m : DisjunctiveIntervalMap V) : List (DiscreteInterval × Finset V) :=
  m.map fun e => (e.1, e.2.toFinset)

/-- What the calls keep: no entry reaches the unknown offset, and a set has an element once. -/
structure Regular (m : DisjunctiveIntervalMap V) : Prop where
  ordered : Ordered m
  known : ∀ e ∈ m, e.1.stop < .unknown
  nodup : ∀ e ∈ m, e.2.Nodup

theorem Regular.keysDisjoint {m : DisjunctiveIntervalMap V} (h : Regular m) : KeysDisjoint m where
  disjoint := by
    apply h.ordered.sorted.imp_of_mem
    intro e e' _ he' hsep
    -- an entry that starts at the unknown offset would end there
    refine hsep.resolve_right fun hunknown => ?_
    have hlt := lt_of_le_of_lt (h.ordered.proper e' he') (h.known e' he')
    rw [hunknown] at hlt
    exact absurd hlt (lt_irrefl _)
  proper := h.ordered.proper

variable [DecidableEq V]

@[simp] theorem stored_nil : stored ([] : DisjunctiveIntervalMap V) = [] := rfl

@[simp] theorem stored_cons (e : Entry V) (m : DisjunctiveIntervalMap V) :
    stored (e :: m) = (e.1, e.2.toFinset) :: stored m := rfl

@[simp] theorem stored_append (m m' : DisjunctiveIntervalMap V) :
    stored (m ++ m') = stored m ++ stored m' := List.map_append

@[simp] theorem length_stored (m : DisjunctiveIntervalMap V) : (stored m).length = m.length :=
  List.length_map _

theorem addValueReports_iff {v : V} {update : Bool} {values : List V} (h : values.Nodup) :
    addValueReports v update values = true ↔
      (addValue v update values).toFinset ≠ values.toFinset := by
  cases update with
  | false => by_cases hv : v ∈ values <;> simp [addValueReports, addValue, hv]
  | true =>
      have hset : ({v} : Finset V) = values.toFinset ↔ values.length = 1 ∧ v ∈ values := by
        rw [← List.toFinset_card_of_nodup h, Finset.card_eq_one]
        constructor
        · intro heq
          rw [← heq, ← List.mem_toFinset, ← heq]
          exact ⟨⟨v, rfl⟩, Finset.mem_singleton_self v⟩
        · rintro ⟨⟨w, hw⟩, hv⟩
          rw [← List.mem_toFinset, hw, Finset.mem_singleton] at hv
          rw [hw, hv]
      simp [addValueReports, addValue, hset, imp_iff_not_or]

theorem length_le_length_fill (v : V) (update : Bool) (m : DisjunctiveIntervalMap V) :
    ∀ I, m.length ≤ (fill v update I m).length := by
  induction m with
  | nil => simp
  | cons e es ih =>
      intro I
      have hrest := ih ⟨e.1.stop + 1, I.stop⟩
      rw [fill]
      split_ifs <;> simp <;> omega

/-- The loop reports exactly the changes. -/
theorem fillReports_iff {v : V} {update : Bool} {m : DisjunctiveIntervalMap V}
    (h : ∀ e ∈ m, e.2.Nodup) :
    ∀ I, fillReports v update I m = true ↔ stored (fill v update I m) ≠ stored m := by
  induction m with
  | nil => simp [fillReports, fill]
  | cons e es ih =>
      intro I
      have hset : addValueReports v update e.2 = true ↔
          (addValue v update e.2).toFinset ≠ e.2.toFinset :=
        addValueReports_iff (h e List.mem_cons_self)
      have hrest := ih (fun e' he' => h e' (List.mem_cons_of_mem e he')) ⟨e.1.stop + 1, I.stop⟩
      have hlength := length_le_length_fill v update es ⟨e.1.stop + 1, I.stop⟩
      rw [fillReports, fill]
      split
      · -- a new entry makes the list longer
        refine iff_of_true rfl fun heq => ?_
        simpa using congrArg List.length heq
      · by_cases hgap : I.start < e.1.start
        · refine iff_of_true (by simp [hgap]) fun heq => ?_
          have heq := congrArg List.length heq
          rw [if_pos hgap] at heq
          split at heq
          · simp at heq
          · simp only [length_stored, List.cons_append, List.nil_append, List.length_cons] at heq
            omega
        · by_cases hlast : e.1.stop = I.stop
          · simp [hgap, hlast, hset]
          · simp [hgap, hlast, hset, hrest, imp_iff_not_or]

omit [DecidableEq V] in
/-- A split makes the list longer; without one it stays. -/
theorem splitStop_cases (I : DiscreteInterval) (m : DisjunctiveIntervalMap V) :
    (splitStopReports I m = false ∧ splitStop I m = m) ∨
      (splitStopReports I m = true ∧ m.length < (splitStop I m).length) := by
  induction m with
  | nil => exact Or.inl ⟨rfl, rfl⟩
  | cons e rest ih =>
      rw [splitStopReports, splitStop]
      split
      · split
        · exact Or.inr ⟨rfl, by simp⟩
        · rcases ih with ⟨hreport, heq⟩ | ⟨hreport, hlt⟩
          · exact Or.inl ⟨hreport, by rw [heq]⟩
          · exact Or.inr ⟨hreport, by simpa using hlt⟩
      · exact Or.inl ⟨rfl, rfl⟩

omit [DecidableEq V] in
theorem splitExtBorders_cases (I : DiscreteInterval) (m : DisjunctiveIntervalMap V) :
    (splitExtBordersReports I m = false ∧ splitExtBorders I m = m) ∨
      (splitExtBordersReports I m = true ∧ m.length < (splitExtBorders I m).length) := by
  induction m with
  | nil => exact Or.inl ⟨rfl, rfl⟩
  | cons e rest ih =>
      rw [splitExtBordersReports, splitExtBorders]
      split
      · have hle : rest.length ≤ (splitExtBorders I rest).length := by
          rcases ih with ⟨-, heq⟩ | ⟨-, hlt⟩
          · rw [heq]
          · exact hlt.le
        by_cases hreach : I.start ≤ e.1.stop
        · refine Or.inr ⟨by simp [hreach], ?_⟩
          rw [splitPrev, if_pos hreach]
          split_ifs <;> (simp; omega)
        · rw [splitPrev, if_neg hreach]
          rcases ih with ⟨hreport, heq⟩ | ⟨hreport, hlt⟩
          · exact Or.inl ⟨by simp [hreach, hreport], by simp [heq]⟩
          · exact Or.inr ⟨by simp [hreport], by simpa using hlt⟩
      · exact splitStop_cases I (e :: rest)

/-- **What `_add` returns**: whether the stored mapping changed. -/
theorem addOrUpdateReports_iff {I : DiscreteInterval} {v : V} {update : Bool}
    {m : DisjunctiveIntervalMap V} (h : ∀ e ∈ m, e.2.Nodup) :
    addOrUpdateReports I v update m = true ↔ stored (addOrUpdate I v update m) ≠ stored m := by
  unfold addOrUpdateReports addOrUpdate
  dsimp only
  rcases splitExtBorders_cases I m with ⟨hreport, heq⟩ | ⟨hreport, hlt⟩
  · rw [hreport, heq, Bool.false_or]
    have hnodup : ∀ e ∈ m.dropWhile (fun e => e.1.start < I.start), e.2.Nodup :=
      fun e he => h e ((List.dropWhile_suffix _).subset he)
    have hm : m.takeWhile (fun e => e.1.start < I.start) ++
        m.dropWhile (fun e => e.1.start < I.start) = m := List.takeWhile_append_dropWhile
    conv_rhs => rhs; rhs; rw [← hm]
    rw [fillReports_iff hnodup, stored_append, stored_append, Ne, Ne, List.append_cancel_left_eq]
  · -- filling does not undo the split
    refine iff_of_true (by rw [hreport, Bool.true_or]) fun heq => ?_
    have heq := congrArg List.length heq
    have hsplit := congrArg List.length (List.takeWhile_append_dropWhile
      (p := fun e : Entry V => decide (e.1.start < I.start)) (l := splitExtBorders I m))
    have hfill := length_le_length_fill v update
      ((splitExtBorders I m).dropWhile fun e => e.1.start < I.start) I
    simp only [length_stored, List.length_append] at heq hsplit
    omega

/-! ## The invariant of the calls -/

omit [DecidableEq V] in
/-- A split copies the sets. -/
theorem mem_splitExtBorders {I : DiscreteInterval} {m : DisjunctiveIntervalMap V} {p : Entry V}
    (hp : p ∈ splitExtBorders I m) : ∃ e ∈ m, p.2 = e.2 := by
  -- after the entry of the first border the other border may split one more
  have hstop : ∀ {l : List (Entry V)}, p ∈ splitStop I l → ∃ e ∈ l, p.2 = e.2 := by
    intro l
    induction l with
    | nil => exact nofun
    | cons e rest ih =>
        intro hp
        rw [splitStop] at hp
        split_ifs at hp
        · simp only [List.mem_cons] at hp
          rcases hp with rfl | rfl | hp
          · exact ⟨e, List.mem_cons_self, rfl⟩
          · exact ⟨e, List.mem_cons_self, rfl⟩
          · exact ⟨p, List.mem_cons_of_mem e hp, rfl⟩
        · rcases List.mem_cons.1 hp with rfl | hp
          · exact ⟨p, List.mem_cons_self, rfl⟩
          · obtain ⟨e', he', heq⟩ := ih hp
            exact ⟨e', List.mem_cons_of_mem e he', heq⟩
        · exact ⟨p, hp, rfl⟩
  induction m with
  | nil => cases hp
  | cons e rest ih =>
      rw [splitExtBorders] at hp
      split at hp
      · rcases List.mem_append.1 hp with hp | hp
        · refine ⟨e, List.mem_cons_self, ?_⟩
          rw [splitPrev] at hp
          split_ifs at hp <;> simp only [List.mem_cons, List.not_mem_nil, or_false] at hp
          · rcases hp with rfl | rfl | rfl <;> rfl
          · rcases hp with rfl | rfl <;> rfl
          · rw [hp]
        · obtain ⟨e', he', heq⟩ := ih hp
          exact ⟨e', List.mem_cons_of_mem e he', heq⟩
      · exact hstop hp

/-- What the loop stores: a set is new, or it was there before the value was added. -/
theorem mem_fill {v : V} {update : Bool} {m : DisjunctiveIntervalMap V} {p : Entry V} :
    ∀ {I : DiscreteInterval}, I.stop < .unknown → (∀ e ∈ m, e.1.stop < .unknown) →
      p ∈ fill v update I m → p.1.stop < .unknown ∧
        (p.2 = [v] ∨ ∃ e ∈ m, p.2 = e.2 ∨ p.2 = addValue v update e.2) := by
  induction m with
  | nil =>
      intro I hI _ hp
      rw [List.mem_singleton.1 hp]
      exact ⟨hI, Or.inl rfl⟩
  | cons e es ih =>
      intro I hI hm hp
      have hes : p ∈ es → p.1.stop < .unknown ∧
          (p.2 = [v] ∨ ∃ e' ∈ e :: es, p.2 = e'.2 ∨ p.2 = addValue v update e'.2) := fun hp =>
        ⟨hm p (List.mem_cons_of_mem e hp), Or.inr ⟨p, List.mem_cons_of_mem e hp, Or.inl rfl⟩⟩
      rw [fill] at hp
      split at hp
      · rcases List.mem_cons.1 hp with rfl | hp
        · exact ⟨hI, Or.inl rfl⟩
        · rcases List.mem_cons.1 hp with rfl | hp
          · exact ⟨hm p List.mem_cons_self, Or.inr ⟨p, List.mem_cons_self, Or.inl rfl⟩⟩
          · exact hes hp
      · next hafter =>
          simp only [List.mem_append, List.mem_cons] at hp
          rcases hp with hp | rfl | hp
          · -- the gap ends before an entry that starts in the interval
            split at hp
            · next hlt =>
                rw [List.mem_singleton.1 hp]
                refine ⟨?_, Or.inl rfl⟩
                have hlt := Offset.lt_iff.1 hlt
                have hreach := Offset.le_iff.1 (not_lt.1 hafter)
                have hI := Offset.lt_iff.1 hI
                rw [Offset.toNat_unknown] at hI
                rw [Offset.lt_iff, Offset.toNat_unknown, Offset.toNat_sub_one] <;> omega
            · cases hp
          · exact ⟨hm e List.mem_cons_self, Or.inr ⟨e, List.mem_cons_self, Or.inr rfl⟩⟩
          · split at hp
            · exact hes hp
            · obtain ⟨hstop, h | ⟨e', he', h⟩⟩ :=
                ih (I := ⟨e.1.stop + 1, I.stop⟩) hI (fun e' he' => hm e' (List.mem_cons_of_mem e he')) hp
              · exact ⟨hstop, Or.inl h⟩
              · exact ⟨hstop, Or.inr ⟨e', List.mem_cons_of_mem e he', h⟩⟩

theorem nodup_addValue {v : V} {update : Bool} {values : List V} (h : values.Nodup) :
    (addValue v update values).Nodup := by
  cases update with
  | false => exact h.insert
  | true => exact List.nodup_singleton v

/-- A call keeps the invariant. -/
theorem Regular.step {m : DisjunctiveIntervalMap V} (h : Regular m) (c : Call V) :
    Regular (c.step m).1 := by
  have hrefines := (refines_splitExtBorders c.proper h.ordered).1
  have hknown : ∀ p ∈ splitExtBorders c.interval m, p.1.stop < .unknown := fun p hp => by
    obtain ⟨e, he, -, hle⟩ := hrefines.inside p hp
    exact lt_of_le_of_lt hle (h.known e he)
  have hnodup : ∀ p ∈ splitExtBorders c.interval m, p.2.Nodup := fun p hp => by
    obtain ⟨e, he, heq⟩ := mem_splitExtBorders hp
    exact heq ▸ h.nodup e he
  have hge : ∀ p ∈ (splitExtBorders c.interval m).dropWhile
      (fun e => e.1.start < c.interval.start), p ∈ splitExtBorders c.interval m :=
    fun p hp => (List.dropWhile_suffix _).subset hp
  have hbefore : ∀ p ∈ (splitExtBorders c.interval m).takeWhile
      (fun e => e.1.start < c.interval.start), p ∈ splitExtBorders c.interval m :=
    fun p hp => (List.takeWhile_prefix _).subset hp
  refine ⟨(addOrUpdate_spec c.proper c.value c.update h.ordered).1, fun p hp => ?_, fun p hp => ?_⟩
  · rcases List.mem_append.1 hp with hp | hp
    · exact hknown p (hbefore p hp)
    · exact (mem_fill c.known (fun e he => hknown e (hge e he)) hp).1
  · rcases List.mem_append.1 hp with hp | hp
    · exact hnodup p (hbefore p hp)
    · obtain ⟨-, heq | ⟨e, he, heq | heq⟩⟩ := mem_fill c.known (fun e he => hknown e (hge e he)) hp
      · exact heq ▸ List.nodup_singleton _
      · exact heq ▸ hnodup e (hge e he)
      · exact heq ▸ nodup_addValue (hnodup e (hge e he))

omit [DecidableEq V] in
theorem Regular.nil : Regular ([] : DisjunctiveIntervalMap V) := ⟨.nil, nofun, nofun⟩

theorem Regular.each {m : DisjunctiveIntervalMap V} (h : Regular m) (calls : List (Call V)) :
    Regular (Step.each Call.step calls m).1 := by
  induction calls generalizing m with
  | nil => exact h
  | cons c calls ih => exact ih (h.step c)

omit [DecidableEq V] in
/-- No entry contains the unknown offset. -/
theorem Regular.not_has_unknown {m : DisjunctiveIntervalMap V} (h : Regular m) (v : V) :
    ¬ Has m .unknown v := by
  rintro ⟨e, he, hmem, -⟩
  exact absurd (h.known e he) (not_lt.2 hmem.2)

/-- The values of a byte after a call. -/
theorem valuesAt_step {m : DisjunctiveIntervalMap V} (h : Regular m) (c : Call V) (b : Offset) :
    valuesAt (c.step m).1 b =
      if b ∈ c.interval then
        if c.update then {c.value} else insert c.value (valuesAt m b)
      else valuesAt m b := by
  ext w
  by_cases hb : b = .unknown
  · -- the interval ends before the unknown offset, as all entries do
    subst hb
    have hnot : Offset.unknown ∉ c.interval := fun hmem => absurd c.known (not_lt.2 hmem.2)
    rw [if_neg hnot]
    exact iff_of_false ((h.step c).not_has_unknown w) (h.not_has_unknown w)
  · have hspec := (addOrUpdate_spec c.proper c.value c.update h.ordered).2 b hb w
    show Has (addOrUpdate c.interval c.value c.update m) b w ↔ _
    rw [hspec, Written]
    by_cases hmem : b ∈ c.interval <;> cases hupdate : c.update <;> simp [hmem, valuesAt]

/-- **Additions and updates** with single values on intervals whose ends are known. After any calls
the keys are disjoint; the next call writes the bytes of its interval, leaves all others, and
returns whether the stored mapping changed. -/
theorem run_exact (calls : List (Call V)) (c : Call V) :
    KeysDisjoint (run calls) ∧ KeysDisjoint (c.step (run calls)).1 ∧
      (∀ b, valuesAt (c.step (run calls)).1 b =
        if b ∈ c.interval then
          if c.update then {c.value} else insert c.value (valuesAt (run calls) b)
        else valuesAt (run calls) b) ∧
      ((c.step (run calls)).2 = true ↔ stored (c.step (run calls)).1 ≠ stored (run calls)) := by
  have hregular : Regular (run calls) := Regular.nil.each calls
  refine ⟨hregular.keysDisjoint, (hregular.step c).keysDisjoint, valuesAt_step hregular c, ?_⟩
  exact addOrUpdateReports_iff hregular.nodup

end Cape.DisjunctiveIntervalMap
