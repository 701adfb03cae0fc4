import Cape.ADT.IntervalCoverage
import Cape.ADT.IntervalContainers

/-!
# The intersection of two maps

`intersection` keeps a cursor into the first map while it goes over the second one. Nothing moves
the cursor: it stays at the first entry, and the inner loop does not end when this entry ends before
an entry of the other map (`intersection_eq_some_iff`). `intersectionRight_iff`: the result is the
intersection exactly when the first entry is all that the intersection needs.
-/

set_option autoImplicit false

namespace Cape.DisjunctiveIntervalMap

universe u

variable {V : Type u}

/-! ## The loops -/

/-- The inner loop, which waits for an entry that does not end before `start`. The body returns when
the cursor is at the end, and does not move it. No result: the cursor is read at the end, or the fuel
is used up. -/
def skip (start : Offset) : Nat → List (Entry V) → Option (List (Entry V))
  | 0, _ => none
  | _ + 1, [] => none
  | fuel + 1, e :: es => if e.1.stop < start then skip start fuel (e :: es) else some (e :: es)

variable [DecidableEq V]

/-- The step of the outer loop for the entry `r`, where the cursor is at `e`. -/
def meet (e r : Entry V) (tmp : DisjunctiveIntervalMap V) : DisjunctiveIntervalMap V :=
  if e.1.overlaps r.1 then
    addValues ⟨max e.1.start r.1.start, min e.1.stop r.1.stop⟩ (e.2 ∩ r.2) tmp
  else tmp

/-- The loop over the entries of the other map, with the cursor `it`. -/
def intersectionLoop (fuel : Nat) : List (Entry V) → DisjunctiveIntervalMap V → List (Entry V) →
    Option (DisjunctiveIntervalMap V)
  | _, tmp, [] => some tmp
  | it, tmp, r :: rhs =>
      match skip r.1.start fuel it with
      | none => none
      | some [] => none
      | some (e :: es) => intersectionLoop fuel (e :: es) (meet e r tmp) rhs

/-- `intersection`. -/
def intersection (fuel : Nat) (m rhs : DisjunctiveIntervalMap V) :
    Option (DisjunctiveIntervalMap V) := intersectionLoop fuel m [] rhs

omit [DecidableEq V] in
/-- The inner loop ends at once or never. -/
theorem skip_eq_some_iff {start : Offset} {fuel : Nat} {it it' : List (Entry V)} :
    skip start fuel it = some it' ↔
      ∃ e es, it = e :: es ∧ it' = e :: es ∧ start ≤ e.1.stop ∧ 0 < fuel := by
  constructor
  · induction fuel with
    | zero => nofun
    | succ fuel ih =>
        intro h
        cases it with
        | nil => cases h
        | cons e es =>
            rw [skip] at h
            split at h
            · -- the same state again
              next hlt =>
                rcases ih h with ⟨e', es', heq, -, hle, -⟩
                obtain rfl := (List.cons.inj heq).1
                exact absurd hlt (not_lt.2 hle)
            · next hle =>
                exact ⟨e, es, rfl, (Option.some.inj h).symm, not_lt.1 hle, Nat.succ_pos fuel⟩
  · rintro ⟨e, es, rfl, rfl, hle, hfuel⟩
    cases fuel with
    | zero => cases hfuel
    | succ fuel => rw [skip, if_neg (not_lt.2 hle)]

/-- With the cursor at `e` the outer loop ends if no entry starts behind it. -/
theorem intersectionLoop_cons {fuel : Nat} {e : Entry V} {es : List (Entry V)}
    {rhs : List (Entry V)} :
    ∀ {tmp C : DisjunctiveIntervalMap V}, rhs ≠ [] →
      (intersectionLoop fuel (e :: es) tmp rhs = some C ↔
        0 < fuel ∧ (∀ r ∈ rhs, r.1.start ≤ e.1.stop) ∧
          rhs.foldl (fun tmp r => meet e r tmp) tmp = C) := by
  induction rhs with
  | nil => exact fun h => absurd rfl h
  | cons r rhs ih =>
      intro tmp C _
      rw [intersectionLoop]
      by_cases hskip : skip r.1.start fuel (e :: es) = some (e :: es)
      · rw [hskip]
        dsimp only
        rcases skip_eq_some_iff.1 hskip with ⟨e', es', heq, -, hle, hfuel⟩
        obtain rfl := (List.cons.inj heq).1
        cases rhs with
        | nil =>
            rw [intersectionLoop]
            simp [hle, hfuel]
        | cons r' rhs =>
            rw [ih (List.cons_ne_nil r' rhs), List.forall_mem_cons (l := r' :: rhs), and_iff_right hle,
              List.foldl_cons (l := r' :: rhs)]
      · have hnone : skip r.1.start fuel (e :: es) = none := by
          cases h : skip r.1.start fuel (e :: es) with
          | none => rfl
          | some it' =>
              rcases skip_eq_some_iff.1 h with ⟨e', es', heq, rfl, -, -⟩
              rw [← heq] at h
              exact absurd h hskip
        rw [hnone]
        refine iff_of_false nofun ?_
        rintro ⟨hfuel, hall, -⟩
        exact hskip (skip_eq_some_iff.2 ⟨e, es, rfl, rfl, hall r List.mem_cons_self, hfuel⟩)

/-- **The intersection ends** if the other map is empty, or if there is a first entry and no entry
of the other map starts behind it. -/
theorem intersection_eq_some_iff {fuel : Nat} {m rhs C : DisjunctiveIntervalMap V} :
    intersection fuel m rhs = some C ↔
      (rhs = [] ∧ C = []) ∨ (rhs ≠ [] ∧ 0 < fuel ∧ ∃ e es, m = e :: es ∧
        (∀ r ∈ rhs, r.1.start ≤ e.1.stop) ∧ rhs.foldl (fun tmp r => meet e r tmp) [] = C) := by
  rw [intersection]
  by_cases hrhs : rhs = []
  · subst hrhs
    rw [intersectionLoop]
    simp [eq_comm]
  · simp only [hrhs, false_and, false_or, ne_eq, not_false_eq_true, true_and]
    cases m with
    | nil =>
        -- the end of the empty map is read
        refine iff_of_false ?_ ?_
        · cases rhs with
          | nil => exact absurd rfl hrhs
          | cons r rhs =>
              rw [intersectionLoop]
              cases hskip : skip r.1.start fuel ([] : List (Entry V)) with
              | none => nofun
              | some it' =>
                  rcases skip_eq_some_iff.1 hskip with ⟨e, es, heq, -⟩
                  cases heq
        · rintro ⟨-, e, es, heq, -⟩
          cases heq
    | cons e es =>
        rw [intersectionLoop_cons hrhs]
        refine and_congr_right fun _ => ?_
        constructor
        · rintro ⟨hall, hC⟩
          exact ⟨e, es, rfl, hall, hC⟩
        · rintro ⟨e', es', heq, hall, hC⟩
          obtain rfl := (List.cons.inj heq).1
          exact ⟨hall, hC⟩

/-! ## Adding behind all entries -/

omit [DecidableEq V] in
theorem splitExtBorders_append {I : DiscreteInterval} {m l : DisjunctiveIntervalMap V}
    (hm : ∀ p ∈ m, p.1.start < I.start ∧ p.1.stop < I.start) :
    splitExtBorders I (m ++ l) = m ++ splitExtBorders I l := by
  induction m with
  | nil => rfl
  | cons p m ih =>
      have hp := hm p List.mem_cons_self
      rw [List.cons_append, splitExtBorders, if_pos hp.1, splitPrev, if_neg (not_le.2 hp.2),
        ih fun p' hp' => hm p' (List.mem_cons_of_mem p hp')]
      rfl

theorem addOrUpdate_append {I : DiscreteInterval} {v : V} {update : Bool}
    {m l : DisjunctiveIntervalMap V} (hm : ∀ p ∈ m, p.1.start < I.start ∧ p.1.stop < I.start) :
    addOrUpdate I v update (m ++ l) = m ++ addOrUpdate I v update l := by
  have hstart : ∀ p ∈ m, decide (p.1.start < I.start) = true := fun p hp =>
    decide_eq_true (hm p hp).1
  rw [addOrUpdate, splitExtBorders_append hm]
  rw [List.takeWhile_append_of_pos hstart, List.dropWhile_append_of_pos hstart, List.append_assoc]
  rfl

/-- The values get an entry of their own, if there are any. -/
theorem addValues_behind {I : DiscreteInterval} (hI : I.start ≤ I.stop) {vals : List V}
    (hvals : vals ≠ []) {m : DisjunctiveIntervalMap V}
    (hm : ∀ p ∈ m, p.1.start < I.start ∧ p.1.stop < I.start) :
    ∃ ws, addValues I vals m = m ++ [(I, ws)] ∧ ∀ w, w ∈ ws ↔ w ∈ vals := by
  induction vals using List.reverseRecOn with
  | nil => exact absurd rfl hvals
  | append_singleton vals v ih =>
      have hstep : addValues I (vals ++ [v]) m = add I v (addValues I vals m) := by
        rw [addValues, List.foldl_append]
        rfl
      by_cases hnil : vals = []
      · -- the first value makes the entry
        subst hnil
        refine ⟨[v], ?_, fun w => by simp⟩
        rw [hstep]
        have h : add I v (m ++ []) = m ++ add I v [] := addOrUpdate_append hm
        rw [List.append_nil] at h
        exact h
      · -- the others come into it
        rcases ih hnil with ⟨ws, heq, hws⟩
        refine ⟨ws.insert v, ?_, fun w => ?_⟩
        · rw [hstep, heq, add, addOrUpdate_append hm, addOrUpdate]
          simp [splitExtBorders, splitStop, fill, hI, addValue]
        · rw [List.mem_insert_iff, hws w, List.mem_append, List.mem_singleton, or_comm]

/-! ## What the loop collects -/

/-- The step for an entry `r`: the bytes and the values that the entries have in common. -/
theorem meet_cases {e r : Entry V} (he : e.1.start ≤ e.1.stop) (hr : r.1.start ≤ r.1.stop)
    (hreach : r.1.start ≤ e.1.stop) {tmp : DisjunctiveIntervalMap V}
    (htmp : ∀ p ∈ tmp, p.1.start ≤ p.1.stop ∧ p.1.stop < r.1.start) :
    (meet e r tmp = tmp ∧ ¬ ((∃ b ∈ e.1, b ∈ r.1) ∧ ∃ v ∈ e.2, v ∈ r.2)) ∨
      ∃ K ws, meet e r tmp = tmp ++ [(K, ws)] ∧ (∀ b, b ∈ K ↔ b ∈ e.1 ∧ b ∈ r.1) ∧
        K.start ≤ K.stop ∧ K.stop ≤ r.1.stop ∧ ws ≠ [] ∧ ∀ v, v ∈ ws ↔ v ∈ e.2 ∧ v ∈ r.2 := by
  rw [meet]
  have hoverlaps : e.1.overlaps r.1 = true ↔ e.1.start ≤ r.1.stop := overlaps_iff hr
  by_cases hover : e.1.start ≤ r.1.stop
  · rw [if_pos (hoverlaps.2 hover)]
    by_cases hvals : e.2 ∩ r.2 = []
    · -- no value, no entry
      left
      rw [hvals]
      refine ⟨rfl, ?_⟩
      rintro ⟨-, v, hv, hv'⟩
      have hmem : v ∈ e.2 ∩ r.2 := List.mem_inter_iff.2 ⟨hv, hv'⟩
      rw [hvals] at hmem
      cases hmem
    · right
      have hproper : max e.1.start r.1.start ≤ min e.1.stop r.1.stop :=
        max_le (le_min he hover) (le_min hreach hr)
      have hbehind : ∀ p ∈ tmp, p.1.start < max e.1.start r.1.start ∧
          p.1.stop < max e.1.start r.1.start := by
        intro p hp
        have hlt := lt_max_of_lt_right (b := e.1.start) (htmp p hp).2
        exact ⟨lt_of_le_of_lt (htmp p hp).1 hlt, hlt⟩
      rcases addValues_behind (I := ⟨max e.1.start r.1.start, min e.1.stop r.1.stop⟩) hproper hvals
        hbehind with ⟨ws, heq, hws⟩
      refine ⟨_, ws, heq, fun b => ?_, hproper, min_le_right _ _, ?_, fun v => ?_⟩
      · show max e.1.start r.1.start ≤ b ∧ b ≤ min e.1.stop r.1.stop ↔
          (e.1.start ≤ b ∧ b ≤ e.1.stop) ∧ r.1.start ≤ b ∧ b ≤ r.1.stop
        rw [max_le_iff, le_min_iff]
        exact and_and_and_comm
      · rintro rfl
        apply hvals
        exact List.eq_nil_iff_forall_not_mem.2 fun v hv => List.not_mem_nil ((hws v).2 hv)
      · rw [hws, List.mem_inter_iff]
  · -- the entry of the other map ends before this one
    left
    rw [if_neg fun h => hover (hoverlaps.1 h)]
    refine ⟨rfl, ?_⟩
    rintro ⟨⟨b, hb, hb'⟩, -⟩
    exact hover (hb.1.trans hb'.2)

/-- What the loop has collected at the end. -/
theorem has_foldl_meet {e : Entry V} (he : e.1.start ≤ e.1.stop) {rhs : List (Entry V)} :
    ∀ {tmp : DisjunctiveIntervalMap V}, KeysDisjoint rhs → (∀ r ∈ rhs, r.1.start ≤ e.1.stop) →
      (∀ p ∈ tmp, p.1.start ≤ p.1.stop ∧ ∀ r ∈ rhs, p.1.stop < r.1.start) → ∀ b,
        (Covers (rhs.foldl (fun tmp r => meet e r tmp) tmp) b ↔
          Covers tmp b ∨ ∃ r ∈ rhs, (b ∈ e.1 ∧ b ∈ r.1) ∧ ∃ v ∈ e.2, v ∈ r.2) ∧
        ∀ v, Has (rhs.foldl (fun tmp r => meet e r tmp) tmp) b v ↔
          Has tmp b v ∨ ∃ r ∈ rhs, (b ∈ e.1 ∧ b ∈ r.1) ∧ v ∈ e.2 ∧ v ∈ r.2 := by
  induction rhs with
  | nil =>
      intro tmp _ _ _ b
      simp
  | cons r rhs ih =>
      intro tmp hrhs hreach htmp b
      have hr := hrhs.proper r List.mem_cons_self
      have hlater : ∀ r' ∈ rhs, r.1.stop < r'.1.start := (List.pairwise_cons.1 hrhs.disjoint).1
      have hkeeps : ∀ p ∈ tmp, p.1.start ≤ p.1.stop ∧ ∀ r' ∈ rhs, p.1.stop < r'.1.start := by
        intro p hp
        exact ⟨(htmp p hp).1, fun r' hr' => (htmp p hp).2 r' (List.mem_cons_of_mem r hr')⟩
      have hrest := fun r' hr' => hreach r' (List.mem_cons_of_mem r hr')
      rw [List.foldl_cons]
      rcases meet_cases he hr (hreach r List.mem_cons_self) fun p hp =>
          ⟨(htmp p hp).1, (htmp p hp).2 r List.mem_cons_self⟩ with
        ⟨heq, hnone⟩ | ⟨K, ws, heq, hK, hproper, hstop, hne, hws⟩
      · rcases ih hrhs.tail hrest hkeeps b with ⟨hcov, hhas⟩
        rw [heq]
        constructor
        · rw [hcov, List.exists_mem_cons_iff]
          refine or_congr_right (or_iff_right ?_).symm
          rintro ⟨⟨hb, hb'⟩, hv⟩
          exact hnone ⟨⟨b, hb, hb'⟩, hv⟩
        · intro v
          rw [hhas v, List.exists_mem_cons_iff]
          refine or_congr_right (or_iff_right ?_).symm
          rintro ⟨⟨hb, hb'⟩, hv, hv'⟩
          exact hnone ⟨⟨b, hb, hb'⟩, v, hv, hv'⟩
      · -- the new entry ends before the entries to come
        have hnew : ∀ p ∈ tmp ++ [(K, ws)], p.1.start ≤ p.1.stop ∧
            ∀ r' ∈ rhs, p.1.stop < r'.1.start := by
          intro p hp
          rcases List.mem_append.1 hp with hp | hp
          · exact hkeeps p hp
          · rw [List.mem_singleton.1 hp]
            exact ⟨hproper, fun r' hr' => lt_of_le_of_lt hstop (hlater r' hr')⟩
        have hvalue : (∃ v ∈ e.2, v ∈ r.2) ↔ True := by
          rcases List.exists_mem_of_ne_nil ws hne with ⟨v, hv⟩
          exact iff_true_intro ⟨v, ((hws v).1 hv).1, ((hws v).1 hv).2⟩
        rcases ih hrhs.tail hrest hnew b with ⟨hcov, hhas⟩
        rw [heq]
        constructor
        · rw [hcov, List.exists_mem_cons_iff, hvalue, and_true, ← hK b, covers_append, or_assoc]
          simp [covers_cons]
        · intro v
          rw [hhas v, List.exists_mem_cons_iff, ← hK b, ← hws v, has_append, or_assoc]
          simp [has_cons]

/-- The entries that the loop makes are in order. -/
theorem keysDisjoint_foldl_meet {e : Entry V} (he : e.1.start ≤ e.1.stop) {rhs : List (Entry V)} :
    ∀ {tmp : DisjunctiveIntervalMap V}, KeysDisjoint rhs → (∀ r ∈ rhs, r.1.start ≤ e.1.stop) →
      KeysDisjoint tmp → (∀ p ∈ tmp, p.2 ≠ [] ∧ ∀ r ∈ rhs, p.1.stop < r.1.start) →
        KeysDisjoint (rhs.foldl (fun tmp r => meet e r tmp) tmp) ∧
          ∀ p ∈ rhs.foldl (fun tmp r => meet e r tmp) tmp, p.2 ≠ [] := by
  induction rhs with
  | nil => exact fun _ _ hdisjoint htmp => ⟨hdisjoint, fun p hp => (htmp p hp).1⟩
  | cons r rhs ih =>
      intro tmp hrhs hreach hdisjoint htmp
      have hr := hrhs.proper r List.mem_cons_self
      have hlater : ∀ r' ∈ rhs, r.1.stop < r'.1.start := (List.pairwise_cons.1 hrhs.disjoint).1
      have hkeeps : ∀ p ∈ tmp, p.2 ≠ [] ∧ ∀ r' ∈ rhs, p.1.stop < r'.1.start := by
        intro p hp
        exact ⟨(htmp p hp).1, fun r' hr' => (htmp p hp).2 r' (List.mem_cons_of_mem r hr')⟩
      have hrest := fun r' hr' => hreach r' (List.mem_cons_of_mem r hr')
      rw [List.foldl_cons]
      rcases meet_cases he hr (hreach r List.mem_cons_self) fun p hp =>
          ⟨hdisjoint.proper p hp, (htmp p hp).2 r List.mem_cons_self⟩ with
        ⟨heq, -⟩ | ⟨K, ws, heq, hK, hproper, hstop, hne, -⟩
      · rw [heq]
        exact ih hrhs.tail hrest hdisjoint hkeeps
      · rw [heq]
        -- the new entry starts in `r`, behind all entries so far
        have hstart : r.1.start ≤ K.start := ((hK K.start).1 ⟨le_refl _, hproper⟩).2.1
        apply ih hrhs.tail hrest
        · constructor
          case disjoint =>
            refine List.pairwise_append.2 ⟨hdisjoint.disjoint, List.pairwise_singleton _ _, ?_⟩
            intro p hp q hq
            rw [List.mem_singleton.1 hq]
            exact lt_of_lt_of_le ((htmp p hp).2 r List.mem_cons_self) hstart
          case proper =>
            intro p hp
            rcases List.mem_append.1 hp with hp | hp
            · exact hdisjoint.proper p hp
            · rw [List.mem_singleton.1 hp]
              exact hproper
        · intro p hp
          rcases List.mem_append.1 hp with hp | hp
          · exact hkeeps p hp
          · rw [List.mem_singleton.1 hp]
            exact ⟨hne, fun r' hr' => lt_of_le_of_lt hstop (hlater r' hr')⟩

theorem keysDisjoint_intersection {fuel : Nat} {m rhs C : DisjunctiveIntervalMap V}
    (hm : ∀ e ∈ m, e.1.start ≤ e.1.stop) (hrhs : KeysDisjoint rhs)
    (h : intersection fuel m rhs = some C) : KeysDisjoint C ∧ ∀ p ∈ C, p.2 ≠ [] := by
  rcases intersection_eq_some_iff.1 h with ⟨-, rfl⟩ | ⟨-, -, e, es, rfl, hreach, rfl⟩
  · exact ⟨⟨.nil, nofun⟩, nofun⟩
  · exact keysDisjoint_foldl_meet (hm e List.mem_cons_self) hrhs hreach ⟨.nil, nofun⟩ nofun

theorem ordered_foldl_meet {e : Entry V} (he : e.1.start ≤ e.1.stop) {rhs tmp : List (Entry V)}
    (hrhs : ∀ r ∈ rhs, r.1.start ≤ r.1.stop) (hreach : ∀ r ∈ rhs, r.1.start ≤ e.1.stop)
    (htmp : Ordered tmp) : Ordered (rhs.foldl (fun tmp r => meet e r tmp) tmp) := by
  induction rhs generalizing tmp with
  | nil => exact htmp
  | cons r rhs ih =>
      apply ih (fun r' hr' => hrhs r' (List.mem_cons_of_mem r hr'))
        (fun r' hr' => hreach r' (List.mem_cons_of_mem r hr'))
      show Ordered (meet e r tmp)
      rw [meet]
      split
      · next hover =>
          -- what the two have in common is an interval
          have hr := hrhs r List.mem_cons_self
          have hover := (overlaps_iff hr).1 hover
          apply htmp.addValues
          exact max_le (le_min he hover) (le_min (hreach r List.mem_cons_self) hr)
      · exact htmp

/-- The result can be added to another map, whatever the order of the entries. -/
theorem ordered_intersection {fuel : Nat} {m rhs C : DisjunctiveIntervalMap V}
    (hm : ∀ e ∈ m, e.1.start ≤ e.1.stop) (hrhs : ∀ r ∈ rhs, r.1.start ≤ r.1.stop)
    (h : intersection fuel m rhs = some C) : Ordered C := by
  rcases intersection_eq_some_iff.1 h with ⟨-, rfl⟩ | ⟨-, -, e, es, rfl, hreach, rfl⟩
  · exact .nil
  · exact ordered_foldl_meet (hm e List.mem_cons_self) hrhs hreach .nil

/-- Any fuel is enough. -/
theorem intersection_one {fuel : Nat} {m rhs C : DisjunctiveIntervalMap V}
    (h : intersection fuel m rhs = some C) : intersection 1 m rhs = some C := by
  rw [intersection_eq_some_iff] at h ⊢
  rcases h with h | ⟨hrhs, -, h⟩
  · exact Or.inl h
  · exact Or.inr ⟨hrhs, Nat.one_pos, h⟩

/-- Entries that come one behind the other are added as they are. -/
theorem has_addMap_behind {elems : DisjunctiveIntervalMap V} :
    ∀ {m : DisjunctiveIntervalMap V}, KeysDisjoint elems → (∀ e ∈ elems, e.2 ≠ []) →
      (∀ p ∈ m, p.1.start ≤ p.1.stop ∧ ∀ e ∈ elems, p.1.stop < e.1.start) → ∀ b,
        (Covers (addMap elems m) b ↔ Covers m b ∨ Covers elems b) ∧
          ∀ v, Has (addMap elems m) b v ↔ Has m b v ∨ Has elems b v := by
  induction elems with
  | nil =>
      intro m _ _ _ b
      simp [addMap]
  | cons e elems ih =>
      intro m helems hne hm b
      have he := helems.proper e List.mem_cons_self
      have hlater : ∀ e' ∈ elems, e.1.stop < e'.1.start := (List.pairwise_cons.1 helems.disjoint).1
      have hbehind : ∀ p ∈ m, p.1.start < e.1.start ∧ p.1.stop < e.1.start := by
        intro p hp
        have hlt := (hm p hp).2 e List.mem_cons_self
        exact ⟨lt_of_le_of_lt (hm p hp).1 hlt, hlt⟩
      rcases addValues_behind he (hne e List.mem_cons_self) hbehind with ⟨ws, heq, hws⟩
      have hstep : addMap (e :: elems) m = addMap elems (m ++ [(e.1, ws)]) := by
        rw [← heq]
        rfl
      -- the entries that follow are behind the new one as well
      have hnew : ∀ p ∈ m ++ [(e.1, ws)], p.1.start ≤ p.1.stop ∧
          ∀ e' ∈ elems, p.1.stop < e'.1.start := by
        intro p hp
        rcases List.mem_append.1 hp with hp | hp
        · exact ⟨(hm p hp).1, fun e' he' => (hm p hp).2 e' (List.mem_cons_of_mem e he')⟩
        · rw [List.mem_singleton.1 hp]
          exact ⟨he, hlater⟩
      rcases ih helems.tail (fun e' he' => hne e' (List.mem_cons_of_mem e he')) hnew b with
        ⟨hcov, hhas⟩
      rw [hstep]
      constructor
      · rw [hcov, covers_append, covers_cons, or_assoc]
        simp [covers_cons]
      · intro v
        rw [hhas v, has_append, has_cons, or_assoc]
        simp [has_cons, hws]

/-! ## When the result is right -/

omit [DecidableEq V] in
/-- A byte is in one entry only. -/
theorem KeysDisjoint.eq_of_mem {m : DisjunctiveIntervalMap V} (hm : KeysDisjoint m) {e e' : Entry V}
    (he : e ∈ m) (he' : e' ∈ m) {b : Offset} (hb : b ∈ e.1) (hb' : b ∈ e'.1) : e = e' := by
  induction m with
  | nil => cases he
  | cons a m ih =>
      have hlater : ∀ e' ∈ m, b ∈ a.1 → b ∉ e'.1 := by
        intro e' he' hba hbe
        have hlt := (List.pairwise_cons.1 hm.disjoint).1 e' he'
        exact absurd (lt_of_le_of_lt hba.2 hlt) (not_lt.2 hbe.1)
      rcases List.mem_cons.1 he with heq | hin
      · rcases List.mem_cons.1 he' with heq' | hin'
        · rw [heq, heq']
        · exact absurd hb' (hlater e' hin' (heq ▸ hb))
      · rcases List.mem_cons.1 he' with heq' | hin'
        · exact absurd hb (hlater e hin (heq' ▸ hb'))
        · exact ih hm.tail hin hin'

/-- The intersection ends, and each byte of the result has the values that it has in both maps. -/
def IntersectionRight (m rhs : DisjunctiveIntervalMap V) : Prop :=
  ∃ fuel C, intersection fuel m rhs = some C ∧ ∀ b,
    (Covers C b ↔ Covers m b ∧ Covers rhs b) ∧ ∀ v, Has C b v ↔ Has m b v ∧ Has rhs b v

/-- The intersection needs no more than the first entry: no entry of the other map starts behind it
or reaches the second one, and those that share a byte with it share a value. -/
def FirstSuffices (m rhs : DisjunctiveIntervalMap V) : Prop :=
  rhs = [] ∨ ∃ e es, m = e :: es ∧ ∀ r ∈ rhs, r.1.start ≤ e.1.stop ∧
    (∀ e' ∈ es, r.1.stop < e'.1.start) ∧ ((∃ b ∈ e.1, b ∈ r.1) → ∃ v ∈ e.2, v ∈ r.2)

/-- What the loop collects, starting from nothing. -/
theorem intersection_spec {e : Entry V} {es : List (Entry V)} {rhs : DisjunctiveIntervalMap V}
    (hm : KeysDisjoint (e :: es)) (hrhs : KeysDisjoint rhs)
    (hreach : ∀ r ∈ rhs, r.1.start ≤ e.1.stop) (b : Offset) :
    (Covers (rhs.foldl (fun tmp r => meet e r tmp) []) b ↔
        ∃ r ∈ rhs, (b ∈ e.1 ∧ b ∈ r.1) ∧ ∃ v ∈ e.2, v ∈ r.2) ∧
      ∀ v, Has (rhs.foldl (fun tmp r => meet e r tmp) []) b v ↔
        ∃ r ∈ rhs, (b ∈ e.1 ∧ b ∈ r.1) ∧ v ∈ e.2 ∧ v ∈ r.2 := by
  have hnone : ∀ p ∈ ([] : DisjunctiveIntervalMap V),
      p.1.start ≤ p.1.stop ∧ ∀ r ∈ rhs, p.1.stop < r.1.start := nofun
  have h := has_foldl_meet (hm.proper e List.mem_cons_self) hrhs hreach hnone b
  simpa using h

/-- **The intersection is right** if and only if the first entry suffices. -/
theorem rightIntersection_iff {m rhs : DisjunctiveIntervalMap V} (hm : KeysDisjoint m)
    (hrhs : KeysDisjoint rhs) : IntersectionRight m rhs ↔ FirstSuffices m rhs := by
  constructor
  · rintro ⟨fuel, C, hends, hC⟩
    rcases intersection_eq_some_iff.1 hends with ⟨hnil, -⟩ | ⟨-, -, e, es, rfl, hreach, rfl⟩
    · exact Or.inl hnil
    · refine Or.inr ⟨e, es, rfl, fun r hr => ⟨hreach r hr, fun e' he' => ?_, ?_⟩⟩
      · -- a byte of a later entry is not in the result
        by_contra hlt
        have hbyte : e'.1.start ∈ r.1 := by
          have hsep := (List.pairwise_cons.1 hm.disjoint).1 e' he'
          exact ⟨(hreach r hr).trans hsep.le, not_lt.1 hlt⟩
        have hproper := hm.proper e' (List.mem_cons_of_mem e he')
        have hcov := (hC e'.1.start).1.2
          ⟨⟨e', List.mem_cons_of_mem e he', le_refl _, hproper⟩, r, hr, hbyte⟩
        rcases (intersection_spec hm hrhs hreach _).1.1 hcov with ⟨-, -, ⟨hmem, -⟩, -⟩
        have hsep := (List.pairwise_cons.1 hm.disjoint).1 e' he'
        exact absurd hmem.2 (not_le.2 hsep)
      · -- the entry that has the byte in the other map is the one that gave it a value
        rintro ⟨b, hb, hb'⟩
        have hcov := (hC b).1.2 ⟨⟨e, List.mem_cons_self, hb⟩, r, hr, hb'⟩
        rcases (intersection_spec hm hrhs hreach b).1.1 hcov with ⟨r', hr', ⟨-, hmem⟩, hv⟩
        obtain rfl := hrhs.eq_of_mem hr hr' hb' hmem
        exact hv
  · rintro (rfl | ⟨e, es, rfl, hall⟩)
    · refine ⟨0, [], rfl, fun b => ?_⟩
      simp
    · by_cases hnil : rhs = []
      · subst hnil
        refine ⟨0, [], rfl, fun b => ?_⟩
        simp
      have hreach := fun r hr => (hall r hr).1
      have hends := intersection_eq_some_iff.2
        (Or.inr ⟨hnil, Nat.one_pos, e, es, rfl, hreach, rfl⟩)
      -- a byte that both maps have is in the first entry
      have hfirst : ∀ e' ∈ e :: es, ∀ r ∈ rhs, ∀ b ∈ e'.1, b ∈ r.1 → e' = e := by
        intro e' he' r hr b hb hb'
        rcases List.mem_cons.1 he' with rfl | he'
        · rfl
        · exact absurd (hb.1.trans hb'.2) (not_le.2 ((hall r hr).2.1 e' he'))
      refine ⟨1, _, hends, fun b => ⟨?_, fun v => ?_⟩⟩
      · rw [(intersection_spec hm hrhs hreach b).1]
        constructor
        · rintro ⟨r, hr, ⟨hb, hb'⟩, -⟩
          exact ⟨⟨e, List.mem_cons_self, hb⟩, r, hr, hb'⟩
        · rintro ⟨⟨e', he', hb⟩, r, hr, hb'⟩
          obtain rfl := hfirst e' he' r hr b hb hb'
          exact ⟨r, hr, ⟨hb, hb'⟩, (hall r hr).2.2 ⟨b, hb, hb'⟩⟩
      · rw [(intersection_spec hm hrhs hreach b).2 v]
        constructor
        · rintro ⟨r, hr, ⟨hb, hb'⟩, hv, hv'⟩
          exact ⟨⟨e, List.mem_cons_self, hb, hv⟩, r, hr, hb', hv'⟩
        · rintro ⟨⟨e', he', hb, hv⟩, r, hr, hb', hv'⟩
          obtain rfl := hfirst e' he' r hr b hb hb'
          exact ⟨r, hr, ⟨hb, hb'⟩, hv, hv'⟩

end Cape.DisjunctiveIntervalMap
