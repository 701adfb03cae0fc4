import Cape.ADT.IntervalIntersection
import Cape.MemorySSA.DefinitionsMap

/-!
# Operations of definitions maps

`intersect`, `update` with a container of nodes, and `undefinedIntervals`, for every memory by its
map from intervals. `intersectionRight_iff`, `updateRight_iff` and `undefinedRight_iff` say exactly
when their results are what they are meant to be.
-/

set_option autoImplicit false

namespace Cape.MemorySSA

universe u

variable {N : Type u}

/-- The interval of a def-site starts with a byte. -/
theorem DefSite.start_ne_unknown (ds : DefSite N) : ds.getInterval.start ≠ .unknown := by
  rw [getInterval]
  split
  · decide
  · next h => exact (Offset.isUnknown_eq_false_iff _).1 (Bool.eq_false_iff.2 h)

namespace DefinitionsMap

/-! ## Intersection -/

section Intersect

variable [DecidableEq N]

/-- The result for one target comes into the map. -/
def addTarget (D : DefinitionsMap N) (t : Memory N) (C : DisjunctiveIntervalMap N) (hC : C.Ordered) :
    DefinitionsMap N :=
  D.modify t (C.addMap (D.offsets t)) ((D.ordered t).addMap hC.proper)

/-- The loop of `intersect` over the targets of the map. No result: one of the intersections does
not end. -/
def intersectLoop (fuel : Nat) (D rhs : DefinitionsMap N) :
    List (Memory N) → DefinitionsMap N → Option (DefinitionsMap N)
  | [], retval => some retval
  | t :: targets, retval =>
      if rhs.definesTarget t then
        match h : (D.offsets t).intersection fuel (rhs.offsets t) with
        | none => none
        | some C => intersectLoop fuel D rhs targets (retval.addTarget t C
            (DisjunctiveIntervalMap.ordered_intersection (D.ordered t).proper (rhs.ordered t).proper h))
      else intersectLoop fuel D rhs targets retval

/-- `intersect`; `targets` are the keys of the map, in their order. -/
def intersect (fuel : Nat) (targets : List (Memory N)) (D rhs : DefinitionsMap N) :
    Option (DefinitionsMap N) := intersectLoop fuel D rhs targets empty

theorem offsets_addTarget {D : DefinitionsMap N} {t : Memory N} {C : DisjunctiveIntervalMap N}
    (hC : C.Ordered) (t' : Memory N) :
    (D.addTarget t C hC).offsets t' = if t' = t then C.addMap (D.offsets t) else D.offsets t' := by
  rw [addTarget, modify]
  dsimp only
  split
  · next h =>
      rw [h, Function.update_self]
  · next h => rw [Function.update_of_ne h]

/-- The loop ends if all intersections end, and puts their results together. -/
theorem intersectLoop_spec {fuel : Nat} {D rhs : DefinitionsMap N} {targets : List (Memory N)} :
    ∀ {retval R : DefinitionsMap N}, targets.Nodup →
      intersectLoop fuel D rhs targets retval = some R →
        (∀ t, t ∉ targets ∨ rhs.definesTarget t = false → R.offsets t = retval.offsets t) ∧
        ∀ t ∈ targets, rhs.definesTarget t = true →
          ∃ C, (D.offsets t).intersection fuel (rhs.offsets t) = some C ∧
            R.offsets t = C.addMap (retval.offsets t) := by
  induction targets with
  | nil =>
      rintro retval R - h
      rw [intersectLoop] at h
      obtain rfl := Option.some.inj h
      exact ⟨fun _ _ => rfl, nofun⟩
  | cons t targets ih =>
      intro retval R hnodup h
      have hnotin := (List.nodup_cons.1 hnodup).1
      rw [intersectLoop] at h
      split at h
      · next hdefines =>
          split at h
          · cases h
          · next C hC =>
              rcases ih (List.nodup_cons.1 hnodup).2 h with ⟨hother, hresult⟩
              -- no later turn is about `t`
              constructor
              · intro t' ht'
                rw [hother t' (ht'.imp_left fun hmem hin => hmem (List.mem_cons_of_mem t hin)),
                  offsets_addTarget, if_neg]
                rintro rfl
                rcases ht' with ht' | ht'
                · exact ht' List.mem_cons_self
                · rw [hdefines] at ht'
                  cases ht'
              · intro t' ht' hdefines'
                rcases List.mem_cons.1 ht' with rfl | hin
                · refine ⟨C, hC, ?_⟩
                  rw [hother t' (Or.inl hnotin), offsets_addTarget, if_pos rfl]
                · rcases hresult t' hin hdefines' with ⟨C', hC', heq⟩
                  refine ⟨C', hC', ?_⟩
                  rw [heq, offsets_addTarget, if_neg]
                  rintro rfl
                  exact hnotin hin
      · next hdefines =>
          rcases ih (List.nodup_cons.1 hnodup).2 h with ⟨hother, hresult⟩
          constructor
          · intro t' ht'
            exact hother t' (ht'.imp_left fun hmem hin => hmem (List.mem_cons_of_mem t hin))
          · intro t' ht' hdefines'
            rcases List.mem_cons.1 ht' with rfl | hin
            · exact absurd hdefines' hdefines
            · exact hresult t' hin hdefines'

theorem exists_intersectLoop_eq {fuel : Nat} {D rhs : DefinitionsMap N} {targets : List (Memory N)} :
    ∀ {retval : DefinitionsMap N}, (∀ t ∈ targets, rhs.definesTarget t = true →
        ∃ C, (D.offsets t).intersection fuel (rhs.offsets t) = some C) →
      ∃ R, intersectLoop fuel D rhs targets retval = some R := by
  induction targets with
  | nil => exact fun {retval} _ => ⟨retval, rfl⟩
  | cons t targets ih =>
      intro retval h
      have hlater := fun t' ht' => h t' (List.mem_cons_of_mem t ht')
      rw [intersectLoop]
      split
      · next hdefines =>
          split
          · next hnone =>
              rcases h t List.mem_cons_self hdefines with ⟨C, hC⟩
              rw [hnone] at hC
              cases hC
          · exact ih hlater
      · exact ih hlater

omit [DecidableEq N] in
theorem definesTarget_eq_false_iff {D : DefinitionsMap N} {t : Memory N} :
    D.definesTarget t = false ↔ D.offsets t = [] := by
  rw [definesTarget]
  cases D.offsets t <;> simp

/-- `intersect` ends, and each byte of a target has the nodes that it has in both maps. -/
def IntersectRight (targets : List (Memory N)) (D rhs : DefinitionsMap N) : Prop :=
  ∃ fuel R, intersect fuel targets D rhs = some R ∧ ∀ t b,
    ((R.offsets t).Covers b ↔ (D.offsets t).Covers b ∧ (rhs.offsets t).Covers b) ∧
      ∀ n, R.Has t b n ↔ D.Has t b n ∧ rhs.Has t b n

/-- A target has in the result what the intersection for this target has. -/
theorem intersect_target {targets : List (Memory N)} {D rhs R : DefinitionsMap N} {fuel : Nat}
    (hnodup : targets.Nodup) (htargets : ∀ t, t ∈ targets ↔ D.definesTarget t = true)
    (hrhs : ∀ t, (rhs.offsets t).KeysDisjoint) (h : intersect fuel targets D rhs = some R)
    (t : Memory N) :
    (D.definesTarget t = true ∧ rhs.definesTarget t = true ∧
      ∃ C, (D.offsets t).intersection fuel (rhs.offsets t) = some C ∧ ∀ b,
        ((R.offsets t).Covers b ↔ C.Covers b) ∧ ∀ n, R.Has t b n ↔ C.Has b n) ∨
    ((D.offsets t = [] ∨ rhs.offsets t = []) ∧ R.offsets t = []) := by
  rcases intersectLoop_spec hnodup h with ⟨hother, hresult⟩
  by_cases hD : D.definesTarget t = true
  · by_cases hdefines : rhs.definesTarget t = true
    · left
      rcases hresult t ((htargets t).2 hD) hdefines with ⟨C, hC, heq⟩
      refine ⟨hD, hdefines, C, hC, fun b => ?_⟩
      -- the entries of the result are added one behind the other
      rcases DisjunctiveIntervalMap.keysDisjoint_intersection (D.ordered t).proper (hrhs t) hC with
        ⟨hdisjoint, hne⟩
      rcases DisjunctiveIntervalMap.has_addMap_behind (m := []) hdisjoint hne nofun b with
        ⟨hcov, hhas⟩
      have heq : R.offsets t = C.addMap [] := heq
      show ((R.offsets t).Covers b ↔ C.Covers b) ∧ ∀ n, (R.offsets t).Has b n ↔ C.Has b n
      rw [heq, hcov]
      refine ⟨by simp, fun n => ?_⟩
      rw [hhas n]
      simp
    · right
      have hfalse := Bool.eq_false_iff.2 hdefines
      exact ⟨Or.inr (definesTarget_eq_false_iff.1 hfalse), hother t (Or.inr hfalse)⟩
  · right
    have hfalse := Bool.eq_false_iff.2 hD
    refine ⟨Or.inl (definesTarget_eq_false_iff.1 hfalse), hother t (Or.inl ?_)⟩
    exact fun hin => hD ((htargets t).1 hin)

/-- **`intersect` is right** if and only if the intersection of every target is. -/
theorem intersectRight_iff {targets : List (Memory N)} {D rhs : DefinitionsMap N}
    (hnodup : targets.Nodup) (htargets : ∀ t, t ∈ targets ↔ D.definesTarget t = true)
    (hrhs : ∀ t, (rhs.offsets t).KeysDisjoint) :
    IntersectRight targets D rhs ↔ ∀ t, D.definesTarget t = true → rhs.definesTarget t = true →
      (D.offsets t).IntersectionRight (rhs.offsets t) := by
  constructor
  · rintro ⟨fuel, R, hR, hright⟩ t hD hdefines
    rcases intersect_target hnodup htargets hrhs hR t with ⟨-, -, C, hC, hsame⟩ | ⟨hempty, -⟩
    · refine ⟨fuel, C, hC, fun b => ⟨?_, fun n => ?_⟩⟩
      · rw [← (hsame b).1]
        exact (hright t b).1
      · rw [← (hsame b).2 n]
        exact (hright t b).2 n
    · rw [← definesTarget_eq_false_iff, ← definesTarget_eq_false_iff, hD, hdefines] at hempty
      simp at hempty
  · intro hall
    have hends : ∀ t ∈ targets, rhs.definesTarget t = true →
        ∃ C, (D.offsets t).intersection 1 (rhs.offsets t) = some C := by
      intro t ht hdefines
      rcases hall t ((htargets t).1 ht) hdefines with ⟨fuel, C, hC, -⟩
      exact ⟨C, DisjunctiveIntervalMap.intersection_one hC⟩
    have hR : ∃ R, intersectLoop 1 D rhs targets empty = some R := exists_intersectLoop_eq hends
    rcases hR with ⟨R, hR⟩
    refine ⟨1, R, hR, fun t b => ?_⟩
    rcases intersect_target hnodup htargets hrhs hR t with
      ⟨hD, hdefines, C, hC, hsame⟩ | ⟨hempty, hR⟩
    · rcases hall t hD hdefines with ⟨fuel, C', hC', hright⟩
      -- it is the same result with any fuel
      rw [DisjunctiveIntervalMap.intersection_one hC'] at hC
      obtain rfl := Option.some.inj hC
      refine ⟨?_, fun n => ?_⟩
      · rw [(hsame b).1]
        exact (hright b).1
      · rw [(hsame b).2 n]
        exact (hright b).2 n
    · show ((R.offsets t).Covers b ↔ (D.offsets t).Covers b ∧ (rhs.offsets t).Covers b) ∧
        ∀ n, (R.offsets t).Has b n ↔ (D.offsets t).Has b n ∧ (rhs.offsets t).Has b n
      rw [hR]
      rcases hempty with hempty | hempty
      · rw [hempty]
        simp
      · rw [hempty]
        simp

/-- **Intersections are right** if and only if the first entries suffice: of two maps from intervals,
and of two definitions maps for every target that both have. -/
theorem intersectionRight_iff :
    (∀ m rhs : DisjunctiveIntervalMap N, m.KeysDisjoint → rhs.KeysDisjoint →
      (m.IntersectionRight rhs ↔ m.FirstSuffices rhs)) ∧
    ∀ (targets : List (Memory N)) (D rhs : DefinitionsMap N), targets.Nodup →
      (∀ t, t ∈ targets ↔ D.definesTarget t = true) → (∀ t, (D.offsets t).KeysDisjoint) →
      (∀ t, (rhs.offsets t).KeysDisjoint) →
        (IntersectRight targets D rhs ↔ ∀ t, D.definesTarget t = true →
          rhs.definesTarget t = true → (D.offsets t).FirstSuffices (rhs.offsets t)) := by
  constructor
  · intro m rhs hm hrhs
    exact DisjunctiveIntervalMap.rightIntersection_iff hm hrhs
  · intro targets D rhs hnodup htargets hD hrhs
    rw [intersectRight_iff hnodup htargets hrhs]
    refine forall_congr' fun t => imp_congr_right fun _ => imp_congr_right fun _ => ?_
    exact DisjunctiveIntervalMap.rightIntersection_iff (hD t) (hrhs t)

/-- One node defines the first bytes of one memory. -/
def oneTarget : DefinitionsMap Nat := empty.add ⟨.node 0, 0, 6⟩ 1

theorem offsets_oneTarget (t : Memory Nat) :
    oneTarget.offsets t = if t = .node 0 then [(⟨0, 5⟩, [1])] else [] := by
  by_cases h : t = .node 0
  · subst h
    decide
  · rw [if_neg h, oneTarget, add, modify]
    exact Function.update_of_ne h _ _

theorem keysDisjoint_oneTarget (t : Memory Nat) : (oneTarget.offsets t).KeysDisjoint := by
  rw [offsets_oneTarget]
  split
  · exact ⟨by decide, by decide⟩
  · exact ⟨.nil, nofun⟩

theorem intersectionRight_iff_oneTarget :
    (DisjunctiveIntervalMap.IntersectionRight [(⟨0, 5⟩, [1])] [(⟨3, 9⟩, [1])] ↔
      DisjunctiveIntervalMap.FirstSuffices [(⟨0, 5⟩, [1])] [(⟨3, 9⟩, [1])]) ∧
    (IntersectRight [.node 0] oneTarget oneTarget ↔ ∀ t, oneTarget.definesTarget t = true →
      oneTarget.definesTarget t = true →
        (oneTarget.offsets t).FirstSuffices (oneTarget.offsets t)) := by
  constructor
  · exact intersectionRight_iff.1 _ _ ⟨by decide, by decide⟩ ⟨by decide, by decide⟩
  · apply intersectionRight_iff.2 _ _ _ (List.nodup_singleton _) _ keysDisjoint_oneTarget
      keysDisjoint_oneTarget
    intro t
    rw [definesTarget, offsets_oneTarget, List.mem_singleton]
    by_cases h : t = .node 0
    · simp [h]
    · simp [h]

/-- The first entry ends before the bytes that both maps have, and the cursor waits for it. -/
theorem intersection_waits :
    ¬ DisjunctiveIntervalMap.IntersectionRight [(⟨0, 1⟩, [7]), (⟨5, 6⟩, [7])] [(⟨5, 6⟩, [7])] := by
  rintro ⟨fuel, C, hends, -⟩
  rcases DisjunctiveIntervalMap.intersection_eq_some_iff.1 hends with ⟨hnil, -⟩ | ⟨-, -, e, es, heq,
    hreach, -⟩
  · cases hnil
  · obtain rfl := (List.cons.inj heq).1
    exact absurd (hreach (⟨5, 6⟩, [7]) (List.mem_singleton_self _)) (by decide)

end Intersect

/-! ## Updates -/

section Update

variable [DecidableEq N]

/-- `update` with a container of nodes. -/
def updateNodes (ds : DefSite N) (ns : List N) (D : DefinitionsMap N) : DefinitionsMap N :=
  ns.foldl (fun D n => D.update ds n) D

theorem offsets_update {ds : DefSite N} {n : N} {D : DefinitionsMap N} (t : Memory N) :
    (D.update ds n).offsets t = if t = ds.target then
      (D.offsets ds.target).update ds.getInterval n else D.offsets t := by
  rw [update, modify]
  dsimp only
  split
  · next h => rw [h, Function.update_self]
  · next h => rw [Function.update_of_ne h]

/-- The map of the target is updated for one node after the other. -/
theorem offsets_updateNodes (ds : DefSite N) (ns : List N) (t : Memory N) :
    ∀ D : DefinitionsMap N, (D.updateNodes ds ns).offsets t = if t = ds.target then
      (D.offsets ds.target).updateValues ds.getInterval ns else D.offsets t := by
  induction ns with
  | nil =>
      intro D
      split
      · next h =>
          rw [h]
          rfl
      · rfl
  | cons n ns ih =>
      intro D
      have hstep : D.updateNodes ds (n :: ns) = (D.update ds n).updateNodes ds ns := rfl
      rw [hstep, ih, offsets_update, if_pos rfl, offsets_update]
      split
      · rfl
      · rfl

/-- Every byte of the def-site has exactly the nodes, and the other bytes are left alone. -/
def UpdateRight (ds : DefSite N) (ns : List N) (D : DefinitionsMap N) : Prop :=
  ∀ t b, b ≠ .unknown → ∀ n, (D.updateNodes ds ns).Has t b n ↔
    if t = ds.target ∧ b ∈ ds.getInterval then n ∈ ns else D.Has t b n

theorem updateRight_target_iff {ds : DefSite N} {ns : List N} {D : DefinitionsMap N} :
    UpdateRight ds ns D ↔
      (D.offsets ds.target).UpdateRight ds.getInterval ns := by
  constructor
  · intro h b hb n
    have hbyte := h ds.target b hb n
    simp only [true_and] at hbyte
    rw [Has, offsets_updateNodes, if_pos rfl] at hbyte
    exact hbyte
  · intro h t b hb n
    rw [Has, offsets_updateNodes]
    by_cases ht : t = ds.target
    · subst ht
      rw [if_pos rfl, h b hb n]
      simp only [true_and]
      rfl
    · rw [if_neg ht, if_neg fun hin => ht hin.1]
      rfl

end Update

end DefinitionsMap

/-! ## Def-sites and intervals -/

namespace DefSite

/-- The bytes of a def-site: all of them at the unknown offset, all from the offset on for the
unknown length. -/
def HasByte (ds : DefSite N) (b : Offset) : Prop :=
  ds.offset = .unknown ∨
    (ds.offset ≤ b ∧ (ds.len = .unknown ∨ b.toNat < ds.offset.toNat + ds.len.toNat))

/-- The def-site for an interval of a memory. -/
def ofInterval (t : Memory N) (J : DiscreteInterval) : DefSite N := ⟨t, J.start, J.length⟩

theorem getInterval_of_unknown {ds : DefSite N} (h : ds.offset = .unknown) :
    ds.getInterval = ⟨0, .unknown⟩ := by
  rw [getInterval, if_pos ((Offset.isUnknown_iff _).2 h)]

theorem getInterval_of_known {ds : DefSite N} (h : ds.offset ≠ .unknown) :
    ds.getInterval = ⟨ds.offset, ds.offset + (ds.len - 1)⟩ := by
  rw [getInterval, if_neg fun h' => h ((Offset.isUnknown_iff _).1 h')]

/-- The interval ends with the last byte, as far as offsets go; without a length it does not end. -/
theorem toNat_stop {ds : DefSite N} (h : ds.offset ≠ .unknown) :
    ds.getInterval.stop.toNat = if ds.len = 0 ∨ ds.len = .unknown then 2 ^ 64 - 1 else
      min (ds.offset.toNat + ds.len.toNat - 1) (2 ^ 64 - 1) := by
  have hoffset := ds.offset.toNat_lt
  have hlen := ds.len.toNat_lt
  rw [getInterval_of_known h]
  dsimp only
  rw [Offset.toNat_add]
  split
  · next hlen' =>
      -- the difference is the unknown length
      have hsub : ds.len - 1 = .unknown := by
        rcases hlen' with hzero | hunknown
        · rw [hzero]
          decide
        · rw [hunknown, Offset.unknown_sub]
      rw [hsub, Offset.toNat_unknown]
      omega
  · next hlen' =>
      rw [not_or] at hlen'
      have hpos : ds.len.toNat ≠ 0 := fun h0 => hlen'.1 (Offset.eq_iff.2 h0)
      rw [Offset.toNat_sub_one (Offset.ne_unknown_iff.1 hlen'.2) (by omega)]
      omega

theorem HasByte.mem {ds : DefSite N} {b : Offset} (h : ds.HasByte b) : b ∈ ds.getInterval := by
  have hb := b.toNat_lt
  by_cases hunknown : ds.offset = .unknown
  · rw [getInterval_of_unknown hunknown, DiscreteInterval.mem_iff, Offset.toNat_unknown,
      Offset.toNat_zero]
    omega
  · rcases h with h | ⟨hstart, hstop⟩
    · exact absurd h hunknown
    · refine ⟨?_, ?_⟩
      · rw [getInterval_of_known hunknown]
        exact hstart
      · rw [Offset.le_iff, toNat_stop hunknown]
        split
        · omega
        · next hlen =>
            rw [not_or] at hlen
            rcases hstop with hstop | hstop
            · exact absurd hstop hlen.2
            · omega

/-- The conversion is exact for all lengths but zero. -/
theorem mem_getInterval_iff {ds : DefSite N} (h : ds.offset = .unknown ∨ ds.len ≠ 0) {b : Offset} :
    b ∈ ds.getInterval ↔ ds.HasByte b := by
  refine ⟨fun hb => ?_, HasByte.mem⟩
  by_cases hunknown : ds.offset = .unknown
  · exact Or.inl hunknown
  · right
    have hstop := Offset.le_iff.1 hb.2
    have hpos : ds.len.toNat ≠ 0 := fun h0 =>
      (h.resolve_left hunknown) (Offset.eq_iff.2 h0)
    rw [toNat_stop hunknown] at hstop
    refine ⟨?_, ?_⟩
    · have hstart := hb.1
      rw [getInterval_of_known hunknown] at hstart
      exact hstart
    · by_cases hlen : ds.len = .unknown
      · exact Or.inl hlen
      · right
        rw [if_neg fun h0 => h0.elim (h.resolve_left hunknown) hlen] at hstop
        omega

/-- No def-site goes from the first byte to the last one before the unknown offset: as a length, this
would be the unknown one. -/
theorem stop_ne_lastByte {ds : DefSite N} (h : ds.getInterval.start = 0) :
    ds.getInterval.stop ≠ DisjunctiveIntervalMap.lastByte := by
  intro hstop
  have hlast : ds.getInterval.stop.toNat = 2 ^ 64 - 2 := by rw [hstop]; rfl
  by_cases hunknown : ds.offset = .unknown
  · rw [getInterval_of_unknown hunknown] at hlast
    exact absurd hlast (by decide)
  · rw [toNat_stop hunknown] at hlast
    rw [getInterval_of_known hunknown] at h
    have hzero : ds.offset.toNat = 0 := Offset.eq_iff.1 h
    have hlen := ds.len.toNat_lt
    split at hlast
    · omega
    · next hknown =>
        rw [not_or, Offset.eq_iff, Offset.eq_iff, Offset.toNat_unknown] at hknown
        omega

/-- Converting an interval and back. -/
theorem getInterval_ofInterval_iff {t : Memory N} {J : DiscreteInterval} (hJ : J.start ≤ J.stop) :
    (ofInterval t J).getInterval = J ↔
      J.start ≠ .unknown ∧ ¬ (J.start = 0 ∧ J.stop = DisjunctiveIntervalMap.lastByte) := by
  have hJ' := Offset.le_iff.1 hJ
  have hbound := J.stop.toNat_lt
  by_cases hunknown : J.start = .unknown
  · -- the unknown offset stands for all offsets
    refine iff_of_false (fun heq => ?_) fun h => h.1 hunknown
    have hstart := congrArg DiscreteInterval.start heq
    have hunknown' : (ofInterval t J).offset = .unknown := hunknown
    rw [getInterval_of_unknown hunknown', hunknown] at hstart
    exact absurd hstart (by decide)
  · rw [and_iff_right hunknown]
    have hstart := Offset.ne_unknown_iff.1 hunknown
    have hknown : (ofInterval t J).offset ≠ .unknown := hunknown
    have heq : (ofInterval t J).getInterval = J ↔
        (ofInterval t J).getInterval.stop.toNat = J.stop.toNat := by
      rw [← Offset.eq_iff]
      constructor
      · intro h
        rw [h]
      · intro h
        rw [getInterval_of_known hknown] at h ⊢
        exact congrArg (DiscreteInterval.mk J.start) h
    rw [heq, toNat_stop hknown]
    show (if J.length = 0 ∨ J.length = .unknown then 2 ^ 64 - 1
      else min (J.start.toNat + J.length.toNat - 1) (2 ^ 64 - 1)) = J.stop.toNat ↔ _
    have hlength : J.length.toNat = if J.stop = .unknown then 2 ^ 64 - 1 else
        min (J.stop.toNat - J.start.toNat + 1) (2 ^ 64 - 1) := by
      rw [DiscreteInterval.length, Offset.toNat_add, Offset.toNat_one]
      split
      · next h => rw [h, Offset.unknown_sub, Offset.toNat_unknown]; omega
      · next h => rw [Offset.toNat_sub h hJ]
    simp only [Offset.eq_iff, Offset.toNat_zero, Offset.toNat_unknown,
      DisjunctiveIntervalMap.toNat_lastByte] at hlength ⊢
    split at hlength
    · rw [hlength, if_pos (Or.inr rfl)]
      omega
    · split
      · omega
      · omega

end DefSite

namespace DefinitionsMap

/-! ## Undefined intervals -/

/-- The intervals denote the bytes of the def-site that are not defined, and each of them is the
interval of its def-site. -/
structure UndefinedRight (D : DefinitionsMap N) (ds : DefSite N) : Prop where
  bytes : ∀ b, (∃ J ∈ D.undefinedIntervals ds, b ∈ J) ↔
    ds.HasByte b ∧ ¬ (D.offsets ds.target).Covers b
  reencodes : ∀ J ∈ D.undefinedIntervals ds, (DefSite.ofInterval ds.target J).getInterval = J

/-- **Where `undefinedIntervals` is right.** -/
structure UndefinedFits (D : DefinitionsMap N) (ds : DefSite N) : Prop where
  /-- the length zero is taken for the unknown length -/
  length : ds.offset ≠ .unknown → ds.len = 0 → ∀ b, ds.offset ≤ b → (D.offsets ds.target).Covers b
  /-- without the target the unknown offset is not stretched -/
  absent : D.definesTarget ds.target = false → ds.offset ≠ .unknown
  /-- `uncovered` does not overrun -/
  overrun : ¬ (D.offsets ds.target).Overruns ds.getInterval
  /-- the rest behind the last byte would start at the unknown offset -/
  edge : ds.getInterval.stop = .unknown → (D.offsets ds.target).Covers DisjunctiveIntervalMap.lastByte →
    (D.offsets ds.target).Covers .unknown

theorem undefinedIntervals_of_absent {D : DefinitionsMap N} {ds : DefSite N}
    (h : D.definesTarget ds.target = false) :
    D.undefinedIntervals ds = [⟨ds.offset, ds.offset + (ds.len - 1)⟩] := by
  rw [undefinedIntervals, if_neg (by simp [h])]

theorem undefinedIntervals_of_defines {D : DefinitionsMap N} {ds : DefSite N}
    (h : D.definesTarget ds.target = true) :
    D.undefinedIntervals ds = (D.offsets ds.target).uncovered ds.getInterval := by
  rw [undefinedIntervals, if_pos h]

/-- Of intervals that have the right bytes, only one that starts at the unknown offset is not the
interval of its def-site. -/
theorem reencodes_of_apart {ds : DefSite N} {m : DisjunctiveIntervalMap N}
    {Js : List DiscreteInterval}
    (hapart : DisjunctiveIntervalMap.Apart ds.getInterval.start.toNat ds.getInterval.stop.toNat m Js)
    (hruns : ¬ m.Overruns ds.getInterval)
    (hedge : ds.getInterval.stop = .unknown → m.Covers DisjunctiveIntervalMap.lastByte →
      m.Covers .unknown) :
    ∀ J ∈ Js, (DefSite.ofInterval ds.target J).getInterval = J := by
  intro J hJ
  have hproper := hapart.proper J hJ
  have hbound := J.stop.toNat_lt
  rw [DefSite.getInterval_ofInterval_iff (Offset.le_iff.2 hproper.2)]
  have hbytes : ∀ b ∈ J, (ds.getInterval.start.toNat ≤ b.toNat ∧
      b.toNat ≤ ds.getInterval.stop.toNat) ∧ ¬ m.Covers b := fun b hb =>
    (hapart.bytes b).1 ⟨J, hJ, hb⟩
  constructor
  · intro hunknown
    rw [hunknown, Offset.toNat_unknown] at hproper
    have hmem : Offset.unknown ∈ J := by
      rw [DiscreteInterval.mem_iff, hunknown, Offset.toNat_unknown]
      omega
    rcases hbytes _ hmem with ⟨⟨-, hstop⟩, hfree⟩
    rw [Offset.toNat_unknown] at hstop
    have hend : ds.getInterval.stop = .unknown := by
      have hlt := ds.getInterval.stop.toNat_lt
      rw [Offset.eq_iff, Offset.toNat_unknown]
      omega
    -- the byte before the unknown offset would be in the same interval
    apply hfree
    apply hedge hend
    by_contra hlast
    have hstart := Offset.ne_unknown_iff.1 ds.start_ne_unknown
    rcases (hapart.bytes DisjunctiveIntervalMap.lastByte).2 ⟨⟨by
      rw [DisjunctiveIntervalMap.toNat_lastByte]
      omega, by
      rw [DisjunctiveIntervalMap.toNat_lastByte]
      omega⟩, hlast⟩ with ⟨J', hJ', hb⟩
    obtain rfl := hapart.eq_of_near hJ hJ' hb (by
      rw [DisjunctiveIntervalMap.toNat_lastByte]
      omega) (by
      rw [hunknown, Offset.toNat_unknown, DisjunctiveIntervalMap.toNat_lastByte]
      omega)
    rw [DiscreteInterval.mem_iff, hunknown, Offset.toNat_unknown,
      DisjunctiveIntervalMap.toNat_lastByte] at hb
    omega
  · rintro ⟨hzero, hlast⟩
    have hmem : DisjunctiveIntervalMap.lastByte ∈ J := by
      rw [DiscreteInterval.mem_iff, hzero, hlast]
      exact ⟨Nat.zero_le _, le_refl _⟩
    rcases hbytes _ hmem with ⟨⟨hge, hle⟩, hfree⟩
    rw [DisjunctiveIntervalMap.toNat_lastByte] at hge hle
    have hstart : ds.getInterval.start = 0 := by
      have h0 := (hbytes 0 (by rw [DiscreteInterval.mem_iff, hzero]; exact ⟨le_refl _, Nat.zero_le _⟩)).1
      rw [Offset.eq_iff]
      exact Nat.le_zero.1 h0.1
    have hend : ds.getInterval.stop = .unknown := by
      have hne := DefSite.stop_ne_lastByte hstart
      rw [Ne, Offset.eq_iff, DisjunctiveIntervalMap.toNat_lastByte] at hne
      have hlt := ds.getInterval.stop.toNat_lt
      rw [Offset.eq_iff, Offset.toNat_unknown]
      omega
    -- then there is an entry for the unknown offset alone, and `uncovered` overruns
    by_cases hcov : m.Covers .unknown
    · rcases hcov with ⟨e, he, hmem'⟩
      have hunknown : e.1.start = .unknown := by
        by_contra hne
        have hlt := Offset.ne_unknown_iff.1 hne
        apply hfree
        refine ⟨e, he, ?_⟩
        rw [DiscreteInterval.mem_iff] at hmem' ⊢
        rw [Offset.toNat_unknown] at hmem'
        rw [DisjunctiveIntervalMap.toNat_lastByte]
        omega
      apply hruns
      refine ⟨⟨e, he, ?_, ?_⟩, Or.inr ⟨hfree, ?_, ?_, e, he, hunknown⟩⟩
      · rw [hunknown, hend]
      · rw [hstart]
        exact Offset.le_iff.2 (Nat.zero_le _)
      · rw [hstart]
        exact Offset.le_iff.2 (Nat.zero_le _)
      · rw [hend]
        exact not_lt.1 (Offset.not_unknown_lt _)
    · rcases (hapart.bytes .unknown).2 ⟨⟨by
          rw [hstart]
          exact Nat.zero_le _, by rw [hend]⟩, hcov⟩ with ⟨J', hJ', hb⟩
      obtain rfl := hapart.eq_of_near hJ hJ' hb (by
        rw [hlast, Offset.toNat_unknown, DisjunctiveIntervalMap.toNat_lastByte]
        omega) (by
        rw [hzero]
        exact Nat.zero_le _)
      rw [DiscreteInterval.mem_iff, hlast, Offset.toNat_unknown,
        DisjunctiveIntervalMap.toNat_lastByte] at hb
      omega

/-- What is returned has a byte, if any byte of the interval is not defined. -/
theorem exists_mem_undefinedIntervals {D : DefinitionsMap N} {ds : DefSite N}
    (hD : (D.offsets ds.target).KeysDisjoint) (hoffset : ds.offset ≠ .unknown) {b : Offset}
    (hb : b ∈ ds.getInterval) (hfree : ¬ (D.offsets ds.target).Covers b) :
    ∃ J ∈ D.undefinedIntervals ds, ∃ b', b' ∈ J := by
  cases hdefines : D.definesTarget ds.target with
  | false =>
      rw [undefinedIntervals_of_absent hdefines]
      refine ⟨_, List.mem_singleton_self _, ds.offset, le_refl _, ?_⟩
      have hle := ds.start_le_stop
      rw [DefSite.getInterval_of_known hoffset] at hle
      exact hle
  | true =>
      rw [undefinedIntervals_of_defines hdefines]
      have hne : (D.offsets ds.target).uncovered ds.getInterval ≠ [] := by
        intro hnil
        rw [DisjunctiveIntervalMap.uncovered_eq_nil_iff hD ds.start_le_stop] at hnil
        exact hfree (hnil b hb)
      rcases List.exists_mem_of_ne_nil _ hne with ⟨J, hJ⟩
      have hgaps := DisjunctiveIntervalMap.gaps_uncovered (D.ordered ds.target) ds.start_le_stop
      exact ⟨J, hJ, J.start, le_refl _, (hgaps.proper J hJ).2.2⟩

theorem definesTarget_of_covers {D : DefinitionsMap N} {t : Memory N} {b : Offset}
    (h : (D.offsets t).Covers b) : D.definesTarget t = true := by
  rw [← Bool.not_eq_false, definesTarget_eq_false_iff]
  intro hnil
  rw [hnil] at h
  exact DisjunctiveIntervalMap.covers_nil b h

/-- The intervals are those that `uncovered` gives, if the offset is known or the target is there. -/
theorem undefinedIntervals_eq {D : DefinitionsMap N} {ds : DefSite N}
    (h : D.definesTarget ds.target = false → ds.offset ≠ .unknown) :
    D.undefinedIntervals ds = (D.offsets ds.target).uncovered ds.getInterval := by
  cases hdefines : D.definesTarget ds.target with
  | true => exact undefinedIntervals_of_defines hdefines
  | false =>
      rw [undefinedIntervals_of_absent hdefines, definesTarget_eq_false_iff.1 hdefines,
        DefSite.getInterval_of_known (h hdefines)]
      rfl

/-- **The bytes of `undefinedIntervals`** are the ones of the interval that are not defined, if and
only if the unknown offset is not asked for without the target, and `uncovered` does not overrun. -/
theorem bytes_undefinedIntervals_iff {D : DefinitionsMap N} {ds : DefSite N}
    (hD : (D.offsets ds.target).KeysDisjoint) :
    (∀ b, (∃ J ∈ D.undefinedIntervals ds, b ∈ J) ↔
        b ∈ ds.getInterval ∧ ¬ (D.offsets ds.target).Covers b) ↔
      (D.definesTarget ds.target = false → ds.offset ≠ .unknown) ∧
        ¬ (D.offsets ds.target).Overruns ds.getInterval := by
  constructor
  · intro h
    have habsent : D.definesTarget ds.target = false → ds.offset ≠ .unknown := by
      intro hdefines hunknown
      have hbyte := (h 0).2 ⟨by
          rw [DefSite.getInterval_of_unknown hunknown]
          decide, by
          rw [definesTarget_eq_false_iff.1 hdefines]
          exact DisjunctiveIntervalMap.covers_nil 0⟩
      rw [undefinedIntervals_of_absent hdefines, hunknown] at hbyte
      rcases hbyte with ⟨J, hJ, hstart, -⟩
      rw [List.mem_singleton.1 hJ] at hstart
      have hstart : Offset.unknown ≤ 0 := hstart
      exact absurd hstart (by decide)
    refine ⟨habsent, fun hruns => ?_⟩
    rcases DisjunctiveIntervalMap.exists_wrong_byte_uncovered hD ds.start_le_stop hruns with
      ⟨J, hJ, b, hb, hwrong⟩
    rw [← undefinedIntervals_eq habsent] at hJ
    exact hwrong ((h b).1 ⟨J, hJ, hb⟩)
  · rintro ⟨habsent, hruns⟩ b
    rw [undefinedIntervals_eq habsent,
      (DisjunctiveIntervalMap.apart_uncovered hD ds.start_le_stop hruns).bytes b,
      DiscreteInterval.mem_iff]

/-- A known offset with the length zero: no byte, but an unbounded interval. -/
theorem undefinedRight_iff_of_empty {D : DefinitionsMap N} {ds : DefSite N}
    (hD : (D.offsets ds.target).KeysDisjoint) (hoffset : ds.offset ≠ .unknown) (hlen : ds.len = 0) :
    UndefinedRight D ds ↔ ∀ b, ds.offset ≤ b → (D.offsets ds.target).Covers b := by
  have hmem : ∀ b, b ∈ ds.getInterval ↔ ds.offset ≤ b := by
    intro b
    have hlt := b.toNat_lt
    rw [DiscreteInterval.mem_iff, DefSite.toNat_stop hoffset, if_pos (Or.inl hlen),
      DefSite.getInterval_of_known hoffset, Offset.le_iff]
    exact and_iff_left (by omega)
  have hbyte : ∀ b, ¬ ds.HasByte b := by
    rintro b (hunknown | ⟨hle, hlen' | hlt⟩)
    · exact hoffset hunknown
    · rw [hlen] at hlen'
      exact absurd hlen' (by decide)
    · rw [hlen, Offset.toNat_zero] at hlt
      have hle := Offset.le_iff.1 hle
      omega
  constructor
  · intro h b hb
    by_contra hfree
    -- an interval that is found has a byte, and the site has none
    rcases exists_mem_undefinedIntervals hD hoffset ((hmem b).2 hb) hfree with ⟨J, hJ, b', hb'⟩
    exact hbyte b' ((h.bytes b').1 ⟨J, hJ, hb'⟩).1
  · intro hall
    have hnil : D.undefinedIntervals ds = [] := by
      rw [undefinedIntervals_eq fun _ => hoffset,
        DisjunctiveIntervalMap.uncovered_eq_nil_iff hD ds.start_le_stop]
      exact fun b hb => hall b ((hmem b).1 hb)
    constructor
    case bytes =>
      intro b
      rw [hnil]
      exact iff_of_false (fun ⟨J, hJ, _⟩ => nomatch hJ) fun h => hbyte b h.1
    case reencodes =>
      rw [hnil]
      exact nofun

theorem UndefinedRight.fits {D : DefinitionsMap N} {ds : DefSite N}
    (hD : (D.offsets ds.target).KeysDisjoint) (h : UndefinedRight D ds) : UndefinedFits D ds := by
  have hlength : ds.offset ≠ .unknown → ds.len = 0 →
      ∀ b, ds.offset ≤ b → (D.offsets ds.target).Covers b := fun hoffset hlen =>
    (undefinedRight_iff_of_empty hD hoffset hlen).1 h
  by_cases hempty : ds.offset ≠ .unknown ∧ ds.len = 0
  · -- everything from the offset on is covered
    have hcovers := hlength hempty.1 hempty.2
    have hI : ∀ b ∈ ds.getInterval, (D.offsets ds.target).Covers b := by
      intro b hb
      apply hcovers
      rw [DefSite.getInterval_of_known hempty.1] at hb
      exact hb.1
    constructor
    case length => exact hlength
    case absent => exact fun _ => hempty.1
    case overrun =>
      rintro ⟨-, ⟨hstop, -⟩ | ⟨hlast, hge, hle, -⟩⟩
      · exact hstop (hI _ ⟨ds.start_le_stop, le_refl _⟩)
      · exact hlast (hI _ ⟨hge, hle⟩)
    case edge => exact fun _ _ => hcovers _ (not_lt.1 (Offset.not_unknown_lt _))
  · have hlen : ds.offset = .unknown ∨ ds.len ≠ 0 := by
      by_contra hnot
      rw [not_or, not_not] at hnot
      exact hempty hnot
    have hbytes : ∀ b, (∃ J ∈ D.undefinedIntervals ds, b ∈ J) ↔
        b ∈ ds.getInterval ∧ ¬ (D.offsets ds.target).Covers b := by
      intro b
      rw [h.bytes b, DefSite.mem_getInterval_iff hlen]
    rcases (bytes_undefinedIntervals_iff hD).1 hbytes with ⟨habsent, hruns⟩
    constructor
    case length => exact hlength
    case absent => exact habsent
    case overrun => exact hruns
    case edge =>
      intro hend hlast
      by_contra hfree
      -- the unknown offset alone is left
      have hmem : Offset.unknown ∈ ds.getInterval :=
        ⟨not_lt.1 (Offset.not_unknown_lt _), by rw [hend]⟩
      rcases (hbytes .unknown).2 ⟨hmem, hfree⟩ with ⟨J, hJ, hmem'⟩
      have hstart : J.start = .unknown := by
        by_contra hne
        have hlt := Offset.ne_unknown_iff.1 hne
        rw [DiscreteInterval.mem_iff, Offset.toNat_unknown] at hmem'
        refine ((hbytes DisjunctiveIntervalMap.lastByte).1 ⟨J, hJ, ?_⟩).2 hlast
        rw [DiscreteInterval.mem_iff, DisjunctiveIntervalMap.toNat_lastByte]
        omega
      have hback := h.reencodes J hJ
      rw [DefSite.getInterval_ofInterval_iff (hmem'.1.trans hmem'.2)] at hback
      exact hback.1 hstart

theorem UndefinedFits.right {D : DefinitionsMap N} {ds : DefSite N}
    (hD : (D.offsets ds.target).KeysDisjoint) (h : UndefinedFits D ds) : UndefinedRight D ds := by
  by_cases hempty : ds.offset ≠ .unknown ∧ ds.len = 0
  · exact (undefinedRight_iff_of_empty hD hempty.1 hempty.2).2 (h.length hempty.1 hempty.2)
  · have hlen : ds.offset = .unknown ∨ ds.len ≠ 0 := by
      by_contra hnot
      rw [not_or, not_not] at hnot
      exact hempty hnot
    constructor
    case bytes =>
      intro b
      rw [(bytes_undefinedIntervals_iff hD).2 ⟨h.absent, h.overrun⟩ b,
        DefSite.mem_getInterval_iff hlen]
    case reencodes =>
      rw [undefinedIntervals_eq h.absent]
      exact reencodes_of_apart
        (DisjunctiveIntervalMap.apart_uncovered hD ds.start_le_stop h.overrun) h.overrun h.edge

/-- **`undefinedIntervals` is right** exactly when the def-site fits the map. -/
theorem undefinedRight_iff {D : DefinitionsMap N} {ds : DefSite N}
    (hD : (D.offsets ds.target).KeysDisjoint) : UndefinedRight D ds ↔ UndefinedFits D ds :=
  ⟨fun h => h.fits hD, fun h => h.right hD⟩

theorem undefinedRight_iff_oneTarget :
    UndefinedRight oneTarget ⟨.node 0, 4, 4⟩ ↔ UndefinedFits oneTarget ⟨.node 0, 4, 4⟩ :=
  undefinedRight_iff (keysDisjoint_oneTarget _)

/-- Of a memory without definitions, no byte is found at the unknown offset. -/
theorem undefined_missed :
    ¬ UndefinedRight (empty : DefinitionsMap Nat) ⟨.node 0, .unknown, .unknown⟩ := by
  intro h
  rcases (h.bytes 0).2 ⟨Or.inl rfl, DisjunctiveIntervalMap.covers_nil 0⟩ with ⟨J, hJ, hstart, -⟩
  have hJ : J ∈ [(⟨.unknown, .unknown⟩ : DiscreteInterval)] := hJ
  rw [List.mem_singleton.1 hJ] at hstart
  exact absurd hstart (by decide)

end DefinitionsMap

end Cape.MemorySSA
