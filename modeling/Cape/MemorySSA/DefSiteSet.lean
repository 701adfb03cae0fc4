import Cape.ADT.IntervalsList
import Cape.MemorySSA.Definitions

/-!
# Sets of def-sites

`DefSiteSet::intersect` puts the intervals of the def-sites of a target into lists of intervals and
intersects these. The first interval of a target comes into an empty list, which has no interval that
it could replace (`intersectRight_nil_iff`). The summary of a call of undefined functions rests on this
intersection (`summaryRight_iff`).
-/

set_option autoImplicit false

namespace Cape.MemorySSA

open IntervalsList (Interval)

universe u w

variable {N : Type u}

/-- The interval of a def-site, as a pair that the list takes. -/
def DefSite.interval (ds : DefSite N) : Interval := ⟨ds.getInterval, ds.start_le_stop⟩

/-- The bytes of a set of def-sites. -/
def SiteBytes (A : List (DefSite N)) (t : Memory N) (b : Offset) : Prop :=
  ∃ ds ∈ A, ds.target = t ∧ b ∈ ds.getInterval

namespace DefSiteSet

variable [DecidableEq N]

/-- The map from targets to lists of intervals, one def-site after the other. -/
def sites (A : List (DefSite N)) : Option (Memory N → List Interval) :=
  A.foldlM (fun M ds =>
    (IntervalsList.add ds.interval (M ds.target)).map (Function.update M ds.target)) fun _ => []

/-- `intersect`. -/
def intersect (A rhs : List (DefSite N)) : Option (List (DefSite N)) := do
  let lhssites ← sites A
  let rhssites ← sites rhs
  let targets := (A.map DefSite.target).dedup.filter fun t => t ∈ rhs.map DefSite.target
  let retval := targets.flatMap fun t =>
    (IntervalsList.intersectWith (lhssites t) (rhssites t)).map fun I =>
      DefSite.ofInterval t I.toDiscreteInterval
  return retval.dedup

/-- `add`. -/
def add (A C : List (DefSite N)) : List (DefSite N) := A ∪ C

/-- The result has the bytes that both sets have. -/
def IntersectRight (A rhs : List (DefSite N)) : Prop :=
  ∃ R, intersect A rhs = some R ∧ ∀ t b, SiteBytes R t b ↔ SiteBytes A t b ∧ SiteBytes rhs t b

/-- Already the first def-site has no list that it could be added to. -/
theorem sites_eq_some_iff {A : List (DefSite N)} {M : Memory N → List Interval} :
    sites A = some M ↔ A = [] ∧ M = fun _ => [] := by
  cases A with
  | nil =>
      rw [sites, List.foldlM_nil]
      constructor
      · intro h
        exact ⟨rfl, (Option.some.inj h).symm⟩
      · rintro ⟨-, rfl⟩
        rfl
  | cons ds A =>
      have hnone : sites (ds :: A) = none := by
        rw [sites, List.foldlM_cons, IntervalsList.add_nil]
        rfl
      rw [hnone]
      simp

theorem intersect_eq_some_iff {A rhs R : List (DefSite N)} :
    intersect A rhs = some R ↔ A = [] ∧ rhs = [] ∧ R = [] := by
  constructor
  · intro h
    -- each of the two sets of def-sites is put into lists first
    rcases Option.bind_eq_some_iff.1 h with ⟨lhssites, hA, h⟩
    rcases Option.bind_eq_some_iff.1 h with ⟨rhssites, hrhs, h⟩
    obtain rfl := (sites_eq_some_iff.1 hA).1
    exact ⟨rfl, (sites_eq_some_iff.1 hrhs).1, (Option.some.inj h).symm⟩
  · rintro ⟨rfl, rfl, rfl⟩
    rfl

theorem intersectRight_nil_iff {A rhs : List (DefSite N)} :
    IntersectRight A rhs ↔ A = [] ∧ rhs = [] := by
  constructor
  · rintro ⟨R, hR, -⟩
    rcases intersect_eq_some_iff.1 hR with ⟨hA, hrhs, -⟩
    exact ⟨hA, hrhs⟩
  · rintro ⟨rfl, rfl⟩
    exact ⟨[], rfl, fun t b => by simp [SiteBytes]⟩

theorem siteBytes_add {A C : List (DefSite N)} {t : Memory N} {b : Offset} :
    SiteBytes (add A C) t b ↔ SiteBytes A t b ∨ SiteBytes C t b := by
  simp only [SiteBytes, add, List.mem_union_iff, or_and_right, exists_or]

/-- Sets that are added one after the other. -/
theorem siteBytes_foldl_add {U : Type w} (sets : U → List (DefSite N)) (us : List U)
    (A : List (DefSite N)) (t : Memory N) (b : Offset) :
    SiteBytes (us.foldl (fun A u => add A (sets u)) A) t b ↔
      SiteBytes A t b ∨ ∃ u ∈ us, SiteBytes (sets u) t b := by
  induction us generalizing A with
  | nil => simp
  | cons u us ih => rw [List.foldl_cons, ih, siteBytes_add, List.exists_mem_cons_iff, or_assoc]

/-- A chain of intersections ends only if it has empty sets only. -/
theorem foldlM_intersect_eq_some_iff {U : Type w} {sets : U → List (DefSite N)} {us : List U}
    {R : List (DefSite N)} :
    us.foldlM (fun kills u => intersect kills (sets u)) [] = some R ↔
      (∀ u ∈ us, sets u = []) ∧ R = [] := by
  induction us with
  | nil =>
      rw [List.foldlM_nil]
      constructor
      · intro h
        exact ⟨nofun, (Option.some.inj h).symm⟩
      · rintro ⟨-, rfl⟩
        rfl
  | cons u us ih =>
      rw [List.foldlM_cons, List.forall_mem_cons, and_assoc]
      constructor
      · intro h
        rcases Option.bind_eq_some_iff.1 h with ⟨kills, hkills, hrest⟩
        rcases intersect_eq_some_iff.1 hkills with ⟨-, hu, rfl⟩
        exact ⟨hu, ih.1 hrest⟩
      · rintro ⟨hu, hrest⟩
        exact Option.bind_eq_some_iff.2
          ⟨[], intersect_eq_some_iff.2 ⟨rfl, hu, rfl⟩, ih.2 hrest⟩

end DefSiteSet

/-! ## Calls of undefined functions -/

namespace RWNodeCall

variable {S : Type w}

/-- The nodes that model undefined functions. -/
def undefined (callees : List (CalledValue N S)) : List N :=
  callees.filterMap fun cv =>
    match cv with
    | .subgraph _ => none
    | .calledValue n => some n

theorem mem_undefined {callees : List (CalledValue N S)} {u : N} :
    u ∈ undefined callees ↔ CalledValue.calledValue u ∈ callees := by
  rw [undefined, List.mem_filterMap]
  constructor
  · rintro ⟨cv, hcv, h⟩
    cases cv with
    | subgraph s => cases h
    | calledValue n =>
        obtain rfl := Option.some.inj h
        exact hcv
  · intro h
    exact ⟨_, h, rfl⟩

/-- Without a defined callee, every called value is one. -/
theorem length_undefined {callees : List (CalledValue N S)} (h : callsDefined callees = false) :
    (undefined callees).length = callees.length := by
  induction callees with
  | nil => rfl
  | cons cv callees ih =>
      rw [callsDefined, List.any_cons, Bool.or_eq_false_iff] at h
      cases cv with
      | subgraph s => cases h.1
      | calledValue n =>
          show (undefined callees).length + 1 = callees.length + 1
          rw [ih h.2]

variable [DecidableEq N] (annotationsOf : N → Annotations N)

/-- `_summarizeAnnotation`: the annotations of the call, from those that it has. -/
def summarizeAnnotation (callees : List (CalledValue N S)) (annotations : Annotations N) :
    Option (Annotations N) :=
  if callees.length > 1 then
    match undefined callees with
    | [] => some annotations
    | [u] => some (annotationsOf u)
    | u :: u' :: us => do
        let kills ← DefSiteSet.intersect (annotationsOf u).overwrites (annotationsOf u').overwrites
        let kills ← us.foldlM
          (fun kills u => DefSiteSet.intersect kills (annotationsOf u).overwrites) kills
        return {
          defs := (u :: u' :: us).foldl
            (fun defs u => DefSiteSet.add defs (annotationsOf u).defs) annotations.defs
          overwrites := kills
          uses := (u :: u' :: us).foldl
            (fun uses u => DefSiteSet.add uses (annotationsOf u).uses) annotations.uses }
  else some annotations

/-- What the summary is for: the call overwrites what all called values overwrite, may define what one
of them defines or overwrites, and uses what one of them uses; definitions and uses come to those that
the call has itself. -/
structure IsSummary (us : List N) (annotations R : Annotations N) : Prop where
  overwrites : ∀ t b, SiteBytes R.overwrites t b ↔
    ∀ u ∈ us, SiteBytes (annotationsOf u).overwrites t b
  defs : ∀ t b, SiteBytes R.defs t b ∨ SiteBytes R.overwrites t b ↔ SiteBytes annotations.defs t b ∨
    ∃ u ∈ us, SiteBytes (annotationsOf u).defs t b ∨ SiteBytes (annotationsOf u).overwrites t b
  uses : ∀ t b, SiteBytes R.uses t b ↔ SiteBytes annotations.uses t b ∨
    ∃ u ∈ us, SiteBytes (annotationsOf u).uses t b

/-- The call gets a summary of what it calls. -/
def SummaryRight (callees : List (CalledValue N S)) (annotations : Annotations N) : Prop :=
  ∃ R, summarizeAnnotation annotationsOf callees annotations = some R ∧
    IsSummary annotationsOf (undefined callees) annotations R

/-- **The summary of a call of undefined functions is right** if and only if none of them overwrites
anything: an intersection of sets that are not empty is not defined. -/
theorem summaryRight_iff {callees : List (CalledValue N S)} (hlength : 2 ≤ callees.length)
    (hundefined : callsDefined callees = false) (annotations : Annotations N) :
    SummaryRight annotationsOf callees annotations ↔
      ∀ u, CalledValue.calledValue u ∈ callees → (annotationsOf u).overwrites = [] := by
  have htwo := length_undefined hundefined
  simp only [← mem_undefined]
  rw [SummaryRight, summarizeAnnotation, if_pos (by omega)]
  rcases hus : undefined callees with _ | ⟨u, _ | ⟨u', us⟩⟩
  · rw [hus, List.length_nil] at htwo
    omega
  · rw [hus, List.length_singleton] at htwo
    omega
  dsimp only
  constructor
  · rintro ⟨R, hR, -⟩
    rcases Option.bind_eq_some_iff.1 hR with ⟨kills, hkills, hR⟩
    rcases Option.bind_eq_some_iff.1 hR with ⟨kills', hrest, -⟩
    rcases DefSiteSet.intersect_eq_some_iff.1 hkills with ⟨hu, hu', rfl⟩
    have hus := (DefSiteSet.foldlM_intersect_eq_some_iff.1 hrest).1
    exact List.forall_mem_cons.2 ⟨hu, List.forall_mem_cons.2 ⟨hu', hus⟩⟩
  · intro hempty
    -- all intersections are of empty sets
    have hnone : ∀ v ∈ u :: u' :: us, ∀ t b, ¬ SiteBytes (annotationsOf v).overwrites t b := by
      intro v hv t b
      rw [hempty v hv]
      simp [SiteBytes]
    have hu := hempty u List.mem_cons_self
    have hu' := hempty u' (List.mem_cons_of_mem u List.mem_cons_self)
    have hkills : DefSiteSet.intersect (annotationsOf u).overwrites (annotationsOf u').overwrites =
        some [] :=
      DefSiteSet.intersect_eq_some_iff.2 ⟨hu, hu', rfl⟩
    have hrest : us.foldlM (fun R u => DefSiteSet.intersect R (annotationsOf u).overwrites) [] =
        some [] := DefSiteSet.foldlM_intersect_eq_some_iff.2
      ⟨fun v hv => hempty v (List.mem_cons_of_mem u (List.mem_cons_of_mem u' hv)), rfl⟩
    refine ⟨_, Option.bind_eq_some_iff.2 ⟨[], hkills, Option.bind_eq_some_iff.2 ⟨[], hrest, rfl⟩⟩, ?_⟩
    constructor
    case overwrites =>
      intro t b
      refine iff_of_false (by simp [SiteBytes]) fun hall => ?_
      exact hnone u List.mem_cons_self t b (hall u List.mem_cons_self)
    case defs =>
      intro t b
      rw [DefSiteSet.siteBytes_foldl_add (fun u => (annotationsOf u).defs)]
      have hkills : ¬ SiteBytes ([] : List (DefSite N)) t b := by simp [SiteBytes]
      rw [or_iff_left hkills]
      refine or_congr_right (exists_congr fun v => and_congr_right fun hv => ?_)
      exact (or_iff_left (hnone v hv t b)).symm
    case uses =>
      intro t b
      exact DefSiteSet.siteBytes_foldl_add (fun u => (annotationsOf u).uses) _ _ t b

/-- Two undefined functions that overwrite the same bytes of the memory 9. -/
def overwritesNine (_ : Nat) : Annotations Nat := ⟨[], [⟨.node 9, 0, 4⟩], []⟩

def callsTwo : List (CalledValue Nat Nat) := [.calledValue 1, .calledValue 2]

theorem summaryRight_iff_callsTwo :
    SummaryRight overwritesNine callsTwo ⟨[], [], []⟩ ↔
      ∀ u, CalledValue.calledValue u ∈ callsTwo → (overwritesNine u).overwrites = [] :=
  summaryRight_iff overwritesNine (by decide) (by decide) ⟨[], [], []⟩

/-- The summary of two functions that overwrite the same bytes is not defined. -/
theorem summary_undefined : ¬ SummaryRight overwritesNine callsTwo ⟨[], [], []⟩ := by
  rintro ⟨R, hR, -⟩
  have hnone : summarizeAnnotation overwritesNine callsTwo ⟨[], [], []⟩ = none := by
    decide
  rw [hnone] at hR
  cases hR

end RWNodeCall

end Cape.MemorySSA
