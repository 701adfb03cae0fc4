import Cape.ADT.IntervalContainers
import Cape.ADT.IntervalQueries
import Cape.MemorySSA.ReadWriteGraph

/-!
# Definitions of memory

`DefinitionsMap`: for every memory a map from intervals of its bytes to nodes. A memory that is not in
the map has the empty map from intervals.
-/

set_option autoImplicit false

namespace Cape.MemorySSA

universe u

/-- `DefinitionsMap`. -/
structure DefinitionsMap (N : Type u) where
  offsets : Memory N → DisjunctiveIntervalMap N
  ordered : ∀ t, (offsets t).Ordered

namespace DefinitionsMap

variable {N : Type u}

def empty : DefinitionsMap N := ⟨fun _ => [], fun _ => .nil⟩

/-- The nodes of the map at a byte of a memory. -/
def Has (D : DefinitionsMap N) (t : Memory N) (b : Offset) (n : N) : Prop := (D.offsets t).Has b n

/-- `definesTarget`. -/
def definesTarget (D : DefinitionsMap N) (t : Memory N) : Bool := !(D.offsets t).isEmpty

/-- `undefinedIntervals`. -/
def undefinedIntervals (D : DefinitionsMap N) (ds : DefSite N) : List DiscreteInterval :=
  if D.definesTarget ds.target then (D.offsets ds.target).uncovered ds.getInterval
  else [⟨ds.offset, ds.offset + (ds.len - 1)⟩]

variable [DecidableEq N]

/-- The map of one memory is replaced. -/
def modify (D : DefinitionsMap N) (t : Memory N) (m : DisjunctiveIntervalMap N) (hm : m.Ordered) :
    DefinitionsMap N where
  offsets := Function.update D.offsets t m
  ordered := by
    intro t'
    by_cases h : t' = t
    · subst h
      rw [Function.update_self]
      exact hm
    · rw [Function.update_of_ne h]
      exact D.ordered t'

def add (ds : DefSite N) (n : N) (D : DefinitionsMap N) : DefinitionsMap N :=
  D.modify ds.target ((D.offsets ds.target).add ds.getInterval n)
    ((D.ordered ds.target).add ds.start_le_stop n)

def update (ds : DefSite N) (n : N) (D : DefinitionsMap N) : DefinitionsMap N :=
  D.modify ds.target ((D.offsets ds.target).update ds.getInterval n)
    ((D.ordered ds.target).update ds.start_le_stop n)

/-- `add` of a container of nodes. -/
def addNodes (ds : DefSite N) (ns : List N) (D : DefinitionsMap N) : DefinitionsMap N :=
  ns.foldl (fun D n => D.add ds n) D

/-- `add` of another map. -/
def addMap (D D' : DefinitionsMap N) : DefinitionsMap N where
  offsets := fun t => (D'.offsets t).addMap (D.offsets t)
  ordered := fun t => (D.ordered t).addMap (D'.ordered t).proper

/-- `get`. -/
def get (D : DefinitionsMap N) (ds : DefSite N) : List N :=
  (D.offsets ds.target).gather ds.getInterval

omit [DecidableEq N] in
@[simp] theorem not_has_empty (t : Memory N) (b : Offset) (n : N) : ¬ (empty : DefinitionsMap N).Has t b n :=
  DisjunctiveIntervalMap.has_nil b n

theorem has_modify {D : DefinitionsMap N} {t : Memory N} {m : DisjunctiveIntervalMap N}
    (hm : m.Ordered) {t' : Memory N} {b : Offset} {n : N} :
    (D.modify t m hm).Has t' b n ↔ if t' = t then m.Has b n else D.Has t' b n := by
  unfold Has modify
  split
  · next h =>
      subst h
      simp
  · next h => simp [Function.update_of_ne h]

theorem has_add {D : DefinitionsMap N} {ds : DefSite N} {n : N} {t : Memory N} {b : Offset}
    (hb : b ≠ .unknown) {w : N} :
    (D.add ds n).Has t b w ↔ D.Has t b w ∨ (t = ds.target ∧ b ∈ ds.getInterval ∧ w = n) := by
  rw [add, has_modify]
  split
  · next h =>
      subst h
      rw [DisjunctiveIntervalMap.has_add ds.start_le_stop n (D.ordered _) hb w]
      simp [Has]
  · next h => simp [h]

theorem has_update {D : DefinitionsMap N} {ds : DefSite N} {n : N} {t : Memory N} {b : Offset}
    (hb : b ≠ .unknown) {w : N} :
    (D.update ds n).Has t b w ↔
      if t = ds.target ∧ b ∈ ds.getInterval then w = n else D.Has t b w := by
  rw [update, has_modify]
  by_cases h : t = ds.target
  · subst h
    rw [if_pos rfl, DisjunctiveIntervalMap.has_update ds.start_le_stop n (D.ordered _) hb w]
    by_cases hmem : b ∈ ds.getInterval
    · simp [hmem]
    · simp [hmem, Has]
  · simp [h]

theorem has_addMap {D D' : DefinitionsMap N} {t : Memory N} {b : Offset} (hb : b ≠ .unknown) {w : N} :
    (D.addMap D').Has t b w ↔ D.Has t b w ∨ D'.Has t b w :=
  DisjunctiveIntervalMap.has_addMap (D'.ordered t).proper (D.ordered t) hb w

/-- The map has the node at all bytes of the def-site. -/
def Contains (D : DefinitionsMap N) (ds : DefSite N) (n : N) : Prop :=
  ∀ b ∈ ds.getInterval, b ≠ .unknown → D.Has ds.target b n

omit [DecidableEq N] in
theorem Contains.mono {D D' : DefinitionsMap N} {ds : DefSite N} {n : N} (h : D.Contains ds n)
    (hle : ∀ t b, b ≠ .unknown → ∀ w, D.Has t b w → D'.Has t b w) : D'.Contains ds n :=
  fun b hmem hb => hle _ b hb n (h b hmem hb)

end DefinitionsMap

end Cape.MemorySSA
