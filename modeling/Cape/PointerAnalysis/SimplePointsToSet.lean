import Cape.PointerAnalysis.PointsToSet

/-!
# The plain points-to set

`SimplePointsToSet` keeps its pointers in a set. It is there for comparison with the others. Additions
and unions are those of the set that the analysis works with (`add_eq`); `removeAny` builds the set
anew.
-/

set_option autoImplicit false

namespace Cape.PointerAnalysis.SimplePointsToSet

open Cape.Library

universe u

variable {N : Type u} [DecidableEq N]

def addWithUnknownOffset (target : PSNode N) : Step (PointsToSet N) := fun S =>
  if S.has ⟨target, .unknown⟩ then (S, false)
  else PointsToSet.set ⟨target, .unknown⟩ (S.removeAny target)

def add (p : Pointer N) : Step (PointsToSet N) := fun S =>
  if p.offset.isUnknown then addWithUnknownOffset p.target S
  -- with the unknown offset in the set, there is nothing to do
  else if S.has p.widen then (S, false)
  else PointsToSet.set p S

/-- `add` of a set. -/
def union (rhs : PointsToSet N) : Step (PointsToSet N) := fun S => PointsToSet.union rhs S

def remove (p : Pointer N) : Step (PointsToSet N) := fun S => (S.remove p, S.has p)

/-- `removeAny`: the other pointers are added to a new set. -/
def removeAny (target : PSNode N) : Step (PointsToSet N) := fun S =>
  if S.pointsToTarget target then
    ((S.pointers.filter fun p => p.target ≠ target).foldl (fun T p => (add p T).1) .empty, true)
  else (S, false)

/-- Which question comes first makes no difference. -/
theorem add_eq (p : Pointer N) (S : PointsToSet N) : add p S = PointsToSet.add p S := by
  rw [add, PointsToSet.add]
  by_cases hunknown : p.offset.isUnknown = true
  · have hwide : p.widen = ⟨p.target, .unknown⟩ := rfl
    rw [if_pos hunknown, addWithUnknownOffset, hwide]
    split
    · rfl
    · rfl
  · rw [if_neg hunknown, if_neg hunknown]

end Cape.PointerAnalysis.SimplePointsToSet
