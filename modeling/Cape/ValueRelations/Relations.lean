import Cape.Library.Attempts

/-!
# Relations of values

`RelationsMap`: relations between values, one set for each value and each operator. The map may be
kept transitively closed: what follows from a new relation and the stored ones is added with it.
`transitivelyClose` does that for all relations.
-/

set_option autoImplicit false

namespace Cape.ValueRelations

open Cape.Library

universe u

/-- `VRRelationType`, without `NONE`, which no relation has that is added. -/
inductive VRRelationType
  | eq | neq | le | lt | ge | gt
deriving DecidableEq, Repr

namespace VRRelationType

/-- The number of the operator, which is its place among the sets of a value. -/
def index : VRRelationType → Nat
  | eq => 1 | neq => 2 | le => 3 | lt => 4 | ge => 5 | gt => 6

def reverse : VRRelationType → VRRelationType
  | eq => eq | neq => neq | le => ge | lt => gt | ge => le | gt => lt

@[simp] theorem reverse_reverse (t : VRRelationType) : t.reverse.reverse = t := by cases t <;> rfl

end VRRelationType

/-- `VRRelation`. -/
structure VRRelation (V : Type u) where
  relation : VRRelationType
  lhs : V
  rhs : V
deriving DecidableEq, Repr

instance lawfulBEqRelation {V : Type u} [LinearOrder V] : LawfulBEq (VRRelation V) := inferInstance

namespace VRRelation

variable {V : Type u}

def sameOp (rel : VRRelation V) (l r : V) : VRRelation V := ⟨rel.relation, l, r⟩

def reverse (rel : VRRelation V) : VRRelation V := ⟨rel.relation.reverse, rel.rhs, rel.lhs⟩

@[simp] theorem reverse_reverse (rel : VRRelation V) : rel.reverse.reverse = rel := by
  simp [reverse]

/-- The order of the iteration over a map: values, operators, values. -/
def precedes [LinearOrder V] (rel rel' : VRRelation V) : Bool :=
  decide (rel.lhs < rel'.lhs) || (rel.lhs == rel'.lhs &&
    (decide (rel.relation.index < rel'.relation.index) || (rel.relation == rel'.relation &&
      decide (rel.rhs < rel'.rhs))))

end VRRelation

/-- `RelationsMap`: the relations in the order of the iteration. -/
structure RelationsMap (V : Type u) where
  keepTransitivelyClosed : Bool
  relations : List (VRRelation V)
deriving DecidableEq, Repr

namespace RelationsMap

variable {V : Type u}

/-- The relations of one value, `get`. -/
def get [DecidableEq V] (m : RelationsMap V) (v : V) : List (VRRelation V) :=
  m.relations.filter fun rel => rel.lhs = v

def has [DecidableEq V] (m : RelationsMap V) (rel : VRRelation V) : Bool :=
  m.relations.contains rel

variable [LinearOrder V]

/-- The relation, put at its place. -/
def insertSorted (rel : VRRelation V) : List (VRRelation V) → List (VRRelation V)
  | [] => [rel]
  | r :: rs => if rel.precedes r then rel :: r :: rs else r :: insertSorted rel rs

/-- `_add`. -/
def insert (rel : VRRelation V) (m : RelationsMap V) : RelationsMap V × Bool :=
  if rel ∈ m.relations then (m, false)
  else ({ m with relations := insertSorted rel m.relations }, true)

/-! ## Transitivity -/

/-- For each relation that the value has now, what follows from it. -/
def eachOf (add : VRRelation V → Attempt (RelationsMap V)) (v : V)
    (follows : VRRelation V → Option (VRRelation V)) : Attempt (RelationsMap V) := fun m =>
  Attempt.each (fun it => match follows it with
    | some rel => add rel
    | none => Attempt.skip) (m.get v) m

def addTransitiveEq (add : VRRelation V → Attempt (RelationsMap V)) (rel : VRRelation V) :
    Attempt (RelationsMap V) :=
  (eachOf add rel.rhs fun it => some (it.sameOp rel.lhs it.rhs)).andThen
    (eachOf add rel.lhs fun it => some (it.sameOp rel.rhs it.rhs))

def addTransitiveLt (add : VRRelation V → Attempt (RelationsMap V)) (rel : VRRelation V) :
    Attempt (RelationsMap V) :=
  (eachOf add rel.rhs fun it =>
    match it.relation with
    | .eq | .lt | .le => some (rel.sameOp rel.lhs it.rhs)
    | _ => none).andThen
    (eachOf add rel.lhs fun it =>
      match it.relation with
      | .eq | .gt | .ge => some (rel.sameOp it.rhs rel.rhs)
      | _ => none)

/-- In the last case the operator of `it` is taken, although the operands change places. -/
def addTransitiveLe (add : VRRelation V → Attempt (RelationsMap V)) (rel : VRRelation V) :
    Attempt (RelationsMap V) :=
  (eachOf add rel.rhs fun it =>
    match it.relation with
    | .eq | .le => some (rel.sameOp rel.lhs it.rhs)
    | .lt => some (it.sameOp rel.lhs it.rhs)
    | _ => none).andThen
    (eachOf add rel.lhs fun it =>
      match it.relation with
      | .eq | .ge => some (rel.sameOp it.rhs rel.rhs)
      | .gt => some (it.sameOp it.rhs rel.rhs)
      | _ => none)

/-- `_addTransitive1`. -/
def addTransitive1 (add : VRRelation V → Attempt (RelationsMap V)) (rel : VRRelation V) :
    Attempt (RelationsMap V) :=
  match rel.relation with
  | .eq => addTransitiveEq add rel
  | .neq => Attempt.skip
  | .le => addTransitiveLe add rel
  | .lt => addTransitiveLt add rel
  | .ge => addTransitiveLe add rel.reverse
  | .gt => addTransitiveLt add rel.reverse

/-- `_addTransitive`; the loop gives up when the fuel is spent. -/
def addTransitive (fuel : Nat) (add : VRRelation V → Attempt (RelationsMap V))
    (rel : VRRelation V) : Attempt (RelationsMap V) :=
  Attempt.repeatWhile ((addTransitive1 add rel).andThen
    (match rel.relation with
    | .eq | .neq => Attempt.skip
    | _ => addTransitive1 add rel.reverse)) fuel

/-- `add`. The fuel bounds how deep the calls nest. -/
def add : Nat → VRRelation V → Attempt (RelationsMap V)
  | 0, _ => fun _ => none
  | fuel + 1, rel => fun m =>
      let r := m.insert rel
      let r' := if r.1.keepTransitivelyClosed then r.1.insert rel.reverse else (r.1, false)
      let ret := r.2 || r'.2
      if ret && r'.1.keepTransitivelyClosed then
        (addTransitive fuel (add fuel) rel r'.1).map fun t => (t.1, ret)
      else some (r'.1, ret)

def transitivelyClose (fuel : Nat) (m : RelationsMap V) : Option (RelationsMap V) :=
  (Attempt.each (fun rel => add fuel rel.reverse) m.relations m).bind fun r =>
    (Attempt.repeatWhile (fun m => Attempt.each (addTransitive fuel (add fuel)) m.relations m)
      fuel r.1).map Prod.fst

/-- An empty map, to which the relations are added in order. -/
def addAll (keep : Bool) (fuel : Nat) (rels : List (VRRelation V)) : Option (RelationsMap V) :=
  (Attempt.each (add fuel) rels ⟨keep, []⟩).map Prod.fst

/-- Calls of `transitivelyClose`. -/
def closeTimes (fuel : Nat) : Nat → RelationsMap V → Option (RelationsMap V)
  | 0, m => some m
  | n + 1, m => (closeTimes fuel n m).bind (transitivelyClose fuel)

end RelationsMap

end Cape.ValueRelations
