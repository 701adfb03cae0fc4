import Cape.ValueRelations.EqualityMap
import Cape.ValueRelations.Relations

/-!
# The analysis of value relations

Every location of the graph of a function has the equalities, the relations and the reads that are
known there. `run` collects them along the edges, location by location, until a round over all
locations reports no change.

What the analysis asks about a value of the program is its kind with the operands (`ValueKind`) and
the answers of the IR library (`Values`). The maps of a source are read before those of the target
are written, where the two locations differ; the edge of an instruction never leads back to its
source.
-/

set_option autoImplicit false

namespace Cape.ValueRelations

open Cape.Library

variable {V : Type}

/-- What the analysis tells the values of the program apart by. -/
inductive ValueKind (V : Type) where
  | argument
  | constant
  | constantInt (value : Int)
  | alloca
  | load (pointer : V)
  | store (value pointer : V)
  | getElementPtr (pointer : V) (hasAllZeroIndices : Bool)
  | zext (operand : V)
  | sext (operand : V)
  /-- Any other cast; lossless or without effect on the bits, or neither. -/
  | cast (operand : V) (isNoop : Bool)
  | add (lhs rhs : V)
  | sub (lhs rhs : V)
  | mul (lhs rhs : V)
  /-- Any other binary operator. -/
  | binary (lhs rhs : V)
  /-- A call, of one of the intrinsics for lifetimes, the stack and debugging, or another one. -/
  | call (isIgnored : Bool)
  | other
  deriving DecidableEq

/-- The operands of casts and of binary operators. -/
def ValueKind.operands : ValueKind V → List V
  | .zext v | .sext v | .cast v _ => [v]
  | .add l r | .sub l r | .mul l r | .binary l r => [l, r]
  | _ => []

/-- The values of a module, with what `initializeFixed` has found out about them. Operands of casts
and binary operators do not nest without end. -/
structure Values (V : Type) where
  kind : V → ValueKind V
  stripPointerCasts : V → V
  /-- `mayWriteToMemory() || mayHaveSideEffects()` -/
  mayHaveEffects : V → Bool
  fixedMemory : V → Bool
  fixedValues : V → Bool
  depth : V → Nat
  depth_operand : ∀ v, ∀ w ∈ (kind v).operands, depth w < depth v

structure Facts (V : Type) where
  equalities : EqualityMap V
  relations : RelationsMap V
  reads : ReadsMap V
  deriving DecidableEq

namespace Facts

def empty : Facts V := ⟨EqualityMap.empty, ⟨false, []⟩, []⟩

variable [LinearOrder V]

def addEquality (a b : V) : Attempt (Facts V) := fun facts =>
  some ({ facts with equalities := (facts.equalities.add a b).1 }, (facts.equalities.add a b).2)

/-- `RelationsMap::add`; the maps of locations are not kept transitively closed. -/
def addRelation (rel : VRRelation V) : Attempt (Facts V) := fun facts =>
  some ({ facts with relations := (facts.relations.insert rel).1 }, (facts.relations.insert rel).2)

def addRead (p v : V) : Attempt (Facts V) := fun facts =>
  some ({ facts with reads := (facts.reads.add p v).1 }, (facts.reads.add p v).2)

end Facts

namespace Values

variable [LinearOrder V] (M : Values V)

open Facts Attempt

def isAlloca (v : V) : Bool := M.kind v == .alloca

/-- The value is equal to an alloca. -/
def hasAlias (v : V) (E : EqualityMap V) : Bool := ((E.get v).getD []).any M.isAlloca

/-- The pointer of a `getelementptr` that is an alloca or equal to one. -/
def allocaBase (v : V) (E : EqualityMap V) : Option V :=
  match M.kind v with
  | .getElementPtr p _ => if M.isAlloca p || M.hasAlias p E then some p else none
  | _ => none

/-! ## Gen -/

/-- What was read from the pointer, or else from the first of the values equal to it. -/
def knownRead (source : Facts V) (p : V) : Option V :=
  match source.reads.get p with
  | some v => some v
  | none => ((source.equalities.get p).getD []).findSome? source.reads.get

def loadGen (I p : V) (source : Facts V) : Attempt (Facts V) :=
  match knownRead source p with
  | none => addRead p I
  | some v => addEquality I v

def gepGen (I p : V) (hasAllZeroIndices : Bool) : Attempt (Facts V) :=
  if hasAllZeroIndices then addEquality I p else skip

/-- The operand that is no constant, and the constant. `C1` and `C2` are the casts of the operands
to a constant: the first one is null where there is an answer. -/
def getOperationWithConst (l r : V) : Option V × Int :=
  let constant v := match M.kind v with
    | .constantInt c => some (v, c)
    | _ => none
  match constant l, constant r with
  | none, none => (none, 0)
  | some _, some _ => (none, 0)
  | some (_, c), none => (none, c)
  | none, some (_, c) => (none, c)

/-- Run without a report. -/
def silently (f : Attempt (Facts V)) : Attempt (Facts V) := fun facts =>
  (f facts).map fun r => (r.1, false)

/-- `plusGen` and `minusGen`: `inverse` gives the operands of the operators that undo this one. -/
def shiftGen (inverse : V → Option (V × V)) (up down : VRRelationType) (I l r : V)
    (source : Facts V) : Attempt (Facts V) :=
  match M.getOperationWithConst l r with
  | (none, _) => skip
  | (some v, c) =>
      (each (fun eq => match inverse eq with
        | none => skip
        | some (l', r') => match M.getOperationWithConst l' r' with
          | (some w, d) => if d = c then silently (addEquality w I) else skip
          | (none, _) => skip) ((source.equalities.get v).getD [])).andThen
        (if c > 0 then addRelation ⟨up, I, v⟩
        else if c = 0 then addRelation ⟨.eq, I, v⟩
        else addRelation ⟨down, I, v⟩)

def plusGen (I l r : V) (source : Facts V) : Attempt (Facts V) :=
  M.shiftGen (fun eq => match M.kind eq with
    | .sub l r => some (l, r)
    | _ => none) .gt .lt I l r source

def minusGen (I l r : V) (source : Facts V) : Attempt (Facts V) :=
  M.shiftGen (fun eq => match M.kind eq with
    | .add l r => some (l, r)
    | _ => none) .lt .gt I l r source

def mulGen (I l r : V) : Attempt (Facts V) :=
  match M.getOperationWithConst l r with
  | (none, _) => skip
  | (some v, c) => if c = 1 then addEquality I v else skip

def instructionGen (I : V) (source : Facts V) : Attempt (Facts V) :=
  match M.kind I with
  | .store v p => addRead (M.stripPointerCasts p) v
  | .load p => loadGen I p source
  | .getElementPtr p hasAllZeroIndices => gepGen I p hasAllZeroIndices
  | .zext v | .sext v => addEquality I v
  | .add l r => M.plusGen I l r source
  | .sub l r => M.minusGen I l r source
  | .mul l r => M.mulGen I l r
  | .cast v true => addEquality I v
  | _ => skip

/-! ## Kill -/

/-- The memory that a store through the pointer writes: all of the alloca behind an offset. -/
def writtenMem (p : V) (E : EqualityMap V) : V :=
  (M.allocaBase (M.stripPointerCasts p) E).getD (M.stripPointerCasts p)

/-- The reads that are overwritten, and whether all are. `E` has the equalities of the target, with
the ones that were generated. -/
def instructionKills (I : V) (E : EqualityMap V) (source : Facts V) : List V × Bool :=
  match M.kind I with
  | .store _ p =>
      let written := M.writtenMem p E
      if M.isAlloca written || M.hasAlias written E then
        (written :: (source.equalities.get written).getD [] ++
          (source.reads.map Prod.fst).filter fun q =>
            !M.isAlloca q && !M.hasAlias q E && (M.allocaBase q E).isNone, false)
      else ([], true)
  | .call true => ([], false)
  | _ => ([], M.mayHaveEffects I)

/-! ## Merge -/

/-- `mightBeChanged` for values whose operands nest less deeply than that. -/
def changesWithin : Nat → V → Bool
  | 0, _ => true
  | depth + 1, v =>
      match M.kind v with
      | .load p => !M.fixedMemory p
      | .argument | .constant | .constantInt _ => false
      | .zext w | .sext w | .cast w _ => changesWithin depth w
      | .add l r | .sub l r | .mul l r | .binary l r => changesWithin depth l || changesWithin depth r
      | _ => !M.fixedMemory v && !M.fixedValues v

/-- Values that may be others after a join. -/
def mightBeChanged (v : V) : Bool := M.changesWithin (M.depth v + 1) v

omit [LinearOrder V] in
theorem changesWithin_eq : ∀ {depth : Nat} {v : V}, M.depth v < depth →
    M.changesWithin depth v = M.mightBeChanged v := by
  -- any two bounds that are large enough give one answer
  have hsame : ∀ (m n : Nat) (v : V), M.depth v < m → M.depth v < n →
      M.changesWithin m v = M.changesWithin n v := by
    intro m
    induction m with
    | zero => exact fun _ _ h => absurd h (Nat.not_lt_zero _)
    | succ m ih =>
        intro n v hm hn
        cases n with
        | zero => exact absurd hn (Nat.not_lt_zero _)
        | succ n =>
            have hoperand : ∀ w ∈ (M.kind v).operands,
                M.changesWithin m w = M.changesWithin n w := by
              intro w hw
              have hlt := M.depth_operand v w hw
              exact ih n w (by omega) (by omega)
            simp only [changesWithin]
            cases hkind : M.kind v <;> simp only [hkind, ValueKind.operands, List.mem_cons,
              List.not_mem_nil, or_false, forall_eq_or_imp, forall_eq, false_implies,
              implies_true] at hoperand ⊢ <;> simp [hoperand]
  intro depth v h
  exact hsame _ _ v h (Nat.lt_succ_self _)

omit [LinearOrder V] in
/-- The recursion of the source. -/
theorem mightBeChanged_eq (v : V) : M.mightBeChanged v =
    match M.kind v with
    | .load p => !M.fixedMemory p
    | .argument | .constant | .constantInt _ => false
    | .zext w | .sext w | .cast w _ => M.mightBeChanged w
    | .add l r | .sub l r | .mul l r | .binary l r => M.mightBeChanged l || M.mightBeChanged r
    | _ => !M.fixedMemory v && !M.fixedValues v := by
  have hoperand : ∀ w ∈ (M.kind v).operands,
      M.changesWithin (M.depth v) w = M.mightBeChanged w :=
    fun w hw => M.changesWithin_eq (M.depth_operand v w hw)
  rw [show M.mightBeChanged v = M.changesWithin (M.depth v + 1) v from rfl, changesWithin]
  cases hkind : M.kind v <;> simp only [hkind, ValueKind.operands, List.mem_cons,
    List.not_mem_nil, or_false, forall_eq_or_imp, forall_eq, false_implies,
    implies_true] at hoperand ⊢ <;> simp [hoperand]

/-- Reads of fixed memory are kept after a join; a second one gives an equality. -/
def mergeReads (source : Facts V) : Attempt (Facts V) :=
  each (fun read facts =>
    if M.fixedMemory read.1 && !M.mightBeChanged read.2 then
      match facts.reads.get read.1 with
      | some r => addEquality r read.2 facts
      | none => addRead read.1 read.2 facts
    else skip facts) source.reads

def addLoadFromEq (v w : V) : Attempt (Facts V) :=
  match M.kind v with
  | .load p => fun facts =>
      match facts.reads.get p with
      | some r => addEquality r w facts
      | none => addRead p w facts
  | _ => skip

def mergeEqualities (source : Facts V) : Attempt (Facts V) :=
  each (fun pair =>
    if M.mightBeChanged pair.1 || M.mightBeChanged pair.2 then skip
    else (addEquality pair.1 pair.2).andThen
      ((M.addLoadFromEq pair.1 pair.2).andThen (M.addLoadFromEq pair.2 pair.1)))
    source.equalities.pairs

end Values

/-! ## Collect -/

open Facts Attempt in
/-- What a source passes on over an edge, but for the reads that are killed. -/
def mergeSource [LinearOrder V] (kills : List V × Bool) (source : Facts V) : Attempt (Facts V) :=
  (each (fun pair => addEquality pair.1 pair.2) source.equalities.pairs).andThen
    ((each addRelation source.relations.relations).andThen
      (if kills.2 then skip
      else each (fun read => addRead read.1 read.2)
        (source.reads.filter fun read => read.1 ∉ kills.1)))

/-- `VROp` -/
inductive VROp (V : Type) where
  | instruction (I : V)
  | assume (relations : List (VRRelation V))
  | noop

structure VREdge (V Loc : Type) where
  source : Loc
  op : VROp V

/-- The locations in the order in which `run` goes over them. An instruction has a location of its
own behind it. -/
structure FunctionGraph (V Loc : Type) where
  locations : List Loc
  predecessors : Loc → List (VREdge V Loc)
  mem_locations : ∀ loc, loc ∈ locations
  source_ne : ∀ loc, ∀ edge ∈ predecessors loc, ∀ I, edge.op = .instruction I → edge.source ≠ loc

namespace FunctionGraph

open Facts Attempt

variable [LinearOrder V] {Loc : Type} [DecidableEq Loc] (M : Values V) (graph : FunctionGraph V Loc)

/-- The facts at the source of an edge to `loc`, where `facts` are those at `loc` by now. -/
def sourceFacts (state : Loc → Facts V) (loc : Loc) (edge : VREdge V Loc) (facts : Facts V) :
    Facts V :=
  if edge.source = loc then facts else state edge.source

omit [DecidableEq Loc] in
/-- `collect` over the edge from a single predecessor. -/
def collectEdge (op : VROp V) (source : Facts V) : Attempt (Facts V) :=
  match op with
  | .assume relations => (each addRelation relations).andThen (mergeSource ([], false) source)
  | .instruction I => (M.instructionGen I source).andThen fun facts =>
      mergeSource (M.instructionKills I facts.equalities source) source facts
  | .noop => mergeSource ([], false) source

/-- `mergePredecessors` -/
def mergePredecessors (state : Loc → Facts V) (loc : Loc) : List (VREdge V Loc) →
    Attempt (Facts V) :=
  each fun edge => andThen (fun facts => M.mergeReads (sourceFacts state loc edge facts) facts)
    fun facts => M.mergeEqualities (sourceFacts state loc edge facts) facts

/-- `collect` -/
def collect (loc : Loc) : Attempt (Loc → Facts V) := fun state =>
  ((match graph.predecessors loc with
    | [] => skip
    | [edge] => fun facts => collectEdge M edge.op (sourceFacts state loc edge facts) facts
    | edges => mergePredecessors M state loc edges : Attempt (Facts V)) (state loc)).map
      fun r => (Function.update state loc r.1, r.2)

/-- One round over all locations. -/
def round : Attempt (Loc → Facts V) := each (collect M graph) graph.locations

/-- `run` without a bound on the iterations; gives up when the fuel is spent. -/
def run (fuel : Nat) : Attempt (Loc → Facts V) := repeatWhile (round M graph) fuel

end FunctionGraph

end Cape.ValueRelations
