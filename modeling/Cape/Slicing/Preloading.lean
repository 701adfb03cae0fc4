import Cape.Slicing.Instrumentation

/-!
# What an access has to preload

`handlePreloadingForSensitiveAccesses` goes through the points-to sets of the operands of an access
and collects the global variables, the `alloca`s and the `malloc`s it may touch. An allocation gets
a buffer id the first time; the calls that tell the runtime about it are inserted then.

A secret global or a string constant ends the whole enumeration, so what is collected depends on the
order of the targets: `collectsAll_iff` for one order, and for all orders of the same sets.
-/

set_option autoImplicit false
set_option linter.unusedSectionVars false

namespace Cape.Slicing

/-- `StringRef::contains`. -/
def contains (name sub : String) : Bool := decide (sub.toList <:+: name.toList)

/-- An `insert` into one of the three sets `allocs`, `mallocs` and `globals`, with the object it is
made for. -/
inductive Preload (T : Type) where
  | alloc (target : T) (bid : Nat)
  | malloc (target : T) (bid : Nat)
  | global (gv : GlobalVariable)
  deriving DecidableEq

/-- The set `allocs`. -/
def allocs {T : Type} (log : List (Preload T)) : List Nat :=
  log.filterMap fun p => match p with | .alloc _ bid => some bid | _ => none

/-- The set `mallocs`. -/
def mallocs {T : Type} (log : List (Preload T)) : List Nat :=
  log.filterMap fun p => match p with | .malloc _ bid => some bid | _ => none

/-- The set `globals`. -/
def globals {T : Type} (log : List (Preload T)) : List GlobalVariable :=
  log.filterMap fun p => match p with | .global gv => some gv | _ => none

namespace DependenceGraph

variable {N B F T : Type} [DecidableEq N] [DecidableEq T] (G : DependenceGraph N B F T)

/-! ## The code -/

/-- `getFuncRet`: the first return of the function a block belongs to. -/
def getFuncRet (b : B) : Option N :=
  ((G.functionBlocks (G.functionName b)).flatMap G.nodes).find? fun n => (G.key n).isReturn

/-- `dg->getNode(vl)` for the graph of the access. -/
def localNode (access v : N) : Option N := (G.dg access).bind fun dg => G.getNode dg v

/-- `++allocId`, 32 bits wide. -/
def nextId (s : State N B T) : Nat := (s.allocId + 1) % 2 ^ 32

/-- The buffer id of an `alloca`. The first time it is a new one, and the calls that push the buffer
behind the allocation and pop it before a return of its function are inserted. -/
def bufferAlloca (s : State N B T) (target : T) (ai : N) : State N B T :=
  if 0 < s.bufferId target then s
  else
    let bid := nextId s
    let s : State N B T :=
      { s with allocId := bid, bufferId := Function.update s.bufferId target bid }
    let s := s.insertAfter (.node ai) (.pushAllocStack bid ai)
    match (G.bblock ai).bind G.getFuncRet with
    | none => s
    | some ret => s.insertBefore (.node ret) (.popAllocStack bid)

/-- The buffer id of a `malloc`. The first time it is a new one, and the call that inserts the buffer
behind the allocation is inserted. -/
def bufferMalloc (s : State N B T) (target : T) (ci : N) : State N B T :=
  if 0 < s.bufferId target then s
  else
    let bid := nextId s
    let s : State N B T :=
      { s with allocId := bid, bufferId := Function.update s.bufferId target bid }
    s.insertAfter (.node ci) (.insertMallocSet bid ci)

/-- Mark a `malloc` of the function of the access. -/
def markLocal (access : N) (sliceId : Nat) (s : State N B T) (v : N) : State N B T :=
  match G.localNode access v with
  | some g => s.setNodeSlice g (sliceId + 2)
  | none => s

/-- A target at which the function returns: a secret global or a string constant. -/
def stops (target : T) : Bool :=
  match G.userData target with
  | .globalVariable gv =>
      !contains gv.name "ecc_sets" && (gv.isSecret || contains gv.name ".str.")
  | _ => false

/-- The body of the loop over the targets, for a target at which the function does not return. -/
def handleTarget (access : N) (sliceId : Nat) (s : State N B T) (target : T) :
    State N B T × List (Preload T) :=
  match G.userData target with
  | .null => (s, [])
  | .globalVariable gv =>
      if contains gv.name "ecc_sets" then (s, []) else (s, [.global gv])
  | .instruction v =>
      if G.key v = .instruction .alloca then
        match G.localNode access v with
        -- a local is marked and not preloaded
        | some g => (s.setNodeSlice g (sliceId + 2), [])
        | none =>
            let s := G.bufferAlloca s target v
            (s, [.alloc target (s.bufferId target)])
      else if G.key v = .instruction (.call (some "malloc")) then
        let s := bufferMalloc (G.markLocal access sliceId s v) target v
        (s, [.malloc target (s.bufferId target)])
      else (s, [])
  | .other => (s, [])

/-- The loops over operands and targets, which are left together at a target that `stops`. -/
def handleTargets (access : N) (sliceId : Nat) : List T → State N B T →
    State N B T × List (Preload T)
  | [], s => (s, [])
  | target :: rest, s =>
      if G.stops target then (s, [])
      else
        let r := G.handleTarget access sliceId s target
        let r' := handleTargets access sliceId rest r.1
        (r'.1, r.2 ++ r'.2)

/-- `vect`: the operands that are looked at. -/
def operands (opIdx : Nat) : List Nat := if opIdx ≤ 1 then [opIdx] else [0, 1]

/-- `handlePreloadingForSensitiveAccesses` when the points-to set of each operand is enumerated in
the given order. -/
def handlePreloading (access : N) (sliceId opIdx : Nat) (order : Nat → List T) (s : State N B T) :
    State N B T × List (Preload T) :=
  G.handleTargets access sliceId ((operands opIdx).flatMap order) s

/-! ## What should be collected -/

/-- Global variables, `alloca`s and calls of `malloc`, but for the secret global, string constants,
`ecc_sets` globals and the `alloca`s of the function of the access. -/
def ToPreload (access : N) (target : T) : Prop :=
  match G.userData target with
  | .globalVariable gv =>
      ¬ gv.isSecret ∧ ¬ contains gv.name ".str." ∧ ¬ contains gv.name "ecc_sets"
  | .instruction v =>
      (G.key v = .instruction .alloca ∧ G.localNode access v = none) ∨
        G.key v = .instruction (.call (some "malloc"))
  | _ => False

/-- The target's object was inserted into the set for its kind. -/
def Collected (log : List (Preload T)) (target : T) : Prop :=
  match G.userData target with
  | .globalVariable gv => .global gv ∈ log
  | .instruction v =>
      if G.key v = .instruction .alloca then ∃ bid, .alloc target bid ∈ log
      else ∃ bid, .malloc target bid ∈ log
  | _ => False

/-- The access collects everything it should. -/
def CollectsAll (access : N) (sliceId opIdx : Nat) (order : Nat → List T) (s : State N B T) : Prop :=
  ∀ target ∈ (operands opIdx).flatMap order, G.ToPreload access target →
    G.Collected (G.handlePreloading access sliceId opIdx order s).2 target

/-- The same object: the same target, or targets with the same global variable. -/
def SameObject (target target' : T) : Prop :=
  target = target' ∨
    ∃ gv, G.userData target = .globalVariable gv ∧ G.userData target' = .globalVariable gv

/-- Everything that should be collected is enumerated before the first target that stops. -/
def BeforeStop (access : N) (opIdx : Nat) (order : Nat → List T) : Prop :=
  ∀ target ∈ (operands opIdx).flatMap order, G.ToPreload access target →
    ∃ target' ∈ ((operands opIdx).flatMap order).takeWhile (fun t => !G.stops t),
      G.SameObject target target'

/-- Everything that should be collected is pointed to by an operand before the first operand with a
target that stops. -/
def BeforeStopOperand (access : N) (opIdx : Nat) (order : Nat → List T) : Prop :=
  ∀ target ∈ (operands opIdx).flatMap order, G.ToPreload access target →
    ∃ target' ∈ ((operands opIdx).takeWhile fun i => !(order i).any G.stops).flatMap order,
      G.SameObject target target'

/-! ## One target -/

section Collect

variable {G}

theorem not_collected_nil (target : T) : ¬ G.Collected [] target := by
  rw [Collected]
  split
  · exact List.not_mem_nil
  · split
    · rintro ⟨bid, h⟩
      cases h
    · rintro ⟨bid, h⟩
      cases h
  · exact fun h => h

theorem collected_append (l l' : List (Preload T)) (target : T) :
    G.Collected (l ++ l') target ↔ G.Collected l target ∨ G.Collected l' target := by
  unfold Collected
  split
  · exact List.mem_append
  · split
    · simp only [List.mem_append, exists_or]
    · simp only [List.mem_append, exists_or]
  · simp

/-- What handling a target inserts: its own object, into the set for its kind. -/
theorem of_mem_handleTarget {access : N} {sliceId : Nat} {s : State N B T} {target : T}
    {p : Preload T} (hp : p ∈ (G.handleTarget access sliceId s target).2) :
    (∃ gv, G.userData target = .globalVariable gv ∧ p = .global gv) ∨
      (∃ v bid, G.userData target = .instruction v ∧ G.key v = .instruction .alloca ∧
        p = .alloc target bid) ∨
      ∃ v bid, G.userData target = .instruction v ∧
        G.key v = .instruction (.call (some "malloc")) ∧ p = .malloc target bid := by
  rw [handleTarget] at hp
  split at hp
  · cases hp
  · next gv hdata =>
      split at hp
      · cases hp
      · exact Or.inl ⟨gv, hdata, List.mem_singleton.1 hp⟩
  · next v hdata =>
      split at hp
      · next hkey =>
          split at hp
          · cases hp
          · exact Or.inr (Or.inl ⟨v, _, hdata, hkey, List.mem_singleton.1 hp⟩)
      · split at hp
        · next hkey => exact Or.inr (Or.inr ⟨v, _, hdata, hkey, List.mem_singleton.1 hp⟩)
        · cases hp
  · cases hp

theorem sameObject_of_collected {access : N} {sliceId : Nat} {s : State N B T} {target t : T}
    (h : G.Collected (G.handleTarget access sliceId s target).2 t) : G.SameObject t target := by
  rw [Collected] at h
  split at h
  · next gv hgv =>
      rcases of_mem_handleTarget h with ⟨gv', hgv', heq⟩ | ⟨_, _, _, _, heq⟩ | ⟨_, _, _, _, heq⟩
      · cases heq
        exact Or.inr ⟨gv, hgv, hgv'⟩
      · cases heq
      · cases heq
  · split at h
    · obtain ⟨bid, h⟩ := h
      rcases of_mem_handleTarget h with ⟨_, _, heq⟩ | ⟨_, _, _, _, heq⟩ | ⟨_, _, _, _, heq⟩
      · cases heq
      · cases heq
        exact Or.inl rfl
      · cases heq
    · obtain ⟨bid, h⟩ := h
      rcases of_mem_handleTarget h with ⟨_, _, heq⟩ | ⟨_, _, _, _, heq⟩ | ⟨_, _, _, _, heq⟩
      · cases heq
      · cases heq
      · cases heq
        exact Or.inl rfl
  · exact h.elim

/-- A target that is to be preloaded is collected by handling a target with the same object. -/
theorem collected_handleTarget {access : N} {sliceId : Nat} {s : State N B T} {target t : T}
    (ht : G.ToPreload access t) :
    G.Collected (G.handleTarget access sliceId s target).2 t ↔ G.SameObject t target := by
  constructor
  · exact sameObject_of_collected
  · rintro (rfl | ⟨gv, hgv, hgv'⟩)
    · rw [ToPreload] at ht
      rw [Collected, handleTarget]
      cases hdata : G.userData t with
      | null => simp [hdata] at ht
      | other => simp [hdata] at ht
      | globalVariable gv =>
          simp only [hdata] at ht ⊢
          simp [ht.2.2]
      | instruction v =>
          simp only [hdata] at ht ⊢
          rcases ht with ⟨hkey, hlocal⟩ | hkey
          · simp [hkey, hlocal]
          · simp [hkey]
    · rw [ToPreload] at ht
      simp only [hgv] at ht
      simp [Collected, handleTarget, hgv, hgv', ht.2.2]

/-! ## All targets -/

/-- **Collected are the targets before the first one that stops.** -/
theorem collected_handleTargets {access : N} {sliceId : Nat} {t : T} (ht : G.ToPreload access t)
    (l : List T) : ∀ s : State N B T, G.Collected (G.handleTargets access sliceId l s).2 t ↔
      ∃ t' ∈ l.takeWhile (fun t => !G.stops t), G.SameObject t t' := by
  induction l with
  | nil =>
      intro s
      simp [handleTargets, not_collected_nil]
  | cons target rest ih =>
      intro s
      rw [handleTargets]
      cases hstop : G.stops target with
      | true => simp [hstop, not_collected_nil]
      | false =>
          simp only [hstop, Bool.false_eq_true, if_false, Bool.not_false, List.takeWhile_cons,
            if_true]
          rw [collected_append, collected_handleTarget ht, ih]
          simp only [List.mem_cons, exists_eq_or_imp]

theorem collectsAll_iff_beforeStop (access : N) (sliceId opIdx : Nat) (order : Nat → List T)
    (s : State N B T) :
    G.CollectsAll access sliceId opIdx order s ↔ G.BeforeStop access opIdx order := by
  rw [CollectsAll, BeforeStop, handlePreloading]
  refine forall_congr' fun target => forall_congr' fun _ => forall_congr' fun ht => ?_
  exact collected_handleTargets ht _ s

/-! ## All orders -/

/-- The targets of the operands before the first operand with a target that stops are enumerated
before the first target that stops. -/
theorem mem_takeWhile_of_operand {order : Nat → List T} {t : T} (ops : List Nat)
    (ht : t ∈ (ops.takeWhile fun i => !(order i).any G.stops).flatMap order) :
    t ∈ (ops.flatMap order).takeWhile fun t => !G.stops t := by
  induction ops with
  | nil => exact ht
  | cons i ops ih =>
      rw [List.takeWhile_cons] at ht
      split at ht
      · next hno =>
          rw [Bool.not_eq_true', List.any_eq_false] at hno
          rw [List.flatMap_cons, List.takeWhile_append_of_pos (by simpa using hno)]
          rw [List.flatMap_cons, List.mem_append] at ht
          rw [List.mem_append]
          exact ht.imp id ih
      · cases ht

/-- The order that enumerates the targets that stop first. -/
def stopsFirst (G : DependenceGraph N B F T) (order : Nat → List T) (i : Nat) : List T :=
  (order i).filter G.stops ++ (order i).filter fun t => !G.stops t

theorem perm_stopsFirst (order : Nat → List T) (i : Nat) :
    (G.stopsFirst order i).Perm (order i) :=
  List.filter_append_perm G.stops (order i)

theorem operand_of_mem_takeWhile {order : Nat → List T} {t : T} (ops : List Nat)
    (ht : t ∈ (ops.flatMap (G.stopsFirst order)).takeWhile fun t => !G.stops t) :
    t ∈ (ops.takeWhile fun i => !(order i).any G.stops).flatMap order := by
  induction ops with
  | nil => exact ht
  | cons i ops ih =>
      rw [List.flatMap_cons] at ht
      cases hany : (order i).any G.stops with
      | true =>
          -- the first target stops
          obtain ⟨x, hx, hstop⟩ := List.any_eq_true.1 hany
          obtain ⟨y, ys, hys⟩ := List.exists_cons_of_ne_nil
            (List.ne_nil_of_mem (List.mem_filter.2 ⟨hx, hstop⟩))
          have hy : G.stops y = true := (List.mem_filter.1 (hys ▸ List.mem_cons_self)).2
          rw [stopsFirst, hys] at ht
          simp [hy] at ht
      | false =>
          have hno : ∀ x ∈ G.stopsFirst order i, (!G.stops x) = true := by
            intro x hx
            have hx' := ((perm_stopsFirst order i).mem_iff).1 hx
            simpa using List.any_eq_false.1 hany x hx'
          rw [List.takeWhile_append_of_pos hno, List.mem_append] at ht
          rw [List.takeWhile_cons, hany]
          simp only [Bool.not_false, if_true, List.flatMap_cons, List.mem_append]
          exact ht.imp ((perm_stopsFirst order i).mem_iff).1 ih

/-- **When everything is collected**: in one order of the points-to sets, if and only if it is
enumerated before the first target that stops; in all orders, if and only if it is pointed to by an
operand before the first operand with a target that stops. -/
theorem collectsAll_iff (access : N) (sliceId opIdx : Nat) (order : Nat → List T)
    (s : State N B T) :
    (G.CollectsAll access sliceId opIdx order s ↔ G.BeforeStop access opIdx order) ∧
    ((∀ order' : Nat → List T, (∀ i, (order' i).Perm (order i)) →
        G.CollectsAll access sliceId opIdx order' s) ↔
      G.BeforeStopOperand access opIdx order) := by
  refine ⟨collectsAll_iff_beforeStop access sliceId opIdx order s, ?_⟩
  simp only [collectsAll_iff_beforeStop]
  constructor
  · intro hall t ht hpre
    have hmem : t ∈ (operands opIdx).flatMap (G.stopsFirst order) := by
      obtain ⟨i, hi, hti⟩ := List.mem_flatMap.1 ht
      exact List.mem_flatMap.2 ⟨i, hi, ((perm_stopsFirst order i).mem_iff).2 hti⟩
    obtain ⟨t', ht', hsame⟩ := hall _ (perm_stopsFirst order) t hmem hpre
    exact ⟨t', operand_of_mem_takeWhile _ ht', hsame⟩
  · intro hbefore order' hperm t ht hpre
    have hmem : t ∈ (operands opIdx).flatMap order := by
      obtain ⟨i, hi, hti⟩ := List.mem_flatMap.1 ht
      exact List.mem_flatMap.2 ⟨i, hi, ((hperm i).mem_iff).1 hti⟩
    obtain ⟨t', ht', hsame⟩ := hbefore t hmem hpre
    refine ⟨t', mem_takeWhile_of_operand _ ?_, hsame⟩
    obtain ⟨i, hi, hti⟩ := List.mem_flatMap.1 ht'
    have hany : (fun i => !(order' i).any G.stops) = fun i => !(order i).any G.stops := by
      funext i
      rw [List.any_eq, List.any_eq]
      simp only [(hperm i).mem_iff]
    rw [hany]
    exact List.mem_flatMap.2 ⟨i, hi, ((hperm i).mem_iff).2 hti⟩

end Collect

end DependenceGraph

/-! ## An object that is dropped -/

namespace StringFirst

/-- A load whose address points to a string constant and to a table. -/
def graph : DependenceGraph Unit Unit Unit Bool where
  key _ := .instruction .load
  nodes _ := [()]
  successors _ := []
  predecessors _ := []
  idom _ := none
  ipostdom _ := .root
  functionName _ := "main"
  functionBlocks _ := [()]
  bblock _ := some ()
  dg _ := some ()
  entry _ := none
  getNode _ _ := none
  control _ := []
  revControl _ := []
  data _ := []
  revData _ := []
  use _ := []
  user _ := []
  interference _ := []
  controlDependence _ := []
  revControlDependence _ := []
  userData
    | false => .globalVariable ⟨".str.1", false, 8⟩
    | true => .globalVariable ⟨"table", false, 1024⟩
  pointsTo _ _ := [false, true]

def state : State Unit Unit Bool := graph.source ⟨fun _ => 1, fun _ => 1⟩

/-- **The table is dropped when the string constant is enumerated first**, and collected when it is
enumerated last. -/
theorem not_collectsAll : ¬ graph.CollectsAll () 1 0 (fun _ => [false, true]) state ∧
    graph.CollectsAll () 1 0 (fun _ => [true, false]) state := by
  have hpre : graph.ToPreload () true := by
    show ¬ (false = true) ∧ ¬ contains "table" ".str." = true ∧ ¬ contains "table" "ecc_sets" = true
    decide
  have hempty : (graph.handlePreloading () 1 0 (fun _ => [false, true]) state).2 = [] := by decide
  constructor
  · intro hall
    have hcollected := hall true (by decide) hpre
    rw [hempty] at hcollected
    exact DependenceGraph.not_collected_nil true hcollected
  · intro target htarget ht
    cases target with
    | true =>
        show Preload.global _ ∈ (graph.handlePreloading () 1 0 (fun _ => [true, false]) state).2
        decide
    | false =>
        exfalso
        have hstr : ¬ contains ".str.1" ".str." = true := ht.2.1
        exact hstr (by decide)

end StringFirst

end Cape.Slicing
