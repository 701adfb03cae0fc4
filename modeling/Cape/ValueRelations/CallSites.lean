import Cape.Library.FinLiterals
import Cape.ValueRelations.Termination
import Mathlib.Data.Fin.VecNotation

/-!
# Relations passed from call sites

`passCallSiteRelations` writes to the entry of every function what is known at the calls that use it:
that the parameters are equal to the arguments and to all values equal to them, and the reads and
equalities of values that do not change.

All of this is written into one state. An equality at the entry afterwards is therefore claimed for
the executions from every call site, also where it comes from another one. They hold in an execution
exactly if what each of the calls passes on holds in it (`passCallSiteRelations_iff`).
-/

set_option autoImplicit false

namespace Cape.ValueRelations

open Cape.Library Attempt Facts

variable {V Loc Val : Type}

/-- A call instruction that uses a function: the location before it and its arguments. It may be that
the function is not called but an argument, which the source does not ask. -/
structure CallUse (V Loc : Type) where
  location : Loc
  operands : List V
  isCalled : Bool

/-- A function with a body, with the first location of its entry block. -/
structure DefinedFunction (V Loc : Type) where
  entry : Loc
  params : List V
  uses : List (CallUse V Loc)

/-- The functions of a module that have a body. -/
structure DefinedFunctions (V Loc : Type) where
  functions : List (DefinedFunction V Loc)
  nodup : (functions.map DefinedFunction.entry).Nodup

section Pass

variable [LinearOrder V] [DecidableEq Loc]

/-- The facts at a location, where `facts` are those at the entry by now. -/
def factsAt (state : Loc → Facts V) (entry loc : Loc) (facts : Facts V) : Facts V :=
  if loc = entry then facts else state loc

/-- A parameter is bound to an argument and to the values equal to it. -/
def bindArgument (state : Loc → Facts V) (entry : Loc) (use : CallUse V Loc) (pair : V × V) :
    Attempt (Facts V) :=
  (addEquality pair.1 pair.2).andThen fun facts =>
    each (addEquality pair.1)
      (((factsAt state entry use.location facts).equalities.get pair.2).getD []) facts

def bindArguments (state : Loc → Facts V) (F : DefinedFunction V Loc) : Attempt (Facts V) :=
  each (fun use => each (bindArgument state F.entry use) (F.params.zip use.operands)) F.uses

def mergeState (M : Values V) (state : Loc → Facts V) (entry : Loc) (use : CallUse V Loc) :
    Attempt (Facts V) :=
  andThen (fun facts => M.mergeReads (factsAt state entry use.location facts) facts)
    fun facts => M.mergeEqualities (factsAt state entry use.location facts) facts

/-- `mergeStates` of the locations of the calls. -/
def mergeStates (M : Values V) (state : Loc → Facts V) (entry : Loc) :
    List (CallUse V Loc) → Attempt (Facts V) :=
  each (mergeState M state entry)

/-- The turn of `passCallSiteRelations` for one function. -/
def passToEntry (M : Values V) (F : DefinedFunction V Loc) : Attempt (Loc → Facts V) := fun state =>
  ((bindArguments state F).andThen (mergeStates M state F.entry F.uses) (state F.entry)).map
    fun r => (Function.update state F.entry r.1, r.2)

def passCallSiteRelations (M : Values V) (mod : DefinedFunctions V Loc) :
    Attempt (Loc → Facts V) :=
  each (passToEntry M) mod.functions

end Pass

/-! ## What a merge adds -/

/-- An equality, or a read that gives an equality where the pointer has a read already. -/
inductive Addition (V : Type) where
  | equality (a b : V)
  | read (p v : V)

section Additions

variable [LinearOrder V] (M : Values V)

def Addition.perform : Addition V → Attempt (Facts V)
  | .equality a b => addEquality a b
  | .read p v => fun facts =>
      match facts.reads.get p with
      | some r => addEquality r v facts
      | none => addRead p v facts

/-- The reads of fixed memory, of values that do not change. -/
def readAdditions (source : Facts V) : List (Addition V) :=
  source.reads.flatMap fun read =>
    if M.fixedMemory read.1 && !M.mightBeChanged read.2 then [.read read.1 read.2] else []

def loadAdditions (v w : V) : List (Addition V) :=
  match M.kind v with
  | .load p => [.read p w]
  | _ => []

/-- The equalities of values that do not change, and what follows for the pointers of loads. -/
def equalityAdditions (source : Facts V) : List (Addition V) :=
  source.equalities.pairs.flatMap fun pair =>
    if M.mightBeChanged pair.1 || M.mightBeChanged pair.2 then []
    else .equality pair.1 pair.2 ::
      (loadAdditions M pair.1 pair.2 ++ loadAdditions M pair.2 pair.1)

theorem each_singleton (addition : Addition V) :
    each Addition.perform [addition] = addition.perform := by
  funext facts
  cases h : addition.perform facts <;> simp [each, andThen, skip, h]

theorem mergeReads_eq (source : Facts V) :
    M.mergeReads source = each Addition.perform (readAdditions M source) := by
  rw [readAdditions, each_flatMap, Values.mergeReads]
  congr 1
  funext read facts
  split
  · rw [each_singleton]
    rfl
  · rfl

theorem addLoadFromEq_eq (v w : V) :
    M.addLoadFromEq v w = each Addition.perform (loadAdditions M v w) := by
  cases hkind : M.kind v <;> simp only [Values.addLoadFromEq, loadAdditions, hkind]
  case load p =>
    rw [each_singleton]
    rfl
  all_goals rfl

theorem mergeEqualities_eq (source : Facts V) :
    M.mergeEqualities source = each Addition.perform (equalityAdditions M source) := by
  rw [equalityAdditions, each_flatMap, Values.mergeEqualities]
  congr 1
  funext pair
  split
  · rfl
  · rw [each, each_append, addLoadFromEq_eq, addLoadFromEq_eq]
    rfl

end Additions

/-! ## Executions -/

section Executions

variable [LinearOrder V] {ρ : V → Val}

/-- The values that are equal by these facts are equal in an execution. -/
def Holds (ρ : V → Val) (facts : Facts V) : Prop :=
  ∀ x y, facts.equalities.Same x y → ρ x = ρ y

/-- The value is passed on as read from the pointer, or the location has it for the pointer. -/
def Offered (additions : List (Addition V)) (facts : Facts V) (p v : V) : Prop :=
  facts.reads.get p = some v ∨ .read p v ∈ additions

/-- What is passed on holds in an execution: the equalities, and that all values for one pointer are
equal. -/
def AdditionsHold (ρ : V → Val) (additions : List (Addition V)) (facts : Facts V) : Prop :=
  (∀ a b, .equality a b ∈ additions → ρ a = ρ b) ∧
  ∀ p v w, Offered additions facts p v → Offered additions facts p w → ρ v = ρ w

/-- The parameter has the value of the argument and of all values that are equal to it. -/
def ArgumentHolds (ρ : V → Val) (source : Facts V) (pair : V × V) : Prop :=
  ρ pair.1 = ρ pair.2 ∧ ∀ eq, source.equalities.Same pair.2 eq → ρ pair.1 = ρ eq

theorem holds_addEquality {a b : V} {facts : Facts V} {r : Facts V × Bool}
    (h : addEquality a b facts = some r) : Holds ρ r.1 ↔ Holds ρ facts ∧ ρ a = ρ b := by
  obtain rfl := Option.some.inj h
  constructor
  · intro hall
    exact ⟨fun x y hxy => hall x y (EqualityMap.Same.add hxy a b),
      hall a b (EqualityMap.same_add_self _ a b)⟩
  · rintro ⟨hall, hab⟩ x y hxy
    exact EqualityMap.respects_add hall hab x y hxy

theorem additionsHold_nil {facts : Facts V} : AdditionsHold ρ [] facts := by
  refine ⟨fun a b h => absurd h List.not_mem_nil, fun p v w hv hw => ?_⟩
  have hget : ∀ {u}, Offered [] facts p u → facts.reads.get p = some u := fun hu =>
    hu.resolve_right List.not_mem_nil
  rw [Option.some.inj ((hget hv).symm.trans (hget hw))]

theorem additionsHold_equality {a b : V} {rest : List (Addition V)} {facts : Facts V} :
    AdditionsHold ρ (.equality a b :: rest) facts ↔ ρ a = ρ b ∧ AdditionsHold ρ rest facts := by
  have hoffered : ∀ p v, Offered (.equality a b :: rest) facts p v ↔ Offered rest facts p v := by
    intro p v
    simp [Offered]
  simp only [AdditionsHold, hoffered, List.mem_cons, Addition.equality.injEq]
  constructor
  · rintro ⟨hequalities, hreads⟩
    exact ⟨hequalities a b (Or.inl ⟨rfl, rfl⟩), fun x y h => hequalities x y (Or.inr h), hreads⟩
  · rintro ⟨hab, hequalities, hreads⟩
    refine ⟨fun x y h => ?_, hreads⟩
    rcases h with ⟨rfl, rfl⟩ | h
    · exact hab
    · exact hequalities x y h

/-- A read for a pointer that has one: the two values are equal. -/
theorem additionsHold_read_of_some {p u v : V} {rest : List (Addition V)} {facts : Facts V}
    (h : facts.reads.get p = some u) :
    AdditionsHold ρ (.read p v :: rest) facts ↔ ρ u = ρ v ∧ AdditionsHold ρ rest facts := by
  have hoffered : ∀ q w, Offered (.read p v :: rest) facts q w ↔
      (q = p ∧ w = v) ∨ Offered rest facts q w := by
    intro q w
    simp only [Offered, List.mem_cons, Addition.read.injEq]
    tauto
  have hu : Offered rest facts p u := Or.inl h
  constructor
  · rintro ⟨hequalities, hreads⟩
    refine ⟨hreads p u v ((hoffered p u).2 (Or.inr hu)) ((hoffered p v).2 (Or.inl ⟨rfl, rfl⟩)),
      fun a b hab => hequalities a b (List.mem_cons_of_mem _ hab), fun q w w' hw hw' => ?_⟩
    exact hreads q w w' ((hoffered q w).2 (Or.inr hw)) ((hoffered q w').2 (Or.inr hw'))
  · rintro ⟨huv, hequalities, hreads⟩
    refine ⟨fun a b hab => hequalities a b (by simpa using hab), fun q w w' hw hw' => ?_⟩
    -- the new value stands for the one that the pointer has
    rcases (hoffered q w).1 hw with ⟨rfl, rfl⟩ | hrest <;>
      rcases (hoffered q w').1 hw' with ⟨hq, rfl⟩ | hrest'
    · rfl
    · rw [← huv, hreads q u w' hu hrest']
    · rw [← huv, hreads q w u hrest (hq ▸ hu)]
    · exact hreads q w w' hrest hrest'

/-- A read for a pointer that has none becomes its read. -/
theorem additionsHold_read_of_none {p v : V} {rest : List (Addition V)} {facts : Facts V}
    (h : facts.reads.get p = none) :
    AdditionsHold ρ (.read p v :: rest) facts ↔
      AdditionsHold ρ rest { facts with reads := (facts.reads.add p v).1 } := by
  have hoffered : ∀ q w, Offered (.read p v :: rest) facts q w ↔
      Offered rest { facts with reads := (facts.reads.add p v).1 } q w := by
    intro q w
    simp only [Offered, ReadsMap.get_add, List.mem_cons, Addition.read.injEq]
    by_cases hq : q = p
    · subst hq
      simp only [h, reduceCtorEq, true_and, false_or, if_true, Option.some.injEq, eq_comm]
    · simp [hq]
  simp [AdditionsHold, hoffered]

/-- **The additions of a merge**: the equalities that result hold exactly if those before do and what
is added does. -/
theorem holds_additions {additions : List (Addition V)} {facts : Facts V} {r : Facts V × Bool}
    (h : each Addition.perform additions facts = some r) :
    Holds ρ r.1 ↔ Holds ρ facts ∧ AdditionsHold ρ additions facts := by
  induction additions generalizing facts r with
  | nil =>
      obtain rfl := Option.some.inj h
      exact (and_iff_left additionsHold_nil).symm
  | cons addition rest ih =>
      simp only [each, andThen, Option.bind_eq_some_iff, Option.map_eq_some_iff] at h
      obtain ⟨r₁, h₁, r₂, h₂, rfl⟩ := h
      rw [ih h₂]
      cases addition with
      | equality a b =>
          rw [holds_addEquality h₁, additionsHold_equality, and_assoc]
          obtain rfl := Option.some.inj h₁
          rfl
      | read p v =>
          simp only [Addition.perform] at h₁
          split at h₁
          · next u hget =>
              rw [holds_addEquality h₁, additionsHold_read_of_some hget, and_assoc]
              obtain rfl := Option.some.inj h₁
              rfl
          · next hget =>
              rw [additionsHold_read_of_none hget]
              obtain rfl := Option.some.inj h₁
              rfl

theorem holds_eachEquality {a : V} {l : List V} {facts : Facts V} {r : Facts V × Bool}
    (h : each (addEquality a) l facts = some r) :
    Holds ρ r.1 ↔ Holds ρ facts ∧ ∀ b ∈ l, ρ a = ρ b :=
  each_iff_forall (fun _ _ _ _ hstep => holds_addEquality hstep) h

end Executions

/-! ## The pass -/

section Exactness

variable [LinearOrder V] [DecidableEq Loc] {ρ : V → Val}

theorem holds_bindArgument {state : Loc → Facts V} {entry : Loc} {use : CallUse V Loc} {pair : V × V}
    {facts : Facts V} {r : Facts V × Bool}
    (h : bindArgument state entry use pair facts = some r) :
    Holds ρ r.1 ↔ Holds ρ facts ∧
      ArgumentHolds ρ (factsAt state entry use.location facts) pair := by
  simp only [bindArgument, andThen, Option.bind_eq_some_iff, Option.map_eq_some_iff] at h
  obtain ⟨r₁, h₁, r₂, h₂, rfl⟩ := h
  rw [holds_eachEquality h₂, holds_addEquality h₁, and_assoc, ArgumentHolds]
  refine and_congr_right fun hfacts => and_congr_right fun harg => ?_
  simp only [EqualityMap.mem_class]
  by_cases hloc : use.location = entry
  · -- the call is the first instruction of the function: its facts are those that are written to
    have hargument : ∀ source, Holds ρ source → ∀ b, source.equalities.Same pair.2 b →
        ρ pair.1 = ρ b := fun source hsource b hb => harg.trans (hsource _ _ hb)
    simp only [factsAt, if_pos hloc]
    exact iff_of_true (hargument _ ((holds_addEquality h₁).2 ⟨hfacts, harg⟩))
      (hargument _ hfacts)
  · simp only [factsAt, if_neg hloc]

/-- What the call passes on by its arguments holds. -/
def ArgumentsHold (ρ : V → Val) (state : Loc → Facts V) (F : DefinedFunction V Loc)
    (use : CallUse V Loc) : Facts V → Prop :=
  Along (fun pair facts => ArgumentHolds ρ (factsAt state F.entry use.location facts) pair)
    (bindArgument state F.entry use) (F.params.zip use.operands)

/-- What the call passes on by the merge holds. -/
def MergeHolds (M : Values V) (ρ : V → Val) (state : Loc → Facts V) (F : DefinedFunction V Loc)
    (use : CallUse V Loc) (facts : Facts V) : Prop :=
  AdditionsHold ρ (readAdditions M (factsAt state F.entry use.location facts)) facts ∧
    ∀ r, M.mergeReads (factsAt state F.entry use.location facts) facts = some r →
      AdditionsHold ρ (equalityAdditions M (factsAt state F.entry use.location r.1)) r.1

/-- What each of the calls passes on holds in an execution. -/
def CallSitesHold (M : Values V) (ρ : V → Val) (state : Loc → Facts V)
    (F : DefinedFunction V Loc) : Prop :=
  Along (ArgumentsHold ρ state F)
    (fun use => each (bindArgument state F.entry use) (F.params.zip use.operands)) F.uses
    (state F.entry) ∧
  ∀ r, bindArguments state F (state F.entry) = some r →
    Along (MergeHolds M ρ state F) (mergeState M state F.entry) F.uses r.1

theorem holds_mergeState {M : Values V} {state : Loc → Facts V} {F : DefinedFunction V Loc}
    {use : CallUse V Loc} {facts : Facts V} {r : Facts V × Bool}
    (h : mergeState M state F.entry use facts = some r) :
    Holds ρ r.1 ↔ Holds ρ facts ∧ MergeHolds M ρ state F use facts := by
  simp only [mergeState, andThen, Option.bind_eq_some_iff, Option.map_eq_some_iff] at h
  obtain ⟨r₁, h₁, r₂, h₂, rfl⟩ := h
  have hreads := h₁
  rw [mergeReads_eq] at hreads
  rw [mergeEqualities_eq] at h₂
  rw [holds_additions h₂, holds_additions hreads, and_assoc, MergeHolds]
  refine and_congr_right fun _ => and_congr_right fun _ => ⟨fun h r hr => ?_, fun h => h r₁ h₁⟩
  exact Option.some.inj (h₁.symm.trans hr) ▸ h

/-- **One function**: the equalities at its entry hold in an execution afterwards exactly if those
before do, and what each of the calls passes on. -/
theorem holds_passToEntry {M : Values V} {state : Loc → Facts V} {F : DefinedFunction V Loc}
    {r : (Loc → Facts V) × Bool} (h : passToEntry M F state = some r) :
    Holds ρ (r.1 F.entry) ↔ Holds ρ (state F.entry) ∧ CallSitesHold M ρ state F := by
  rw [passToEntry, Option.map_eq_some_iff] at h
  obtain ⟨⟨facts, b⟩, h, rfl⟩ := h
  simp only [andThen, Option.bind_eq_some_iff, Option.map_eq_some_iff, Prod.mk.injEq] at h
  obtain ⟨r₁, h₁, r₂, h₂, rfl, -⟩ := h
  simp only [Function.update_self]
  rw [each_iff (fun use _ _ _ h => holds_mergeState h) h₂,
    each_iff (fun use _ _ _ h => each_iff (fun pair _ _ _ h => holds_bindArgument h) h) h₁,
    and_assoc, CallSitesHold]
  refine and_congr_right fun _ => and_congr_right fun _ => ⟨fun h r hr => ?_, fun h => h r₁ h₁⟩
  exact Option.some.inj (h₁.symm.trans hr) ▸ h

theorem reads_bindArguments {state : Loc → Facts V} {F : DefinedFunction V Loc} {facts : Facts V}
    {r : Facts V × Bool} (h : bindArguments state F facts = some r) : r.1.reads = facts.reads := by
  have hreads : ∀ a b, Meets (fun s : Facts V => s.reads = facts.reads) Reported (addEquality a b) :=
    fun a b s hs => by
      obtain ⟨t, c, ht, -, hreported⟩ := admits_reported.equality a b s trivial
      refine ⟨t, c, ht, ?_, hreported⟩
      obtain rfl := (Prod.mk.inj (Option.some.inj ht)).1
      exact hs
  have hall : Meets (fun s : Facts V => s.reads = facts.reads) Reported (bindArguments state F) := by
    refine Meets.each composes_reported fun use _ => Meets.each composes_reported fun pair _ => ?_
    refine (hreads _ _).andThen composes_reported fun s hs => ?_
    exact Meets.each composes_reported (fun b _ => hreads _ b) s hs
  obtain ⟨t, c, ht, hkept, -⟩ := hall facts rfl
  rw [h] at ht
  rw [(Option.some.inj ht : r = (t, c))]
  exact hkept

/-- What a call passes on by the merge. -/
def passedAdditions (M : Values V) (source : Facts V) : List (Addition V) :=
  readAdditions M source ++ equalityAdditions M source

/-- No call is the first instruction of the function itself: what the calls pass on is read off the
state before. -/
theorem holds_passToEntry_of_elsewhere {M : Values V} {state : Loc → Facts V}
    {F : DefinedFunction V Loc} {r : (Loc → Facts V) × Bool} (h : passToEntry M F state = some r)
    (hloc : ∀ use ∈ F.uses, use.location ≠ F.entry) :
    Holds ρ (r.1 F.entry) ↔ Holds ρ (state F.entry) ∧
      (∀ use ∈ F.uses, ∀ pair ∈ F.params.zip use.operands,
        ArgumentHolds ρ (state use.location) pair) ∧
      AdditionsHold ρ (F.uses.flatMap fun use => passedAdditions M (state use.location))
        (state F.entry) := by
  have hfacts : ∀ use ∈ F.uses, ∀ facts, factsAt state F.entry use.location facts =
      state use.location := fun use huse facts => if_neg (hloc use huse)
  -- no call reads what the pass writes, so the merges are one list of additions
  have hmerge : mergeStates M state F.entry F.uses = each Addition.perform
      (F.uses.flatMap fun use => passedAdditions M (state use.location)) := by
    rw [each_flatMap, mergeStates]
    apply each_congr
    intro use huse
    simp only [mergeState, hfacts use huse, passedAdditions, each_append, ← mergeReads_eq,
      ← mergeEqualities_eq]
  have hbind : ∀ use ∈ F.uses, ∀ s r, each (bindArgument state F.entry use)
      (F.params.zip use.operands) s = some r → (Holds ρ r.1 ↔ Holds ρ s ∧
        ∀ pair ∈ F.params.zip use.operands, ArgumentHolds ρ (state use.location) pair) := by
    intro use huse s r hr
    apply each_iff_forall (fun pair _ s r hstep => ?_) hr
    rw [holds_bindArgument hstep, hfacts use huse]
  rw [passToEntry, Option.map_eq_some_iff] at h
  obtain ⟨⟨facts, b⟩, h, rfl⟩ := h
  simp only [andThen, Option.bind_eq_some_iff, Option.map_eq_some_iff, Prod.mk.injEq] at h
  obtain ⟨r₁, h₁, r₂, h₂, rfl, -⟩ := h
  rw [hmerge] at h₂
  have hoffered : ∀ additions p v, Offered additions r₁.1 p v ↔
      Offered additions (state F.entry) p v := by
    intro additions p v
    rw [Offered, Offered, reads_bindArguments h₁]
  simp only [Function.update_self]
  rw [holds_additions h₂, each_iff_forall hbind h₁, and_assoc]
  simp only [AdditionsHold, hoffered]

theorem passToEntry_of_ne {M : Values V} {state : Loc → Facts V} {F : DefinedFunction V Loc}
    {r : (Loc → Facts V) × Bool} (h : passToEntry M F state = some r) {loc : Loc}
    (hne : loc ≠ F.entry) : r.1 loc = state loc := by
  rw [passToEntry, Option.map_eq_some_iff] at h
  obtain ⟨⟨facts, b⟩, -, rfl⟩ := h
  exact Function.update_of_ne hne _ _

theorem meets_passToEntry (M : Values V) (F : DefinedFunction V Loc) :
    Meets (fun _ => True) Reported (passToEntry M F) := by
  have hadmits := admits_reported (V := V)
  intro state _
  have harguments : Meets (fun _ => True) Reported (bindArguments state F) := by
    refine Meets.each hadmits.composes fun use _ => Meets.each hadmits.composes fun pair _ => ?_
    refine (hadmits.equality _ _).andThen hadmits.composes fun facts _ => ?_
    exact Meets.each hadmits.composes (fun b _ => hadmits.equality _ b) facts trivial
  have hmerge : Meets (fun _ => True) Reported (mergeStates M state F.entry F.uses) := by
    refine Meets.each hadmits.composes fun use _ => Meets.andThen hadmits.composes ?_ ?_
    · exact fun facts _ => hadmits.mergeReads M (fun _ _ _ => trivial) _ facts trivial
    · exact fun facts _ => hadmits.mergeEqualities M (fun _ _ _ => trivial) _ facts trivial
  obtain ⟨facts, b, hfacts, -, hreported⟩ :=
    harguments.andThen hadmits.composes hmerge (state F.entry) trivial
  refine ⟨Function.update state F.entry facts, b, by rw [passToEntry, hfacts]; rfl, trivial, ?_⟩
  intro hb
  rw [hreported hb, Function.update_eq_self]

/-- An execution that enters a function from one of its call sites, with the values that there are
then: the parameters have those of the arguments. -/
structure Entering (F : DefinedFunction V Loc) (Val : Type) where
  use : CallUse V Loc
  mem_uses : use ∈ F.uses
  isCalled : use.isCalled = true
  values : V → Val
  arguments : ∀ pair ∈ F.params.zip use.operands, values pair.1 = values pair.2

/-- The equalities at the entries of the functions hold in all executions that enter them. -/
def EntriesHold (mod : DefinedFunctions V Loc)
    (executions : (F : DefinedFunction V Loc) → Set (Entering F Val)) (state : Loc → Facts V) :
    Prop :=
  ∀ F ∈ mod.functions, ∀ execution ∈ executions F, Holds execution.values (state F.entry)

/-- What every call site of a function passes on holds in the executions that enter the function,
from whichever of its call sites. -/
def CallSitesAgree (M : Values V)
    (executions : (F : DefinedFunction V Loc) → Set (Entering F Val)) (F : DefinedFunction V Loc)
    (state : Loc → Facts V) : Prop :=
  ∀ execution ∈ executions F, CallSitesHold M execution.values state F

theorem entriesHold_passToEntry {M : Values V} {mod : DefinedFunctions V Loc}
    {executions : (F : DefinedFunction V Loc) → Set (Entering F Val)} {F : DefinedFunction V Loc}
    (hF : F ∈ mod.functions) {state : Loc → Facts V} {r : (Loc → Facts V) × Bool}
    (h : passToEntry M F state = some r) :
    EntriesHold mod executions r.1 ↔
      EntriesHold mod executions state ∧ CallSitesAgree M executions F state := by
  constructor
  · intro hall
    refine ⟨fun G hG e he => ?_, fun e he => ((holds_passToEntry h).1 (hall F hF e he)).2⟩
    -- the turn of `F` writes to its entry only
    by_cases hentry : G.entry = F.entry
    · obtain rfl := List.inj_on_of_nodup_map mod.nodup hG hF hentry
      exact ((holds_passToEntry h).1 (hall G hG e he)).1
    · rw [← passToEntry_of_ne h hentry]
      exact hall G hG e he
  · rintro ⟨hbefore, hagree⟩ G hG e he
    by_cases hentry : G.entry = F.entry
    · obtain rfl := List.inj_on_of_nodup_map mod.nodup hG hF hentry
      exact (holds_passToEntry h).2 ⟨hbefore G hG e he, hagree e he⟩
    · rw [passToEntry_of_ne h hentry]
      exact hbefore G hG e he

/-- **Relations from call sites**: the equalities at the entries hold in all executions that enter
the functions exactly if those before do and, of each function, what every call site passes on holds
in the executions that enter it from all of them. -/
theorem passCallSiteRelations_iff (M : Values V) (mod : DefinedFunctions V Loc)
    (executions : (F : DefinedFunction V Loc) → Set (Entering F Val)) (state : Loc → Facts V) :
    ∃ r, passCallSiteRelations M mod state = some r ∧
      (EntriesHold mod executions r.1 ↔ EntriesHold mod executions state ∧
        Along (CallSitesAgree M executions) (passToEntry M) mod.functions state) := by
  obtain ⟨state', b, h, -⟩ := Meets.each composes_reported
    (fun F (_ : F ∈ mod.functions) => meets_passToEntry M F) state trivial
  exact ⟨_, h, each_iff (fun F hF _ _ hstep => entriesHold_passToEntry hF hstep) h⟩

end Exactness

/-! ## A function that is called with 1 and with 2 -/

/-- The parameter and the constants 1 and 2. -/
def oneAndTwo : Values (Fin 3) where
  kind := ![.argument, .constantInt 1, .constantInt 2]
  stripPointerCasts := id
  mayHaveEffects _ := false
  fixedMemory _ := false
  fixedValues _ := false
  depth _ := 0
  depth_operand := by decide

/-- `f`, called with 1 before location 1 and with 2 before location 2. -/
def calledTwice : DefinedFunction (Fin 3) (Fin 3) where
  entry := 0
  params := [0]
  uses := [⟨1, [1], true⟩, ⟨2, [2], true⟩]

/-- The call with 1: the parameter is 1. -/
def enteringWithOne : Entering calledTwice Int where
  use := ⟨1, [1], true⟩
  mem_uses := List.mem_cons_self
  isCalled := rfl
  values := ![1, 1, 2]
  arguments := by decide

def calledTwiceOnly : DefinedFunctions (Fin 3) (Fin 3) := ⟨[calledTwice], List.nodup_singleton _⟩

/-- At the entry both constants are equal to the parameter, also for the execution from the call with
1. -/
theorem passed_from_other_call :
    EntriesHold calledTwiceOnly (fun F => (Set.univ : Set (Entering F Int))) (fun _ => Facts.empty) ∧
      ∃ r, passCallSiteRelations oneAndTwo calledTwiceOnly (fun _ => Facts.empty) = some r ∧
        ¬ EntriesHold calledTwiceOnly (fun F => (Set.univ : Set (Entering F Int))) r.1 := by
  have hclasses : (passCallSiteRelations oneAndTwo calledTwiceOnly fun _ => Facts.empty).map
      (fun r => (r.1 calledTwice.entry).equalities.classes) = some [[0, 1, 2]] := by
    decide +kernel
  obtain ⟨r, hr, hclass⟩ := Option.map_eq_some_iff.1 hclasses
  refine ⟨?_, r, hr, fun hall => ?_⟩
  · rintro F - execution - x y ⟨C, hC, -⟩
    exact absurd hC List.not_mem_nil
  · have hsame : (r.1 calledTwice.entry).equalities.Same 1 2 := by
      refine ⟨[0, 1, 2], ?_, by decide, by decide⟩
      rw [hclass]
      exact List.mem_singleton_self _
    have hequal : enteringWithOne.values 1 = enteringWithOne.values 2 :=
      hall calledTwice List.mem_cons_self enteringWithOne (Set.mem_univ _) 1 2 hsame
    exact absurd hequal (by decide)

end Cape.ValueRelations
