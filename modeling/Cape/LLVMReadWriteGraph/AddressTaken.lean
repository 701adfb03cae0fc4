import Cape.LLVMReadWriteGraph.MapPointers
import Cape.Library.FinLiterals
import Mathlib.Logic.Relation

/-!
# Allocas whose address is not taken

`createAlloc` looks at the uses of an alloca and marks it when the alloca itself is stored or is the
second operand of a memory intrinsic. Other uses are let through: the address in a call or a return,
and what casts, pointer arithmetic and PHIs make of it.

Programs are run by a machine that knows of each value only which object it may point to.
`not_accessed_outside`: as long as no step hands a pointer to the alloca's memory on to a call, a
return or, but for the alloca itself, a store, only the activation that made it accesses it.
`accessed_by_callee`: otherwise a callee may.
-/

set_option autoImplicit false

namespace Cape.LLVMReadWriteGraph

open Cape.MemorySSA Relation

universe u v w

/-! ## Programs -/

/-- An operand: what an instruction results in, a formal parameter, a global, a number. -/
inductive Value (I : Type u) where
  | inst (i : I)
  | param (i : Nat)
  | global (g : Nat)
  | number (n : Nat)
deriving DecidableEq

/-- Instructions, as far as pointers go. All that only makes a value of its operands is a
computation: casts, pointer arithmetic, PHIs, selects, arithmetic and comparisons. -/
inductive Instr (I : Type u) (F : Type v) where
  | alloca
  | malloc
  | load (pointer : Value I)
  | store (value pointer : Value I)
  | memIntrinsic (operand₀ operand₁ : Value I)
  | computation (operands : List (Value I))
  | call (callees : List F) (args : List (Value I))
  | ret (value : Option (Value I))
  | br

namespace Instr

variable {I : Type u} {F : Type v}

def operands : Instr I F → List (Value I)
  | .alloca => []
  | .malloc => []
  | .load pointer => [pointer]
  | .store value pointer => [value, pointer]
  | .memIntrinsic operand₀ operand₁ => [operand₀, operand₁]
  | .computation operands => operands
  | .call _ args => args
  | .ret value => value.toList
  | .br => []

end Instr

/-- A program: its instructions, where each may go on, and the uses of each. -/
structure Program (I : Type u) (F : Type v) where
  instr : I → Instr I F
  next : I → List I
  entry : F → I
  main : F
  uses : I → List I
  mem_uses : ∀ i j, j ∈ uses i ↔ .inst i ∈ (instr j).operands

/-! ## The scan -/

section Scan

variable {I : Type u} {F : Type v} {R : Type w} [DecidableEq I] (P : Program I F)

/-- The node of an alloca. -/
structure AllocNode (R : Type w) where
  hasAddressTaken : Bool
  size : Offset
  overwrites : Option (DefSite R)

/-- The use takes the address. -/
def takesAddress (Inst use : I) : Bool :=
  match P.instr use with
  | .store value _ => value = .inst Inst
  | .memIntrinsic _ operand₁ => operand₁ = .inst Inst
  | _ => false

/-- The loop of `createAlloc` over the uses. -/
def isAddressTaken (Inst : I) : Bool := (P.uses Inst).any (takesAddress P Inst)

/-- `createAlloc`. -/
def createAlloc (Inst : I) (node : R) (size : Offset) : AllocNode R where
  hasAddressTaken := isAddressTaken P Inst
  size := size
  overwrites :=
    if isAddressTaken P Inst then none
    else some ⟨.node node, 0, if 0 < size then size else .unknown⟩

/-- `canEscape`, of a node of the type `ALLOC`. -/
def AllocNode.canEscape (node : AllocNode R) : Bool := node.hasAddressTaken

variable {P}

/-- An alloca that is not marked is not stored. -/
theorem not_stored {Inst : I} (h : isAddressTaken P Inst = false) (i : I) (pointer : Value I) :
    P.instr i ≠ .store (.inst Inst) pointer := by
  intro hi
  have huse : i ∈ P.uses Inst := by
    rw [P.mem_uses, hi]
    exact List.mem_cons_self
  refine List.any_eq_false.1 h i huse ?_
  rw [takesAddress]
  rw [hi]
  exact decide_eq_true rfl

end Scan

/-! ## Executions -/

/-- A piece of memory: a global, or something allocated in the run. -/
inductive Obj where
  | global (g : Nat)
  | allocated (n : Nat)
deriving DecidableEq

/-- A value of a run: the object that it points to, and bits. -/
structure Val where
  obj : Option Obj
  bits : Nat

/-- The activation of a function. -/
structure Frame (I : Type u) where
  activation : Nat
  pc : I
  results : I → Val
  params : Nat → Val

namespace Frame

variable {I : Type u}

def eval (f : Frame I) : Value I → Val
  | .inst i => f.results i
  | .param i => f.params i
  | .global g => ⟨some (.global g), 0⟩
  | .number n => ⟨none, n⟩

/-- The instruction results in a value, and the function goes on. -/
def advance [DecidableEq I] (f : Frame I) (v : Val) (next : I) : Frame I :=
  { f with results := Function.update f.results f.pc v, pc := next }

end Frame

/-- The stack, the memory, and of each allocated object the activation and the alloca that made it. -/
structure State (I : Type u) where
  frames : List (Frame I)
  mem : Obj → Nat → Val
  objects : Nat
  activations : Nat
  origin : Nat → Option (Nat × I)

section Machine

variable {I : Type u} {F : Type v} [DecidableEq I] (P : Program I F)

/-- One step. What a computation results in points to what an operand points to, or to nothing; what
is read and written are parts of values in the same way. -/
inductive Step : State I → State I → Prop
  | alloca {s : State I} {f : Frame I} {rest : List (Frame I)} {next : I} :
      s.frames = f :: rest → P.instr f.pc = .alloca → next ∈ P.next f.pc →
      Step s { s with
        frames := f.advance ⟨some (.allocated s.objects), 0⟩ next :: rest
        objects := s.objects + 1
        origin := Function.update s.origin s.objects (some (f.activation, f.pc)) }
  | malloc {s : State I} {f : Frame I} {rest : List (Frame I)} {next : I} :
      s.frames = f :: rest → P.instr f.pc = .malloc → next ∈ P.next f.pc →
      Step s { s with
        frames := f.advance ⟨some (.allocated s.objects), 0⟩ next :: rest
        objects := s.objects + 1 }
  | load {s : State I} {f : Frame I} {rest : List (Frame I)} {next : I} {pointer : Value I}
      {o : Obj} {v : Val} :
      s.frames = f :: rest → P.instr f.pc = .load pointer → next ∈ P.next f.pc →
      (f.eval pointer).obj = some o → (v.obj = none ∨ ∃ j, v.obj = (s.mem o j).obj) →
      Step s { s with frames := f.advance v next :: rest }
  | store {s : State I} {f : Frame I} {rest : List (Frame I)} {next : I}
      {value pointer : Value I} {o : Obj} {mem : Obj → Nat → Val} :
      s.frames = f :: rest → P.instr f.pc = .store value pointer → next ∈ P.next f.pc →
      (f.eval pointer).obj = some o →
      (∀ o' j, mem o' j = s.mem o' j ∨
        (o' = o ∧ ((mem o' j).obj = none ∨ (mem o' j).obj = (f.eval value).obj))) →
      Step s { s with frames := { f with pc := next } :: rest, mem := mem }
  | memIntrinsic {s : State I} {f : Frame I} {rest : List (Frame I)} {next : I}
      {operand₀ operand₁ : Value I} {o : Obj} {mem : Obj → Nat → Val} :
      s.frames = f :: rest → P.instr f.pc = .memIntrinsic operand₀ operand₁ →
      next ∈ P.next f.pc → (f.eval operand₀).obj = some o →
      (∀ o' j, mem o' j = s.mem o' j ∨ (o' = o ∧ ((mem o' j).obj = none ∨
        ∃ src k, (f.eval operand₁).obj = some src ∧ (mem o' j).obj = (s.mem src k).obj))) →
      Step s { s with frames := { f with pc := next } :: rest, mem := mem }
  | computation {s : State I} {f : Frame I} {rest : List (Frame I)} {next : I}
      {operands : List (Value I)} {v : Val} :
      s.frames = f :: rest → P.instr f.pc = .computation operands → next ∈ P.next f.pc →
      (v.obj = none ∨ ∃ x ∈ operands, v.obj = (f.eval x).obj) →
      Step s { s with frames := f.advance v next :: rest }
  | call {s : State I} {f : Frame I} {rest : List (Frame I)} {callees : List F}
      {args : List (Value I)} {callee : F} :
      s.frames = f :: rest → P.instr f.pc = .call callees args → callee ∈ callees →
      Step s { s with
        frames := ⟨s.activations, P.entry callee, fun _ => ⟨none, 0⟩,
          fun i => (args[i]?.map f.eval).getD ⟨none, 0⟩⟩ :: f :: rest
        activations := s.activations + 1 }
  | ret {s : State I} {f g : Frame I} {rest : List (Frame I)} {next : I}
      {value : Option (Value I)} :
      s.frames = f :: g :: rest → P.instr f.pc = .ret value → next ∈ P.next g.pc →
      Step s { s with frames := g.advance ((value.map f.eval).getD ⟨none, 0⟩) next :: rest }
  | br {s : State I} {f : Frame I} {rest : List (Frame I)} {next : I} :
      s.frames = f :: rest → P.instr f.pc = .br → next ∈ P.next f.pc →
      Step s { s with frames := { f with pc := next } :: rest }

/-- The start of a run: `main` is called, and the memory has no pointers but to globals. -/
structure Initial (s : State I) : Prop where
  frames : s.frames = [⟨0, P.entry P.main, fun _ => ⟨none, 0⟩, fun _ => ⟨none, 0⟩⟩]
  mem : ∀ o j n, (s.mem o j).obj ≠ some (.allocated n)
  activations : s.activations = 1
  origin : ∀ n, s.origin n = none

/-- The next instruction reads or writes the object. -/
def Accesses (s : State I) (f : Frame I) (o : Obj) : Prop :=
  s.frames.head? = some f ∧
    match P.instr f.pc with
    | .load pointer => (f.eval pointer).obj = some o
    | .store _ pointer => (f.eval pointer).obj = some o
    | .memIntrinsic operand₀ operand₁ =>
        (f.eval operand₀).obj = some o ∨ (f.eval operand₁).obj = some o
    | _ => False

/-- The next instruction hands on a pointer to the object `n`: to a callee, to the caller, or, when
it is not the alloca itself, to memory. -/
def HandsOn (s : State I) (n : Nat) : Prop :=
  ∃ f, s.frames.head? = some f ∧
    match P.instr f.pc with
    | .call _ args => ∃ x ∈ args, (f.eval x).obj = some (.allocated n)
    | .ret value => ∃ x ∈ value, (f.eval x).obj = some (.allocated n)
    | .store value _ => (f.eval value).obj = some (.allocated n) ∧
        ∀ a, s.origin n = some (f.activation, a) → value ≠ .inst a
    | _ => False

/-- A step that does not hand on a pointer to the object `n`. -/
def QuietStep (n : Nat) (s s' : State I) : Prop := Step P s s' ∧ ¬ HandsOn P s n

/-! ## Where pointers are -/

/-- Where a pointer can be: in an activation, or in memory. -/
inductive Place where
  | activation (k : Nat)
  | memory

omit [DecidableEq I] in
/-- Some value of the activation `k` points to the object `n`. -/
def InFrames (frames : List (Frame I)) (n k : Nat) : Prop :=
  ∃ f ∈ frames, f.activation = k ∧
    ((∃ i, (f.results i).obj = some (.allocated n)) ∨ ∃ i, (f.params i).obj = some (.allocated n))

omit [DecidableEq I] in
/-- In the place there is a pointer to the object `n`. -/
def PointsTo (s : State I) (n : Nat) : Place → Prop
  | .activation k => InFrames s.frames n k
  | .memory => ∃ o j, (s.mem o j).obj = some (.allocated n)

/-- What comes to hold a pointer to `n` in a step: the activation that allocates `n` or loads the
pointer, or the memory that it is stored to; or the pointer is handed on from an activation. -/
inductive Gains (s s' : State I) (n : Nat) : Place → Prop
  | kept {pl : Place} : PointsTo s n pl → Gains s s' n pl
  | allocated {f : Frame I} {rest : List (Frame I)} : s.frames = f :: rest → n = s.objects →
      s'.objects = s.objects + 1 → Gains s s' n (.activation f.activation)
  | loaded {pl : Place} : PointsTo s n .memory → Gains s s' n pl
  | stored {f : Frame I} {rest : List (Frame I)} {value pointer : Value I} :
      s.frames = f :: rest → P.instr f.pc = .store value pointer →
      (f.eval value).obj = some (.allocated n) → Gains s s' n .memory
  | handedOn {pl : Place} {k : Nat} : HandsOn P s n → PointsTo s n (.activation k) →
      Gains s s' n pl

section Frames

variable {f : Frame I} {rest : List (Frame I)} {n k : Nat}

omit [DecidableEq I] in
theorem inFrames_of_eval {frames : List (Frame I)} (hf : f ∈ frames) {x : Value I}
    (hx : (f.eval x).obj = some (.allocated n)) : InFrames frames n f.activation := by
  cases x with
  | inst i => exact ⟨f, hf, rfl, Or.inl ⟨i, hx⟩⟩
  | param i => exact ⟨f, hf, rfl, Or.inr ⟨i, hx⟩⟩
  | global g => cases hx
  | number m => cases hx

omit [DecidableEq I] in
theorem inFrames_cons : InFrames (f :: rest) n k ↔
    (f.activation = k ∧ ((∃ i, (f.results i).obj = some (.allocated n)) ∨
      ∃ i, (f.params i).obj = some (.allocated n))) ∨ InFrames rest n k :=
  List.exists_mem_cons_iff _ _ _

omit [DecidableEq I] in
theorem inFrames_pc {next : I} :
    InFrames ({ f with pc := next } :: rest) n k ↔ InFrames (f :: rest) n k := by
  rw [inFrames_cons, inFrames_cons]

theorem inFrames_advance {v : Val} {next : I} (h : InFrames (f.advance v next :: rest) n k) :
    InFrames (f :: rest) n k ∨ (k = f.activation ∧ v.obj = some (.allocated n)) := by
  rw [inFrames_cons] at h ⊢
  obtain ⟨hk, ⟨i, hi⟩ | hparam⟩ | hrest := h
  · have hi : (Function.update f.results f.pc v i).obj = some (.allocated n) := hi
    rw [Function.update_apply] at hi
    split at hi
    · exact Or.inr ⟨hk.symm, hi⟩
    · exact Or.inl (Or.inl ⟨hk, Or.inl ⟨i, hi⟩⟩)
  · exact Or.inl (Or.inl ⟨hk, Or.inr hparam⟩)
  · exact Or.inl (Or.inr hrest)

end Frames

variable {P}

/-- **What a step can do with pointers.** -/
theorem Step.gains {s s' : State I} (h : Step P s s') {n : Nat} {pl : Place}
    (hpl : PointsTo s' n pl) : Gains P s s' n pl := by
  -- the results of the instructions other than calls and returns
  have hresult : ∀ {f : Frame I} {rest : List (Frame I)} {v : Val} {next : I} {mem : Obj → Nat → Val}
      {objects : Nat} {origin : Nat → Option (Nat × I)}, s.frames = f :: rest → mem = s.mem →
      PointsTo ⟨f.advance v next :: rest, mem, objects, s.activations, origin⟩ n pl →
      PointsTo s n pl ∨ (pl = .activation f.activation ∧ v.obj = some (.allocated n)) := by
    intro f rest v next mem objects origin hframes hmem hpl
    cases pl with
    | activation k =>
        obtain hold | ⟨rfl, hv⟩ := inFrames_advance hpl
        · exact Or.inl (show InFrames s.frames n k from hframes ▸ hold)
        · exact Or.inr ⟨rfl, hv⟩
    | memory =>
        subst hmem
        exact Or.inl hpl
  cases h with
  | @alloca f rest next hframes hinstr hnext =>
      obtain hold | ⟨rfl, hv⟩ := hresult hframes rfl hpl
      · exact .kept hold
      · exact .allocated hframes (Obj.allocated.inj (Option.some.inj hv)).symm rfl
  | @malloc f rest next hframes hinstr hnext =>
      obtain hold | ⟨rfl, hv⟩ := hresult hframes rfl hpl
      · exact .kept hold
      · exact .allocated hframes (Obj.allocated.inj (Option.some.inj hv)).symm rfl
  | @load f rest next pointer o v hframes hinstr hnext ho hv =>
      obtain hold | ⟨rfl, hobj⟩ := hresult hframes rfl hpl
      · exact .kept hold
      · obtain hnone | ⟨j, hj⟩ := hv
        · cases hnone.symm.trans hobj
        · exact .loaded ⟨o, j, hj ▸ hobj⟩
  | @store f rest next value pointer o mem hframes hinstr hnext ho hmem =>
      cases pl with
      | activation k =>
          refine .kept (show InFrames s.frames n k from ?_)
          rw [hframes]
          exact inFrames_pc.1 hpl
      | memory =>
          obtain ⟨o', j, hj⟩ := hpl
          have hj : (mem o' j).obj = some (.allocated n) := hj
          obtain hold | ⟨-, hnone | hvalue⟩ := hmem o' j
          · exact .kept ⟨o', j, hold ▸ hj⟩
          · cases hnone.symm.trans hj
          · exact .stored hframes hinstr (hvalue ▸ hj)
  | @memIntrinsic f rest next operand₀ operand₁ o mem hframes hinstr hnext ho hmem =>
      cases pl with
      | activation k =>
          refine .kept (show InFrames s.frames n k from ?_)
          rw [hframes]
          exact inFrames_pc.1 hpl
      | memory =>
          obtain ⟨o', j, hj⟩ := hpl
          have hj : (mem o' j).obj = some (.allocated n) := hj
          obtain hold | ⟨-, hnone | ⟨src, k, -, hcopy⟩⟩ := hmem o' j
          · exact .kept ⟨o', j, hold ▸ hj⟩
          · cases hnone.symm.trans hj
          · exact .kept ⟨src, k, hcopy ▸ hj⟩
  | @computation f rest next operands v hframes hinstr hnext hv =>
      obtain hold | ⟨rfl, hobj⟩ := hresult hframes rfl hpl
      · exact .kept hold
      · obtain hnone | ⟨x, -, hx⟩ := hv
        · cases hnone.symm.trans hobj
        · have hin := inFrames_of_eval (List.mem_cons_self (l := rest)) (hx ▸ hobj)
          exact .kept (show InFrames s.frames n _ from hframes ▸ hin)
  | @call f rest callees args callee hframes hinstr hcallee =>
      cases pl with
      | memory => exact .kept hpl
      | activation k =>
          obtain ⟨-, ⟨i, hi⟩ | ⟨i, hi⟩⟩ | hold := inFrames_cons.1 hpl
          · cases hi
          · have hi : ((args[i]?.map f.eval).getD ⟨none, 0⟩).obj = some (.allocated n) := hi
            cases harg : args[i]? with
            | none =>
                rw [harg] at hi
                cases hi
            | some x =>
                rw [harg] at hi
                have hx : (f.eval x).obj = some (.allocated n) := hi
                have hin := inFrames_of_eval (List.mem_cons_self (l := rest)) hx
                refine .handedOn ⟨f, by rw [hframes]; rfl, ?_⟩
                  (show InFrames s.frames n _ from hframes ▸ hin)
                rw [hinstr]
                exact ⟨x, List.mem_of_getElem? harg, hx⟩
          · exact .kept (show InFrames s.frames n k from hframes ▸ hold)
  | @ret f g rest next value hframes hinstr hnext =>
      cases pl with
      | memory => exact .kept hpl
      | activation k =>
          obtain hold | ⟨rfl, hv⟩ := inFrames_advance hpl
          · refine .kept (show InFrames s.frames n k from ?_)
            rw [hframes, inFrames_cons]
            exact Or.inr hold
          · cases value with
            | none => cases hv
            | some x =>
                have hx : (f.eval x).obj = some (.allocated n) := hv
                have hin := inFrames_of_eval (List.mem_cons_self (l := g :: rest)) hx
                refine .handedOn ⟨f, by rw [hframes]; rfl, ?_⟩
                  (show InFrames s.frames n _ from hframes ▸ hin)
                rw [hinstr]
                exact ⟨x, rfl, hx⟩
  | @br f rest next hframes hinstr hnext =>
      refine .kept ?_
      cases pl with
      | memory => exact hpl
      | activation k =>
          show InFrames s.frames n k
          rw [hframes]
          exact inFrames_pc.1 hpl

/-- The origin of an object is set when it is allocated. -/
theorem Step.origin {s s' : State I} (h : Step P s s') {n k : Nat} {a : I}
    (ho : s'.origin n = some (k, a)) : s.origin n = some (k, a) ∨
      (n = s.objects ∧ s'.objects = s.objects + 1 ∧
        ∃ f rest, s.frames = f :: rest ∧ k = f.activation) := by
  cases h with
  | @alloca f rest next hframes hinstr hnext =>
      have ho : Function.update s.origin s.objects (some (f.activation, f.pc)) n = some (k, a) := ho
      rw [Function.update_apply] at ho
      split at ho
      · next hn =>
          obtain ⟨rfl, -⟩ := Prod.mk.inj (Option.some.inj ho)
          exact Or.inr ⟨hn, rfl, f, rest, hframes, rfl⟩
      · exact Or.inl ho
  | _ => exact Or.inl ho

theorem Step.objects_le {s s' : State I} (h : Step P s s') : s.objects ≤ s'.objects := by
  cases h with
  | alloca => exact Nat.le_succ _
  | malloc => exact Nat.le_succ _
  | _ => exact Nat.le_refl _

/-! ## Runs -/

omit [DecidableEq I] in
/-- All pointers are to objects that have been allocated. -/
structure Fresh (s : State I) : Prop where
  pointers : ∀ n pl, PointsTo s n pl → n < s.objects
  origin : ∀ n o, s.origin n = some o → n < s.objects

omit [DecidableEq I] in
theorem Initial.fresh {s : State I} (h : Initial P s) : Fresh s := by
  refine ⟨fun n pl hpl => ?_, fun n o ho => ?_⟩
  · cases pl with
    | activation k =>
        obtain ⟨f, hf, -, hobj⟩ := hpl
        rw [h.frames, List.mem_singleton] at hf
        subst hf
        obtain ⟨_, hi⟩ | ⟨_, hi⟩ := hobj <;> cases hi
    | memory =>
        obtain ⟨o, j, hj⟩ := hpl
        exact absurd hj (h.mem o j n)
  · rw [h.origin] at ho
    cases ho

theorem Fresh.step {s s' : State I} (h : Fresh s) (hstep : Step P s s') : Fresh s' := by
  have hle := hstep.objects_le
  refine ⟨fun n pl hpl => ?_, fun n o ho => ?_⟩
  · have hold : ∀ pl, PointsTo s n pl → n < s'.objects := fun pl hpl =>
      Nat.lt_of_lt_of_le (h.pointers n pl hpl) hle
    cases hstep.gains hpl with
    | kept hpl => exact hold _ hpl
    | allocated _ hn hobjects => omega
    | loaded hmem => exact hold _ hmem
    | stored hframes _ hvalue =>
        refine hold (.activation _) (inFrames_of_eval ?_ hvalue)
        rw [hframes]
        exact List.mem_cons_self
    | handedOn _ hpl => exact hold _ hpl
  · obtain ⟨k, a⟩ := o
    obtain hold | ⟨hn, hobjects, -⟩ := hstep.origin ho
    · exact Nat.lt_of_lt_of_le (h.origin n _ hold) hle
    · omega

/-- Only the activation that made the object `n`, by an alloca that is not marked, has pointers to
it. -/
def Kept (P : Program I F) (s : State I) (n : Nat) : Prop :=
  ∀ k a, s.origin n = some (k, a) → isAddressTaken P a = false →
    ∀ pl, PointsTo s n pl → pl = .activation k

/-- **The step lemma.** -/
theorem Kept.step {s s' : State I} {n : Nat} (hfresh : Fresh s) (h : Kept P s n)
    (hstep : QuietStep P n s s') : Kept P s' n := by
  intro k a ho hunmarked pl hpl
  obtain ⟨hstep, hquiet⟩ := hstep
  obtain hold | ⟨hn, -, g, rest', hg, rfl⟩ := hstep.origin ho
  · have hkept := h k a hold hunmarked
    cases hstep.gains hpl with
    | kept hpl => exact hkept _ hpl
    | allocated _ hn _ => exact absurd (hfresh.origin n _ hold) (by omega)
    | loaded hmem => cases hkept _ hmem
    | @stored f rest value pointer hframes hinstr hvalue =>
        have hf : f ∈ s.frames := hframes ▸ List.mem_cons_self
        have hk : f.activation = k :=
          Place.activation.inj (hkept (.activation _) (inFrames_of_eval hf hvalue))
        -- what is stored is the alloca itself, which the scan has not seen
        by_contra
        refine hquiet ⟨f, by rw [hframes]; rfl, ?_⟩
        rw [hinstr]
        refine ⟨hvalue, fun a' ha' => ?_⟩
        rintro rfl
        rw [hold] at ha'
        obtain ⟨-, rfl⟩ := Prod.mk.inj (Option.some.inj ha')
        exact not_stored hunmarked f.pc pointer hinstr
    | handedOn hon _ => exact absurd hon hquiet
  · -- just allocated: there were no pointers to it before
    have hnone : ∀ pl, ¬ PointsTo s n pl := fun pl hpl => by
      have := hfresh.pointers n pl hpl
      omega
    cases hstep.gains hpl with
    | kept hpl => exact absurd hpl (hnone _)
    | allocated hframes _ _ =>
        obtain ⟨rfl, -⟩ := List.cons.inj (hframes.symm.trans hg)
        rfl
    | loaded hmem => exact absurd hmem (hnone _)
    | stored hframes _ hvalue =>
        refine absurd (inFrames_of_eval ?_ hvalue) (hnone (.activation _))
        rw [hframes]
        exact List.mem_cons_self
    | handedOn hon _ => exact absurd hon hquiet

/-- **The run lemma.** -/
theorem kept_of_run {s₀ s : State I} {n : Nat} (h₀ : Initial P s₀)
    (hrun : ReflTransGen (QuietStep P n) s₀ s) : Fresh s ∧ Kept P s n := by
  induction hrun with
  | refl =>
      refine ⟨h₀.fresh, fun k a ho => ?_⟩
      rw [h₀.origin] at ho
      cases ho
  | tail _ hstep ih => exact ⟨ih.1.step hstep.1, ih.2.step ih.1 hstep⟩

omit [DecidableEq I] in
theorem pointsTo_of_accesses {s : State I} {f : Frame I} {n : Nat}
    (h : Accesses P s f (.allocated n)) : PointsTo s n (.activation f.activation) := by
  obtain ⟨hf, hobj⟩ := h
  have hf : f ∈ s.frames := List.mem_of_mem_head? hf
  revert hobj
  cases P.instr f.pc with
  | load pointer => exact inFrames_of_eval hf
  | store value pointer => exact inFrames_of_eval hf
  | memIntrinsic operand₀ operand₁ =>
      rintro (hobj | hobj)
      · exact inFrames_of_eval hf hobj
      · exact inFrames_of_eval hf hobj
  | _ => exact False.elim

/-- **Only its own activation accesses an alloca that is not marked**, in a run in which no step
hands a pointer to it on. -/
theorem not_accessed_outside {R : Type w} (P : Program I F) (node : R) (size : Offset)
    (s₀ s : State I) (h₀ : Initial P s₀) (n : Nat) (hrun : ReflTransGen (QuietStep P n) s₀ s)
    (k : Nat) (a : I) (horigin : s.origin n = some (k, a))
    (hunmarked : (createAlloc P a node size).canEscape = false) (f : Frame I)
    (h : Accesses P s f (.allocated n)) : f.activation = k :=
  Place.activation.inj
    ((kept_of_run h₀ hrun).2 k a horigin hunmarked _ (pointsTo_of_accesses h))

/-- Activations have different numbers. -/
theorem nodup_activations {s₀ s : State I} (h₀ : Initial P s₀)
    (hrun : ReflTransGen (Step P) s₀ s) : (s.frames.map Frame.activation).Nodup := by
  have hall : (s.frames.map Frame.activation).Nodup ∧
      ∀ k ∈ s.frames.map Frame.activation, k < s.activations := by
    induction hrun with
    | refl => simp [h₀.frames, h₀.activations]
    | @tail s s' _ hstep ih =>
        obtain ⟨hnodup, hlt⟩ := ih
        cases hstep with
        | call hframes =>
            rw [hframes] at hnodup hlt
            refine ⟨List.nodup_cons.2 ⟨fun h => Nat.lt_irrefl _ (hlt _ h), hnodup⟩, fun k hk => ?_⟩
            obtain rfl | hk := List.mem_cons.1 hk
            · exact Nat.lt_succ_self _
            · exact Nat.lt_succ_of_lt (hlt k hk)
        | ret hframes =>
            rw [hframes] at hnodup hlt
            exact ⟨(List.nodup_cons.1 hnodup).2, fun k hk => hlt k (List.mem_cons_of_mem _ hk)⟩
        -- the others keep the frames
        | alloca hframes | malloc hframes | load hframes | store hframes | memIntrinsic hframes
        | computation hframes | br hframes =>
            rw [hframes] at hnodup hlt
            exact ⟨hnodup, hlt⟩
  exact hall.1

end Machine

/-! ## Two programs -/

/-- `main` makes an alloca and reads it. -/
def localUse : Program (Fin 3) Unit where
  instr := ![.alloca, .load (.inst 0), .ret none]
  next := ![[1], [2], []]
  entry := fun _ => 0
  main := ()
  uses := ![[1], [], []]
  mem_uses := by decide

/-- The first activation of `main`. -/
def mainFrame : Frame (Fin 3) := ⟨0, 0, fun _ => ⟨none, 0⟩, fun _ => ⟨none, 0⟩⟩

/-- The start of a run, with all memory free of pointers. -/
def startState : State (Fin 3) :=
  ⟨[mainFrame], fun _ _ => ⟨none, 0⟩, 0, 1, fun _ => none⟩

/-- `main` after its alloca. -/
def allocaFrame : Frame (Fin 3) := mainFrame.advance ⟨some (.allocated 0), 0⟩ 1

/-- The run after the alloca of `main`. -/
def allocaState : State (Fin 3) :=
  ⟨[allocaFrame], fun _ _ => ⟨none, 0⟩, 1, 1, Function.update (fun _ => none) 0 (some (0, 0))⟩

theorem quietStep_alloca : QuietStep localUse 0 startState allocaState := by
  refine ⟨@Step.alloca _ _ _ localUse _ mainFrame [] 1 rfl rfl (List.mem_singleton_self 1), ?_⟩
  rintro ⟨f, hf, hon⟩
  obtain rfl := Option.some.inj hf
  exact hon

theorem not_accessed_outside_load :
    Accesses localUse allocaState allocaFrame (.allocated 0) ∧ allocaFrame.activation = 0 :=
  ⟨⟨rfl, rfl⟩, not_accessed_outside localUse () 4 startState allocaState
    ⟨rfl, nofun, rfl, fun _ => rfl⟩ 0 (.single quietStep_alloca) 0 0 rfl rfl allocaFrame
    ⟨rfl, rfl⟩⟩

/-- `main` makes an alloca and passes it to a function, which reads through its parameter. -/
def passes : Program (Fin 3) Bool where
  instr := ![.alloca, .call [true] [.inst 0], .load (.param 0)]
  next := ![[1], [], []]
  entry := fun f => if f then 2 else 0
  main := false
  uses := ![[1], [], []]
  mem_uses := by decide

/-- The function that `passes` calls. -/
def calleeFrame : Frame (Fin 3) :=
  ⟨1, 2, fun _ => ⟨none, 0⟩,
    fun i => (([.inst 0] : List (Value (Fin 3)))[i]?.map allocaFrame.eval).getD ⟨none, 0⟩⟩

/-- **A callee reads an alloca that is not marked.** -/
theorem accessed_by_callee : (createAlloc passes 0 () 4).canEscape = false ∧
    ∃ s₀ s : State (Fin 3), Initial passes s₀ ∧ ReflTransGen (Step passes) s₀ s ∧
      s.origin 0 = some (0, 0) ∧
      ∃ f, Accesses passes s f (.allocated 0) ∧ f.activation ≠ 0 := by
  have halloca : Step passes startState allocaState :=
    @Step.alloca _ _ _ passes _ mainFrame [] 1 rfl rfl (List.mem_singleton_self 1)
  have hcall : Step passes allocaState
      { allocaState with frames := [calleeFrame, allocaFrame], activations := 2 } :=
    @Step.call _ _ _ passes allocaState allocaFrame [] [true] [.inst 0] true rfl rfl
      (List.mem_singleton_self true)
  refine ⟨rfl, startState, _, ⟨rfl, nofun, rfl, fun _ => rfl⟩,
    (ReflTransGen.single halloca).tail hcall, rfl, calleeFrame, ⟨rfl, rfl⟩, ?_⟩
  exact Nat.one_ne_zero

end Cape.LLVMReadWriteGraph
