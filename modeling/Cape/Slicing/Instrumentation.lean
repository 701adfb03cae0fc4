import Cape.Slicing.Graph

/-!
# Instrumented code

The passes insert calls of the runtime (`samples/common.h`) into the program. A block is the list of
its instructions, each an instruction of the program or an inserted call. An `IRBuilder` at an
instruction puts each new call directly before it, so later calls stand behind earlier ones.

`State` is what the passes change: the code, the slice ids, and the buffer ids of memory objects.
-/

set_option autoImplicit false

namespace Cape.Slicing

/-- The inserted calls. `pushAllocStack` and `insertMallocSet` pass the address and the size of the
allocation at the given node. -/
inductive RuntimeCall (N : Type) where
  | startTransaction
  | endTransaction
  | preloadInstAddr (name : String)
  | iterateAllocStack (id : Nat)
  | iterateMallocSet (id : Nat)
  | iterateGlobal (gv : GlobalVariable)
  | pushAllocStack (id : Nat) (ai : N)
  | popAllocStack (id : Nat)
  | insertMallocSet (id : Nat) (ci : N)
  | eraseMallocSet (id : Nat)
  deriving DecidableEq

/-- An instruction of the program or an inserted call; `uid` tells inserted calls apart. -/
inductive Inst (N : Type) where
  | node (n : N)
  | inserted (uid : Nat) (call : RuntimeCall N)
  deriving DecidableEq

namespace Inst

variable {N : Type} [DecidableEq N]

/-- Insertion directly before an instruction. -/
def insertBefore (at_ i : Inst N) : List (Inst N) → List (Inst N)
  | [] => []
  | x :: rest => if x = at_ then i :: x :: rest else x :: insertBefore at_ i rest

/-- Insertion directly behind an instruction; at the end of a block before it. -/
def insertAfter (at_ i : Inst N) : List (Inst N) → List (Inst N)
  | [] => []
  | [x] => if x = at_ then [i, x] else [x]
  | x :: y :: rest => if x = at_ then x :: i :: y :: rest else x :: insertAfter at_ i (y :: rest)

/-- Insertion adds the instruction once if the place is there. -/
theorem perm_insertBefore (at_ i : Inst N) (l : List (Inst N)) :
    (insertBefore at_ i l).Perm (if at_ ∈ l then i :: l else l) := by
  induction l with
  | nil => exact List.Perm.refl _
  | cons x rest ih =>
      unfold insertBefore
      by_cases hx : x = at_
      · rw [if_pos hx, if_pos (hx ▸ List.mem_cons_self)]
      · rw [if_neg hx]
        by_cases hmem : at_ ∈ rest
        · rw [if_pos hmem] at ih
          rw [if_pos (List.mem_cons_of_mem _ hmem)]
          exact (ih.cons x).trans (List.Perm.swap i x rest)
        · rw [if_neg hmem] at ih
          have hnot : at_ ∉ x :: rest := by
            rw [List.mem_cons, not_or]
            exact ⟨Ne.symm hx, hmem⟩
          rw [if_neg hnot]
          exact ih.cons x

theorem perm_insertAfter (at_ i : Inst N) (l : List (Inst N)) :
    (insertAfter at_ i l).Perm (if at_ ∈ l then i :: l else l) := by
  induction l with
  | nil => exact List.Perm.refl _
  | cons x rest ih =>
      cases rest with
      | nil =>
          unfold insertAfter
          by_cases hx : x = at_
          · rw [if_pos hx, if_pos (hx ▸ List.mem_cons_self)]
          · rw [if_neg hx, if_neg (by simpa using Ne.symm hx)]
      | cons y rest =>
          unfold insertAfter
          by_cases hx : x = at_
          · rw [if_pos hx, if_pos (hx ▸ List.mem_cons_self)]
            exact List.Perm.swap i x (y :: rest)
          · rw [if_neg hx]
            by_cases hmem : at_ ∈ y :: rest
            · rw [if_pos hmem] at ih
              rw [if_pos (List.mem_cons_of_mem _ hmem)]
              exact (ih.cons x).trans (List.Perm.swap i x (y :: rest))
            · rw [if_neg hmem] at ih
              have hnot : at_ ∉ x :: y :: rest := by
                rw [List.mem_cons, not_or]
                exact ⟨Ne.symm hx, hmem⟩
              rw [if_neg hnot]
              exact ih.cons x

end Inst

/-- What the passes change. `T` are the memory objects of the pointer analysis. -/
structure State (N B T : Type) where
  slices : Slices N B
  /-- `getBufferId()`; 0 when the object has no buffer id. -/
  bufferId : T → Nat
  /-- The counter `allocId` of the running walk. -/
  allocId : Nat
  code : B → List (Inst N)
  nextUid : Nat
  /-- `getFuncs()`: the functions whose code is preloaded at an instruction. -/
  funcs : N → List String

namespace State

variable {N B T : Type} [DecidableEq N]

/-- `IRBuilder(at).CreateCall(call)`. -/
def insertBefore (s : State N B T) (at_ : Inst N) (call : RuntimeCall N) : State N B T :=
  { s with
    code := fun b => Inst.insertBefore at_ (.inserted s.nextUid call) (s.code b)
    nextUid := s.nextUid + 1 }

/-- `IRBuilder(next).CreateCall(call)` for the instruction behind `at`. -/
def insertAfter (s : State N B T) (at_ : Inst N) (call : RuntimeCall N) : State N B T :=
  { s with
    code := fun b => Inst.insertAfter at_ (.inserted s.nextUid call) (s.code b)
    nextUid := s.nextUid + 1 }

theorem mem_insertBefore {s : State N B T} {at_ i : Inst N} {call : RuntimeCall N} {b : B}
    (h : i ∈ (s.insertBefore at_ call).code b) :
    i ∈ s.code b ∨ i = .inserted s.nextUid call := by
  have hperm := (Inst.perm_insertBefore at_ (.inserted s.nextUid call) (s.code b)).mem_iff.1 h
  split at hperm
  · exact (List.mem_cons.1 hperm).symm
  · exact Or.inl hperm

theorem mem_insertAfter {s : State N B T} {at_ i : Inst N} {call : RuntimeCall N} {b : B}
    (h : i ∈ (s.insertAfter at_ call).code b) :
    i ∈ s.code b ∨ i = .inserted s.nextUid call := by
  have hperm := (Inst.perm_insertAfter at_ (.inserted s.nextUid call) (s.code b)).mem_iff.1 h
  split at hperm
  · exact (List.mem_cons.1 hperm).symm
  · exact Or.inl hperm

/-- A count over a block grows by one if the call counts and its place is in the block. -/
theorem countP_insertBefore (s : State N B T) (at_ : Inst N) (call : RuntimeCall N) (b : B)
    (q : Inst N → Bool) : ((s.insertBefore at_ call).code b).countP q =
      (s.code b).countP q + if at_ ∈ s.code b ∧ q (.inserted s.nextUid call) then 1 else 0 := by
  rw [show (s.insertBefore at_ call).code b = Inst.insertBefore at_ _ (s.code b) from rfl,
    (Inst.perm_insertBefore at_ (.inserted s.nextUid call) (s.code b)).countP_eq q]
  by_cases hmem : at_ ∈ s.code b
  · simp only [hmem, if_true, List.countP_cons, true_and]
  · simp only [hmem, if_false, false_and, Nat.add_zero]

theorem countP_insertAfter (s : State N B T) (at_ : Inst N) (call : RuntimeCall N) (b : B)
    (q : Inst N → Bool) : ((s.insertAfter at_ call).code b).countP q =
      (s.code b).countP q + if at_ ∈ s.code b ∧ q (.inserted s.nextUid call) then 1 else 0 := by
  rw [show (s.insertAfter at_ call).code b = Inst.insertAfter at_ _ (s.code b) from rfl,
    (Inst.perm_insertAfter at_ (.inserted s.nextUid call) (s.code b)).countP_eq q]
  by_cases hmem : at_ ∈ s.code b
  · simp only [hmem, if_true, List.countP_cons, true_and]
  · simp only [hmem, if_false, false_and, Nat.add_zero]

/-- Insertion moves no instruction of the program into or out of a block. -/
theorem node_mem_insertBefore {s : State N B T} {at_ : Inst N} {call : RuntimeCall N} {b : B}
    {n : N} : .node n ∈ (s.insertBefore at_ call).code b ↔ .node n ∈ s.code b := by
  have hcount := s.countP_insertBefore at_ call b (fun i => decide (i = .node n))
  simp only [reduceCtorEq, decide_false, Bool.false_eq_true, and_false, if_false,
    Nat.add_zero] at hcount
  rw [← List.count_pos_iff, ← List.count_pos_iff, List.count_eq_countP, List.count_eq_countP]
  simp only [beq_eq_decide, hcount]

theorem node_mem_insertAfter {s : State N B T} {at_ : Inst N} {call : RuntimeCall N} {b : B}
    {n : N} : .node n ∈ (s.insertAfter at_ call).code b ↔ .node n ∈ s.code b := by
  have hcount := s.countP_insertAfter at_ call b (fun i => decide (i = .node n))
  simp only [reduceCtorEq, decide_false, Bool.false_eq_true, and_false, if_false,
    Nat.add_zero] at hcount
  rw [← List.count_pos_iff, ← List.count_pos_iff, List.count_eq_countP, List.count_eq_countP]
  simp only [beq_eq_decide, hcount]

def setNodeSlice (s : State N B T) (n : N) (id : Nat) : State N B T :=
  { s with slices := s.slices.setNode n id }

def setBlockSlice [DecidableEq B] (s : State N B T) (b : B) (id : Nat) : State N B T :=
  { s with slices := s.slices.setBlock b id }

end State

/-- The code before any pass. -/
def BlockGraph.sourceCode {N B : Type} (G : BlockGraph N B) (b : B) : List (Inst N) :=
  (G.nodes b).map .node

/-- The state before any pass, for given marks. A new `LLVMNode` has one name in its `funcs`. -/
def BlockGraph.source {N B T : Type} (G : BlockGraph N B) (slices : Slices N B) : State N B T where
  slices := slices
  bufferId _ := 0
  allocId := 0
  code := G.sourceCode
  nextUid := 0
  funcs _ := ["_Z15preloadInstAddrPc"]

end Cape.Slicing
