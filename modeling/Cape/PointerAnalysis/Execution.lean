import Cape.PointerAnalysis.PointerGraph

/-!
# Executions of a pointer graph

What a pointer graph means: the global nodes are executed in order, then a path from the root. An
allocation makes a new instance of its site each time. A value is an address (an instance and a byte
offset in it) or something that is no address of an allocation. Memory holds values at addresses; a
write may destroy what it overlaps.

The meaning is given for allocations, constants, loads, stores, GEPs, casts, PHIs and `memcpy`, and
for the nodes that do nothing.
-/

set_option autoImplicit false

namespace Cape.PointerAnalysis

universe u

/-- One of the objects that an allocation node made. -/
structure Instance (N : Type u) where
  site : N
  number : Nat
deriving DecidableEq

/-- A byte of an instance. -/
structure Address (N : Type u) where
  inst : Instance N
  offset : BitVec 64
deriving DecidableEq

/-- The pointer that stands for an address in the analysis. -/
def Address.pointer {N : Type u} (l : Address N) : Pointer N := ⟨.node l.inst.site, ⟨l.offset⟩⟩

/-- The values of the nodes, the memory, and how many instances of each site there are. -/
structure Configuration (N : Type u) where
  value : N → Option (Address N)
  memory : Address N → Option (Address N)
  allocated : N → Nat

namespace Configuration

variable {N : Type u}

/-- Nothing is allocated. -/
def start : Configuration N := ⟨fun _ => none, fun _ => none, fun _ => 0⟩

/-- The value of an operand. -/
def operand (c : Configuration N) : PSNode N → Option (Address N)
  | .node n => c.value n
  | _ => none

def setValue [DecidableEq N] (c : Configuration N) (n : N) (v : Option (Address N)) :
    Configuration N :=
  { c with value := Function.update c.value n v }

/-- The memory after a store. -/
def Stored (m : Address N → Option (Address N)) (l : Address N) (v : Option (Address N))
    (m' : Address N → Option (Address N)) : Prop :=
  m' l = v ∧ ∀ k, k ≠ l → m' k = m k ∨ m' k = none

theorem stored_update [DecidableEq N] (m : Address N → Option (Address N)) (l : Address N)
    (v : Option (Address N)) : Stored m l v (Function.update m l v) :=
  ⟨Function.update_self l v m, fun _ hk => Or.inl (Function.update_of_ne hk v m)⟩

/-- The memory after `len` bytes were copied; neither range wraps around. -/
def Copied (m : Address N → Option (Address N)) (src dest : Address N) (len : Nat)
    (m' : Address N → Option (Address N)) : Prop :=
  src.offset.toNat + len ≤ 2 ^ 64 ∧ dest.offset.toNat + len ≤ 2 ^ 64 ∧
    ∀ k, m' k = none ∨ m' k = m k ∨
      ∃ i, i < len ∧ k = ⟨dest.inst, dest.offset + BitVec.ofNat 64 i⟩ ∧
        m' k = m ⟨src.inst, src.offset + BitVec.ofNat 64 i⟩

end Configuration

variable {N : Type u} [DecidableEq N] (G : PointerGraph N)

/-- One node is executed. -/
inductive Exec : N → Configuration N → Configuration N → Prop
  | alloc {n : N} {c : Configuration N} : G.kind n = .alloc →
      Exec n c
        { c.setValue n (some ⟨⟨n, c.allocated n⟩, 0⟩) with
          allocated := Function.update c.allocated n (c.allocated n + 1) }
  | constant {n a : N} {off : Offset} {i : Nat} {o : BitVec 64} {c : Configuration N} :
      G.kind n = .constant (.node a) off → G.kind a = .alloc → i < c.allocated a →
      (off = .unknown ∨ ⟨o⟩ = off) → Exec n c (c.setValue n (some ⟨⟨a, i⟩, o⟩))
  | constantNone {n : N} {target : PSNode N} {off : Offset} {c : Configuration N} :
      G.kind n = .constant target off → Exec n c (c.setValue n none)
  | cast {n : N} {op : PSNode N} {c : Configuration N} : G.kind n = .cast op →
      Exec n c (c.setValue n (c.operand op))
  | phi {n : N} {ops : List (PSNode N)} {op : PSNode N} {c : Configuration N} :
      G.kind n = .phi ops → op ∈ ops → Exec n c (c.setValue n (c.operand op))
  | gep {n : N} {source : PSNode N} {off : Offset} {l : Address N} {o : BitVec 64}
      {c : Configuration N} : G.kind n = .gep source off → c.operand source = some l →
      (off = .unknown ∨ o = l.offset + off.offset) → Exec n c (c.setValue n (some ⟨l.inst, o⟩))
  | gepNone {n : N} {source : PSNode N} {off : Offset} {c : Configuration N} :
      G.kind n = .gep source off → c.operand source = none → Exec n c (c.setValue n none)
  | load {n : N} {op : PSNode N} {l : Address N} {c : Configuration N} :
      G.kind n = .load op → c.operand op = some l → Exec n c (c.setValue n (c.memory l))
  | loadNone {n : N} {op : PSNode N} {c : Configuration N} :
      G.kind n = .load op → c.operand op = none → Exec n c (c.setValue n none)
  | store {n : N} {value address : PSNode N} {l : Address N} {c : Configuration N}
      {m : Address N → Option (Address N)} : G.kind n = .store value address →
      c.operand address = some l → Configuration.Stored c.memory l (c.operand value) m →
      Exec n c { c with memory := m }
  | storeNone {n : N} {value address : PSNode N} {c : Configuration N} :
      G.kind n = .store value address → c.operand address = none → Exec n c c
  | memcpy {n : N} {source destination : PSNode N} {len : Offset} {src dest : Address N}
      {bytes : Nat} {c : Configuration N} {m : Address N → Option (Address N)} :
      G.kind n = .memcpy source destination len → c.operand source = some src →
      c.operand destination = some dest → (len = .unknown ∨ bytes = len.offset.toNat) →
      Configuration.Copied c.memory src dest bytes m → Exec n c { c with memory := m }
  | skip {n : N} {c : Configuration N} : G.kind n = .noop ∨ G.kind n = .entry → Exec n c c

/-- The nodes of a list are executed in order. -/
inductive ExecAll : List N → Configuration N → Configuration N → Prop
  | nil {c : Configuration N} : ExecAll [] c c
  | snoc {l : List N} {n : N} {c d e : Configuration N} : ExecAll l c d → Exec G n d e →
      ExecAll (l ++ [n]) c e

/-- The configurations of the executions: `Executes n c` when `n` was executed last and gave `c`. -/
inductive Executes : N → Configuration N → Prop
  | root {c d : Configuration N} : ExecAll G G.globals .start c → Exec G G.root c d →
      Executes G.root d
  | edge {n m : N} {c d : Configuration N} : Executes n c → m ∈ G.successors n → Exec G m c d →
      Executes m d

end Cape.PointerAnalysis
