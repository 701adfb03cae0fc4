import Cape.Library.FinLiterals
import Cape.PointerAnalysis.FlowInsensitive
import Cape.PointerAnalysis.SubgraphNode

/-!
# The optimizer of pointer graphs

`PointerGraphOptimizer`: noops are taken out of the graph, casts, GEPs with offset zero and PHIs with
one operand are merged with their operand, loads and stores of unknown memory are reduced, and nodes
are merged once more. A node is removed from the vector of nodes when it has no edges, users and
operands left, which `PointerGraph::remove` asserts.

No pass takes the operands from a node before it removes it. The optimizer is right on the graphs in
which it has only noops to remove that nothing uses (`optimizer_right_iff`).
-/

set_option autoImplicit false

namespace Cape.PointerAnalysis

open Cape.Library Relation

variable {N : Type}

namespace Kind

/-- The operands with which a node is created. -/
def operands : Kind N → List (PSNode N)
  | .load operand | .cast operand | .callFuncptr operand | .fork operand
  | .invalidateLocals operand | .free operand | .invalidateObject operand => [operand]
  | .store value address => [value, address]
  | .gep source _ => [source]
  | .constant target _ => [target]
  | .memcpy source destination _ => [source, destination]
  | .phi operands | .callReturn operands | .ret operands => operands
  | .alloc | .function | .call | .entry | .join | .noop => []

/-- The same type of node with other operands. The set of a constant stays the one that it got when it
was created. -/
def withOperands : Kind N → List (PSNode N) → Kind N
  | .load _, [operand] => .load operand
  | .cast _, [operand] => .cast operand
  | .callFuncptr _, [operand] => .callFuncptr operand
  | .fork _, [operand] => .fork operand
  | .invalidateLocals _, [operand] => .invalidateLocals operand
  | .free _, [operand] => .free operand
  | .invalidateObject _, [operand] => .invalidateObject operand
  | .store _ _, [value, address] => .store value address
  | .gep _ off, [source] => .gep source off
  | .memcpy _ _ len, [source, destination] => .memcpy source destination len
  | .phi _, operands => .phi operands
  | .callReturn _, operands => .callReturn operands
  | .ret _, operands => .ret operands
  | k, _ => k

/-- The nodes of this type have pointers: they may be operands (`hasNonpointerOperand`). -/
def hasPointers : Kind N → Bool
  | .noop | .free _ | .entry | .invalidateLocals _ | .invalidateObject _ | .memcpy _ _ _
  | .store _ _ => false
  | _ => true

end Kind

variable [DecidableEq N]

omit [DecidableEq N] in
/-- A graph as it is built: global nodes and others get their IDs from one counter, and the users of a
node are the nodes that have it as an operand. -/
structure BuiltGraph (N : Type) [DecidableEq N] extends PointerGraph N where
  /-- all nodes in the order in which they are created -/
  created : List N
  users : PSNode N → List (PSNode N)
  nodup_created : created.Nodup
  mem_created : ∀ n, n ∈ created
  globals_created : globals = created.filter (· ∈ globals)
  count_edges : ∀ a b, (successors a).count b = (predecessors b).count a
  nodup_users : ∀ o, (users o).Nodup
  mem_users : ∀ x o, x ∈ users o ↔ ∃ n, x = .node n ∧ o ∈ (kind n).operands

namespace BuiltGraph

variable (G : BuiltGraph N)

def getID (n : N) : Nat := G.created.idxOf n + 1

/-- The vector of the nodes that are not global; the first slot is that of the invalid node. -/
def nodes : List (Option N) := none :: (G.created.filter (· ∉ G.globals)).map some

/-- The vectors of the nodes, the static ones among them. -/
def links : SubgraphNodes (PSNode N) where
  successors
    | .node n => (G.successors n).map .node
    | _ => []
  predecessors
    | .node n => (G.predecessors n).map .node
    | _ => []
  operands
    | .node n => (G.kind n).operands
    | _ => []
  users := G.users

/-! ## Valid graphs -/

def hasNonpointerOperand (n : N) : Bool :=
  (G.kind n).operands.any fun
    | .node o => !(G.kind o).hasPointers
    | _ => false

/-- `checkOperands` for a node. The numbers of operands are those of the types, and every operand is a
node of the graph or a static one. -/
def invalidOperands (n : N) : Bool :=
  match G.kind n with
  | .phi operands => !operands.isEmpty && operands.Nodup && G.hasNonpointerOperand n
  | .gep _ _ | .load _ | .cast _ | .invalidateObject _ | .constant _ _ | .free _ | .store _ _
  | .memcpy _ _ _ => G.hasNonpointerOperand n
  | _ => false

def canBeOutsideGraph (n : N) : Bool :=
  match G.kind n with
  | .alloc => G.isGlobal n
  | .function | .constant _ _ => true
  | _ => false

/-- The edges that `getReachableNodes` follows. -/
def Follows (a b : N) : Prop :=
  b ∈ G.successors a ∨
    match G.kind a with
    | .call | .callFuncptr _ => b ∈ G.callees a
    | .ret _ => b ∈ G.returnSites a
    | _ => False

/-- `PointerGraphValidator::validate` finds nothing. -/
structure Valid (noConnectivity : Bool) : Prop where
  operands : ∀ n ∉ G.globals, G.invalidOperands n = false
  predecessors : noConnectivity = false → ∀ n ∉ G.globals, G.predecessors n = [] →
    G.kind n = .entry ∨ G.canBeOutsideGraph n = true
  reachable : noConnectivity = false → ∀ n ∉ G.globals,
    ReflTransGen G.Follows G.root n ∨ G.canBeOutsideGraph n = true

/-- There are no calls of function pointers, forks and joins. -/
def Direct : Prop :=
  ∀ n, match G.kind n with
    | .callFuncptr _ | .fork _ | .join => False
    | _ => True

end BuiltGraph

/-- A valid graph without calls of function pointers, forks and joins. -/
structure ValidGraph (N : Type) [DecidableEq N] extends BuiltGraph N where
  noConnectivity : Bool
  valid : toBuiltGraph.Valid noConnectivity
  direct : toBuiltGraph.Direct

/-- `PointsToMapping`: values that have no node of their own, with nodes for them. -/
structure PointsToMapping (V N : Type) where
  get : V → Option (PSNode N)

namespace PointsToMapping

variable {V : Type} [DecidableEq V]

omit [DecidableEq V] in
def empty : PointsToMapping V N := ⟨fun _ => none⟩

/-- `add` asserts that the value is not there yet. -/
def add (m : PointsToMapping V N) (val : V) (nd : PSNode N) : Option (PointsToMapping V N) :=
  if m.get val = none then some ⟨Function.update m.get val (some nd)⟩ else none

omit [DecidableEq V] in
/-- `merge`: the nodes of `rhs` are preferred. -/
def merge (m rhs : PointsToMapping V N) : PointsToMapping V N :=
  ⟨fun val => (rhs.get val).or (m.get val)⟩

end PointsToMapping

/-! ## The passes -/

/-- What the optimizer changes of the graph. -/
structure GraphNodes (N : Type) where
  nodes : List (Option N)
  links : SubgraphNodes (PSNode N)

/-- A pass: the graph, its mapping and how many nodes it has removed. -/
structure Pass (N : Type) where
  graph : GraphNodes N
  mapping : PointsToMapping (PSNode N) N
  removed : Nat

namespace PointerGraphOptimizer

variable (order : Order (PSNode N)) (G : BuiltGraph N)

/-- `PointerGraph::remove`. The static nodes have the invalid ID. -/
def remove (s : GraphNodes N) : PSNode N → Option (GraphNodes N)
  | .node n =>
      if s.links.successors (.node n) = [] ∧ s.links.predecessors (.node n) = [] ∧
          G.getID n < s.nodes.length + G.globals.length ∧ 0 < G.getID n ∧
          s.links.users (.node n) = [] ∧ s.links.operands (.node n) = [] ∧
          s.nodes[G.getID n]? = some (some n) then
        some { s with nodes := s.nodes.set (G.getID n) none }
      else none
  | _ => none

/-- The node is isolated and removed. -/
def isolateAndRemove (s : GraphNodes N) (nd : PSNode N) : Option (GraphNodes N) := do
  let links ← s.links.isolate nd
  remove G { s with links := links } nd

omit [DecidableEq N] in
/-- The body of a loop over the nodes: a slot may have become empty before the loop comes there. -/
def atSlot (f : Nat → N → Pass N → Option (Pass N)) (p : Pass N) (i : Nat) : Option (Pass N) :=
  match p.graph.nodes[i]? with
  | some (some n) => f i n p
  | _ => some p

omit [DecidableEq N] in
/-- A loop over the nodes. -/
def forNodes (f : Nat → N → Pass N → Option (Pass N)) (p : Pass N) : Option (Pass N) :=
  (List.range p.graph.nodes.length).foldlM (atSlot f) p

/-- `PSNoopRemover` at a node. -/
def removeNoop (n : N) (p : Pass N) : Option (Pass N) :=
  if G.kind n = .noop then do
    let graph ← isolateAndRemove G p.graph (.node n)
    some { p with graph := graph, removed := p.removed + 1 }
  else some p

def getOperand (s : GraphNodes N) (nd : PSNode N) (i : Nat) : Option (PSNode N) :=
  (s.links.operands nd)[i]?

def isStoreOfUnknown (s : GraphNodes N) (S to' : PSNode N) : Bool :=
  match S with
  | .node n =>
      match G.kind n with
      | .store _ _ => getOperand s S 1 = some to' && getOperand s S 0 = some .unknownMemory
      | _ => false
  | _ => false

def isLoad : PSNode N → Bool
  | .node n =>
      match G.kind n with
      | .load _ => true
      | _ => false
  | _ => false

def usersImplyUnknown (s : GraphNodes N) (nd : PSNode N) : Bool :=
  (s.links.users nd).all fun user => isStoreOfUnknown G s user nd || isLoad G user

def allOperandsAreSame (s : GraphNodes N) (nd : PSNode N) : Bool :=
  match s.links.operands nd with
  | [] => true
  | op0 :: operands => operands.all (op0 = ·)

/-- `merge`: `node2` is the representative of `node1`, which is removed. -/
def merge (node1 node2 : PSNode N) (p : Pass N) : Option (Pass N) :=
  if node2 = node1 then none
  else do
    let links := p.graph.links.replaceAllUsesWith order node1 node2 false
    let graph ← isolateAndRemove G { p.graph with links := links } node1
    let mapping ← p.mapping.add node1 node2
    some ⟨graph, mapping, p.removed + 1⟩

def mergeWithOperand (nd : PSNode N) (p : Pass N) : Option (Pass N) := do
  let operand ← getOperand p.graph nd 0
  merge order G nd operand p

/-- `mergeCasts` at a node. -/
def mergeCast (n : N) (p : Pass N) : Option (Pass N) :=
  match G.kind n with
  | .cast _ => mergeWithOperand order G (.node n) p
  | .gep _ off => if off = 0 then mergeWithOperand order G (.node n) p else some p
  | .phi _ =>
      if 0 < (p.graph.links.operands (.node n)).length ∧ allOperandsAreSame p.graph (.node n) then
        mergeWithOperand order G (.node n) p
      else some p
  | _ => some p

/-- The uses of a node are replaced by unknown memory. -/
def replaceByUnknown (user : PSNode N) (p : Pass N) : Option (Pass N) :=
  if .unknownMemory = user then none
  else do
    let links := p.graph.links.replaceAllUsesWith order user .unknownMemory false
    let mapping ← p.mapping.add user .unknownMemory
    some { p with graph := { p.graph with links := links }, mapping := mapping }

/-- `processAllocs` at a user. -/
def reduceUser (replaced : Bool) (p : Pass N) (user : PSNode N) : Option (Pass N) := do
  let p ← if replaced then replaceByUnknown order user p else some p
  let graph ← isolateAndRemove G p.graph user
  some { p with graph := graph, removed := p.removed + 1 }

/-- `processAllocs` at the node in slot `i`. The users of the node stay the same in its loop, since
only uses of other nodes are replaced. -/
def processAlloc (i : Nat) (n : N) (p : Pass N) : Option (Pass N) :=
  match G.kind n with
  | .alloc =>
      if usersImplyUnknown G p.graph (.node n) then
        (p.graph.links.users (.node n)).foldlM
          (fun p user => reduceUser order G (isLoad G user) p user) p
      else some p
  | .phi _ =>
      if (p.graph.links.operands (.node n)).length = 0 then do
        let p ← (p.graph.links.users (.node n)).foldlM (reduceUser order G true) p
        let graph ← isolateAndRemove G p.graph (.node n)
        if graph.nodes[i]? = some none then
          some { p with graph := graph, removed := p.removed + 1 }
        else none
      else some p
  | _ => some p

/-! ## The run -/

/-- A pass over the graph on its own: the mapping is taken over when it has removed a node. -/
def withPass (f : Nat → N → Pass N → Option (Pass N)) (p : Pass N) : Option (Pass N) := do
  let q ← forNodes f ⟨p.graph, .empty, 0⟩
  if q.removed = 0 then some { p with graph := q.graph }
  else some ⟨q.graph, p.mapping.merge q.mapping, p.removed + q.removed⟩

def removeNoops (p : Pass N) : Option (Pass N) := withPass (fun _ => removeNoop G) p

def removeEquivalentNodes (p : Pass N) : Option (Pass N) := withPass (fun _ => mergeCast order G) p

def removeUnknowns (p : Pass N) : Option (Pass N) := withPass (processAlloc order G) p

def start : Pass N := ⟨⟨G.nodes, G.links⟩, .empty, 0⟩

/-- `PointerGraphOptimizer::run` on a graph; `none` when an assertion fails. -/
def run : Option (Pass N) := do
  let p ← removeNoops G (start G)
  let p ← removeEquivalentNodes order G p
  let p ← removeUnknowns order G p
  removeEquivalentNodes order G p

/-! ## What the optimizer promises -/

omit [DecidableEq N] in
/-- The node, when it is one of the graph. -/
def graphNode : PSNode N → Option N
  | .node n => some n
  | _ => none

omit [DecidableEq N] in
theorem mem_graphNodes {l : List (PSNode N)} {n : N} : n ∈ l.filterMap graphNode ↔ .node n ∈ l := by
  rw [List.mem_filterMap]
  constructor
  · rintro ⟨x, hx, h⟩
    cases x with
    | node m =>
        obtain rfl := Option.some.inj h
        exact hx
    | _ => cases h
  · exact fun h => ⟨.node n, h, rfl⟩

/-- The graph that the analysis gets after the optimizer. -/
def optimized (s : GraphNodes N) (hs : s.links.Converse) : PointerGraph N :=
  { G.toPointerGraph with
    kind := fun n => (G.kind n).withOperands (s.links.operands (.node n))
    successors := fun n => (s.links.successors (.node n)).filterMap graphNode
    predecessors := fun n => (s.links.predecessors (.node n)).filterMap graphNode
    mem_predecessors := fun a b => by rw [mem_graphNodes, mem_graphNodes, hs.mem_iff] }

def Removed (s : GraphNodes N) (n : N) : Prop := some n ∈ G.nodes ∧ some n ∉ s.nodes

def Remains (s : GraphNodes N) : PSNode N → Prop
  | .node n => some n ∈ s.nodes ∨ n ∈ G.globals
  | _ => True

/-- No node that remains has the node as operand, user, successor or predecessor, and the node has no
operands. -/
def Unreferenced (s : GraphNodes N) (n : N) : Prop :=
  s.links.operands (.node n) = [] ∧
    ∀ x, Remains G s x → .node n ∉ s.links.operands x ∧ .node n ∉ s.links.users x ∧
      .node n ∉ s.links.successors x ∧ .node n ∉ s.links.predecessors x

/-- The set of `nd` in the graph `G'` covers that of `n` in the graph as it is built. -/
def CoversSet [Fintype N] (opts : PointerAnalysisOptions) (G' : PointerGraph N) (n : N)
    (nd : PSNode N) : Prop :=
  ∀ fuel s fuel' s', FI.run G.toPointerGraph opts fuel = some s → FI.run G' opts fuel' = some s' →
    ∀ p, (s.pts (.node n)).Covers p → (s'.pts nd).Covers p

/-- The run ends with nothing that refers to a removed node, and its mapping has a node that remains
for every removed node that has pointers, with a set that covers that of the removed one. -/
def Right [Fintype N] (opts : PointerAnalysisOptions) : Prop :=
  ∃ p, run order G = some p ∧ (∀ n, Removed G p.graph n → Unreferenced G p.graph n) ∧
    ∃ hedges : p.graph.links.Converse,
      ∀ n, Removed G p.graph n → (G.kind n).hasPointers = true →
        ∃ nd, p.mapping.get (.node n) = some nd ∧ Remains G p.graph nd ∧
          CoversSet G opts (optimized G p.graph hedges) n nd

/-- Noops that have been removed when the loop comes to a node. -/
def EarlierNoops (n : N) : Set (PSNode N) :=
  {x | ∃ m, x = .node m ∧ m ∉ G.globals ∧ G.kind m = .noop ∧ G.getID m < G.getID n}

/-- Through vertices of `S` the node reaches itself, and also a node that is not in `S`. -/
def LoopThrough (S : Set (PSNode N)) (n : N) : Prop :=
  Elimination.Via G.links.Edge S (.node n) (.node n) ∧
    ∃ x, x ≠ .node n ∧ x ∉ S ∧ Elimination.Via G.links.Edge S (.node n) x

omit [DecidableEq N] in
/-- `mergeCasts` leaves the node alone. -/
def Unmerged : Kind N → Prop
  | .cast _ => False
  | .gep _ off => off ≠ 0
  | .phi operands => operands = [] ∨ ∃ o ∈ operands, ∃ o' ∈ operands, o ≠ o'
  | _ => True

/-- An allocation is left alone: it has no users, or one that is no load and no store of unknown
memory. -/
def UsersLeft (n : N) : Prop :=
  G.users (.node n) = [] ∨ usersImplyUnknown G (start G).graph (.node n) = false

/-- Nothing but noops is there to be removed, and these have no users, come before every global node and
have no loop with a successor when it is their turn. -/
structure Fits : Prop where
  unmerged : ∀ n ∉ G.globals, Unmerged (G.kind n)
  phis : ∀ n ∉ G.globals, G.kind n ≠ .phi []
  allocs : ∀ n ∉ G.globals, G.kind n = .alloc → UsersLeft G n
  noops : ∀ n ∉ G.globals, G.kind n = .noop → G.users (.node n) = [] ∧
    (∀ m ∈ G.globals, G.getID n < G.getID m) ∧ ¬ LoopThrough G (EarlierNoops G n) n

/-! ## The graph at the start -/

section Start

variable {G}

theorem mem_nodes {n : N} : some n ∈ G.nodes ↔ n ∉ G.globals := by
  simp [BuiltGraph.nodes, G.mem_created]

theorem slot_inj {i j : Nat} {n : N} (hi : G.nodes[i]? = some (some n))
    (hj : G.nodes[j]? = some (some n)) : i = j := by
  have hnodup : G.nodes.Nodup := by
    rw [BuiltGraph.nodes, List.nodup_cons]
    refine ⟨by simp, ?_⟩
    exact (G.nodup_created.filter _).map (Option.some_injective N)
  have hlt : i < G.nodes.length := (List.getElem?_eq_some_iff.1 hi).1
  exact (List.getElem?_inj hlt hnodup).1 (hi.trans hj.symm)

omit [DecidableEq N] in
/-- An element of a list stands at the same place in the part that meets `q` when everything before it
does. -/
theorem getElem?_filter_length {q : N → Bool} {n : N} {l₁ l₂ : List N} (hn : n ∉ l₂) :
    ((l₁ ++ n :: l₂).filter q)[l₁.length]? = some n ↔ q n = true ∧ ∀ m ∈ l₁, q m = true := by
  rw [List.filter_append]
  constructor
  · intro h
    have hq : q n = true := by
      have hmem := List.mem_of_getElem? h
      rw [← List.filter_append] at hmem
      exact (List.mem_filter.1 hmem).2
    refine ⟨hq, ?_⟩
    -- a shorter part before it would leave its place to what comes after it
    have hle := List.length_filter_le q l₁
    rcases hle.lt_or_eq with hlt | heq
    · rw [List.getElem?_append_right hle, List.filter_cons_of_pos hq,
        List.getElem?_cons, if_neg (by omega)] at h
      exact absurd (List.mem_filter.1 (List.mem_of_getElem? h)).1 hn
    · exact List.length_filter_eq_length_iff.1 heq
  · rintro ⟨hq, hall⟩
    rw [List.filter_eq_self.2 hall, List.getElem?_append_right le_rfl, Nat.sub_self,
      List.filter_cons_of_pos hq]
    rfl

/-- The slot of its ID holds a node when no global node was created before. -/
theorem slot_getID {n : N} (hn : n ∉ G.globals) :
    G.nodes[G.getID n]? = some (some n) ↔ ∀ m ∈ G.globals, G.getID n < G.getID m := by
  obtain ⟨l₁, l₂, hcreated⟩ := List.append_of_mem (G.mem_created n)
  have hnodup := G.nodup_created
  rw [hcreated] at hnodup
  obtain ⟨-, hnodup₂, hdisj⟩ := List.nodup_append.1 hnodup
  have hn₂ : n ∉ l₂ := (List.nodup_cons.1 hnodup₂).1
  have hn₁ : n ∉ l₁ := fun hmem => hdisj n hmem n List.mem_cons_self rfl
  have hid : G.created.idxOf n = l₁.length := by
    rw [hcreated, List.idxOf_append_of_notMem hn₁, List.idxOf_cons_self]
    rfl
  rw [BuiltGraph.nodes, BuiltGraph.getID, List.getElem?_cons_succ, List.getElem?_map,
    Option.map_eq_some_iff]
  simp only [Option.some.injEq, exists_eq_right]
  rw [hid, hcreated, getElem?_filter_length hn₂]
  simp only [decide_eq_true_eq]
  constructor
  · rintro ⟨-, hall⟩ m hm
    have hm₁ : m ∉ l₁ := fun hmem => hall m hmem hm
    have hne : n ≠ m := fun heq => hn (heq ▸ hm)
    rw [BuiltGraph.getID, hcreated, List.idxOf_append_of_notMem hm₁, List.idxOf_cons_ne _ hne]
    omega
  · intro h
    refine ⟨hn, fun m hm hglobal => ?_⟩
    have hlt := h m hglobal
    rw [BuiltGraph.getID, hcreated, List.idxOf_append_of_mem hm] at hlt
    have hlen := List.idxOf_lt_length_of_mem hm
    omega

theorem operands_links (x : PSNode N) {o : PSNode N} :
    o ∈ G.links.operands x ↔ ∃ n, x = .node n ∧ o ∈ (G.kind n).operands := by
  cases x with
  | node n => simp [BuiltGraph.links]
  | _ => simp [BuiltGraph.links]

theorem inv_links : G.links.Inv where
  edges := by
    have hinj : Function.Injective (PSNode.node : N → PSNode N) := fun _ _ h => PSNode.node.inj h
    have hnone : ∀ (l : List N) (x : PSNode N), (∀ n, x ≠ .node n) → (l.map .node).count x = 0 := by
      intro l x hx
      refine List.count_eq_zero.2 fun hmem => ?_
      obtain ⟨n, -, rfl⟩ := List.mem_map.1 hmem
      exact hx n rfl
    intro x y
    -- no edge is at a static node
    cases x with
    | node a =>
        cases y with
        | node b =>
            show ((G.successors a).map PSNode.node).count (.node b) =
              ((G.predecessors b).map PSNode.node).count (.node a)
            rw [List.count_map_of_injective _ _ hinj, List.count_map_of_injective _ _ hinj,
              G.count_edges]
        | _ => exact hnone (G.successors a) _ (by simp)
    | _ =>
        cases y with
        | node b => exact (hnone (G.predecessors b) _ (by simp)).symm
        | _ => rfl
  uses := ⟨G.nodup_users, fun x o => (G.mem_users x o).trans (operands_links x).symm⟩

end Start

omit [DecidableEq N] in
theorem eq_of_slot {l : List (Option N)} {i : Nat} {n m : N} (hn : l[i]? = some (some n))
    (hm : l[i]? = some (some m)) : n = m :=
  Option.some.inj (Option.some.inj (hn.symm.trans hm))

omit [DecidableEq N] in
theorem atSlot_of_some {f : Nat → N → Pass N → Option (Pass N)} {p : Pass N} {i : Nat} {n : N}
    (h : p.graph.nodes[i]? = some (some n)) : atSlot f p i = f i n p := by
  rw [atSlot, h]

omit [DecidableEq N] in
theorem atSlot_of_empty {f : Nat → N → Pass N → Option (Pass N)} {p : Pass N} {i : Nat}
    (h : ∀ n, p.graph.nodes[i]? ≠ some (some n)) : atSlot f p i = some p := by
  rw [atSlot]
  split
  · next n hn => exact absurd hn (h n)
  · rfl

/-! ## Removing a node -/

section Remove

variable {G} {s s' : GraphNodes N}

theorem isolateAndRemove_eq_some {n : N} (h : isolateAndRemove G s (.node n) = some s') :
    ∃ links, s.links.isolate (.node n) = some links ∧ s' = ⟨s.nodes.set (G.getID n) none, links⟩ := by
  obtain ⟨links, hlinks, h⟩ := Option.bind_eq_some_iff.1 h
  rw [remove] at h
  split at h
  · exact ⟨links, hlinks, (Option.some.inj h).symm⟩
  · cases h

/-- What the removal asserts, in terms of the node before it is isolated. -/
theorem exists_isolateAndRemove (hs : s.links.Converse) (n : N) :
    (∃ s', isolateAndRemove G s (.node n) = some s') ↔ ¬ s.links.LoopWithSuccessor (.node n) ∧
      s.links.users (.node n) = [] ∧ s.links.operands (.node n) = [] ∧
        s.nodes[G.getID n]? = some (some n) := by
  -- an isolated node has no edges, and its operands and users are as before
  have hremove : ∀ links, s.links.isolate (.node n) = some links →
      ((∃ s', remove G { s with links := links } (.node n) = some s') ↔
        s.links.users (.node n) = [] ∧ s.links.operands (.node n) = [] ∧
          s.nodes[G.getID n]? = some (some n)) := by
    intro links hlinks
    obtain ⟨⟨hsucc, hpred⟩, -⟩ := SubgraphNodes.takenOut_isolate hs hlinks
    obtain ⟨hoperands, husers⟩ := SubgraphNodes.sameUses_isolate hlinks
    simp only [remove, hsucc, hpred, hoperands, husers, true_and]
    split
    · next h => exact ⟨fun _ => h.2.2, fun _ => ⟨_, rfl⟩⟩
    · next h =>
        constructor
        · rintro ⟨s', hs'⟩
          cases hs'
        · intro h'
          have hlt := (List.getElem?_eq_some_iff.1 h'.2.2).1
          exact absurd ⟨by omega, Nat.succ_pos _, h'⟩ h
  constructor
  · rintro ⟨s', h⟩
    obtain ⟨links, hlinks, h⟩ := Option.bind_eq_some_iff.1 h
    refine ⟨fun hloop => ?_, (hremove links hlinks).1 ⟨s', h⟩⟩
    have hnone := (SubgraphNodes.isolate_spec hs (.node n)).1.2 hloop
    exact Option.some_ne_none links (hlinks.symm.trans hnone)
  · rintro ⟨hloop, h⟩
    obtain ⟨links, hlinks⟩ := Option.ne_none_iff_exists'.1 fun hnone =>
      hloop ((SubgraphNodes.isolate_spec hs (.node n)).1.1 hnone)
    obtain ⟨s', hs'⟩ := (hremove links hlinks).2 h
    exact ⟨s', Option.bind_eq_some_iff.2 ⟨links, hlinks, hs'⟩⟩

/-- **A node with operands cannot be removed.** -/
theorem isolateAndRemove_eq_none {nd : PSNode N} (h : s.links.operands nd ≠ []) :
    isolateAndRemove G s nd = none := by
  refine Option.eq_none_iff_forall_ne_some.2 fun s' hs' => ?_
  obtain ⟨links, hlinks, hs'⟩ := Option.bind_eq_some_iff.1 hs'
  cases nd with
  | node n =>
      rw [remove] at hs'
      split at hs'
      · next hassert =>
          apply h
          rw [← (SubgraphNodes.sameUses_isolate hlinks).1]
          exact hassert.2.2.2.2.2.1
      · cases hs'
  | _ => cases hs'

end Remove

/-! ## Noops -/

section Noops

variable {G}

/-- The noops in the first slots. -/
def NoopsDone (G : BuiltGraph N) (k : Nat) : Set (PSNode N) :=
  {x | ∃ j < k, ∃ m, G.nodes[j]? = some (some m) ∧ G.kind m = .noop ∧ x = .node m}

/-- A noop in the slot can be removed. -/
def NoopFits (G : BuiltGraph N) (k : Nat) : Prop :=
  ∀ n, G.nodes[k]? = some (some n) → G.kind n = .noop →
    G.users (.node n) = [] ∧ G.getID n = k ∧ ¬ LoopThrough G (NoopsDone G k) n

/-- The noops in the first slots are gone, and the edges go around them. -/
structure NoopInv (G : BuiltGraph N) (k : Nat) (p : Pass N) : Prop where
  slots : ∀ j n, p.graph.nodes[j]? = some (some n) ↔
    G.nodes[j]? = some (some n) ∧ ¬ (j < k ∧ G.kind n = .noop)
  edges : p.graph.links.Converse
  uses : SubgraphNodes.SameUses G.links p.graph.links
  around : ∀ x y, p.graph.links.Edge x y ↔
    x ∉ NoopsDone G k ∧ y ∉ NoopsDone G k ∧ Elimination.Via G.links.Edge (NoopsDone G k) x y
  mapping : ∀ x, p.mapping.get x = none

theorem noopInv_start : NoopInv G 0 (start G) := by
  have hnone : NoopsDone G 0 = ∅ := by
    refine Set.eq_empty_iff_forall_notMem.2 ?_
    rintro x ⟨j, hj, -⟩
    exact absurd hj j.not_lt_zero
  refine ⟨fun j n => by simp [start], inv_links.edges, ⟨rfl, rfl⟩, fun x y => ?_, fun _ => rfl⟩
  rw [hnone, Elimination.via_empty]
  simp [start]

theorem noopsDone_succ_of_noop {k : Nat} {n : N} (hk : G.nodes[k]? = some (some n))
    (hn : G.kind n = .noop) : NoopsDone G (k + 1) = insert (.node n) (NoopsDone G k) := by
  ext x
  rw [Set.mem_insert_iff]
  constructor
  · rintro ⟨j, hj, m, hm, hnoop, rfl⟩
    rcases Nat.lt_succ_iff_lt_or_eq.1 hj with hj | rfl
    · exact Or.inr ⟨j, hj, m, hm, hnoop, rfl⟩
    · obtain rfl := eq_of_slot hm hk
      exact Or.inl rfl
  · rintro (rfl | ⟨j, hj, m, hm, hnoop, rfl⟩)
    · exact ⟨k, k.lt_succ_self, n, hk, hn, rfl⟩
    · exact ⟨j, hj.trans k.lt_succ_self, m, hm, hnoop, rfl⟩

theorem noopsDone_succ_of_not_noop {k : Nat}
    (hk : ∀ n, G.nodes[k]? = some (some n) → G.kind n ≠ .noop) :
    NoopsDone G (k + 1) = NoopsDone G k := by
  ext x
  constructor
  · rintro ⟨j, hj, m, hm, hnoop, rfl⟩
    rcases Nat.lt_succ_iff_lt_or_eq.1 hj with hj | rfl
    · exact ⟨j, hj, m, hm, hnoop, rfl⟩
    · exact absurd hnoop (hk m hm)
  · rintro ⟨j, hj, m, hm, hnoop, rfl⟩
    exact ⟨j, hj.trans k.lt_succ_self, m, hm, hnoop, rfl⟩

/-- A slot without a noop changes nothing. -/
theorem NoopInv.succ {k : Nat} {p : Pass N} (hp : NoopInv G k p)
    (hk : ∀ n, G.nodes[k]? = some (some n) → G.kind n ≠ .noop) : NoopInv G (k + 1) p := by
  refine ⟨fun j n => ?_, hp.edges, hp.uses, fun x y => ?_, hp.mapping⟩
  · rw [hp.slots]
    refine and_congr_right fun hj => not_congr ?_
    refine ⟨fun h => ⟨h.1.trans k.lt_succ_self, h.2⟩, fun h => ⟨?_, h.2⟩⟩
    rcases Nat.lt_succ_iff_lt_or_eq.1 h.1 with hlt | rfl
    · exact hlt
    · exact absurd h.2 (hk n hj)
  · rw [noopsDone_succ_of_not_noop hk]
    exact hp.around x y

/-- The node in a slot is none of the noops before it. -/
theorem notMem_noopsDone {k : Nat} {n : N} (hk : G.nodes[k]? = some (some n)) :
    .node n ∉ NoopsDone G k := by
  rintro ⟨j, hj, m, hm, -, heq⟩
  obtain rfl := PSNode.node.inj heq
  exact absurd (slot_inj hk hm) (Nat.ne_of_gt hj)

theorem NoopInv.loop_iff {k : Nat} {p : Pass N} (hp : NoopInv G k p) {n : N}
    (hk : G.nodes[k]? = some (some n)) :
    p.graph.links.LoopWithSuccessor (.node n) ↔ LoopThrough G (NoopsDone G k) n := by
  have hn := notMem_noopsDone hk
  have hedge : ∀ y, y ∈ p.graph.links.successors (.node n) ↔ y ∉ NoopsDone G k ∧
      Elimination.Via G.links.Edge (NoopsDone G k) (.node n) y := by
    intro y
    refine Iff.trans (hp.around (.node n) y) ?_
    simp [hn]
  rw [SubgraphNodes.LoopWithSuccessor, LoopThrough, hedge]
  refine and_congr (by simp [hn]) (exists_congr fun y => ?_)
  rw [hedge]
  constructor
  · rintro ⟨⟨hy, hvia⟩, hne⟩
    exact ⟨hne, hy, hvia⟩
  · rintro ⟨hne, hy, hvia⟩
    exact ⟨⟨hy, hvia⟩, hne⟩

/-- The noop in the next slot is removed. -/
theorem NoopInv.removed {k : Nat} {p : Pass N} (hp : NoopInv G k p) {n : N}
    (hk : G.nodes[k]? = some (some n)) (hn : G.kind n = .noop) {links : SubgraphNodes (PSNode N)}
    (hlinks : p.graph.links.isolate (.node n) = some links) (removed : Nat) :
    NoopInv G (k + 1) ⟨⟨p.graph.nodes.set k none, links⟩, p.mapping, removed⟩ := by
  obtain ⟨huses₁, huses₂⟩ := SubgraphNodes.sameUses_isolate hlinks
  refine ⟨fun j m => ?_, SubgraphNodes.converse_isolate hp.edges hlinks,
    ⟨huses₁.trans hp.uses.1, huses₂.trans hp.uses.2⟩, fun x y => ?_, hp.mapping⟩
  · show (p.graph.nodes.set k none)[j]? = some (some m) ↔ _
    rw [List.getElem?_set]
    by_cases hj : k = j
    · subst hj
      rw [if_pos rfl]
      refine ⟨fun hset => by split at hset <;> simp at hset, fun hmem => ?_⟩
      obtain rfl := eq_of_slot hmem.1 hk
      exact (hmem.2 ⟨k.lt_succ_self, hn⟩).elim
    · rw [if_neg hj, hp.slots]
      refine and_congr_right fun _ => not_congr (and_congr_left fun _ => ?_)
      omega
  · -- the edges around one more noop
    show links.Edge x y ↔ _
    rw [SubgraphNodes.edge_isolate hp.edges hlinks, noopsDone_succ_of_noop hk hn,
      ← Elimination.without_via (notMem_noopsDone hk)]
    have hedges : p.graph.links.Edge = fun x y => x ∉ NoopsDone G k ∧ y ∉ NoopsDone G k ∧
        Elimination.Via G.links.Edge (NoopsDone G k) x y :=
      funext fun x => funext fun y => propext (hp.around x y)
    rw [hedges]

/-- **A step of the loop over the noops.** -/
theorem removeNoop_step {k : Nat} {p : Pass N} (hp : NoopInv G k p) {n : N}
    (hk : G.nodes[k]? = some (some n)) (hn : G.kind n = .noop) :
    ((∃ p', removeNoop G n p = some p') ↔ NoopFits G k) ∧
      ∀ p', removeNoop G n p = some p' → NoopInv G (k + 1) p' := by
  have hiff := exists_isolateAndRemove (G := G) hp.edges n
  have hoperands : p.graph.links.operands (.node n) = [] := by
    rw [hp.uses.1]
    simp [BuiltGraph.links, hn, Kind.operands]
  -- the slot that the removal clears is this one
  have hslot : p.graph.nodes[G.getID n]? = some (some n) ↔ G.getID n = k := by
    rw [hp.slots]
    constructor
    · exact fun h => slot_inj h.1 hk
    · intro h
      rw [h]
      exact ⟨hk, fun hlt => absurd hlt.1 (Nat.lt_irrefl k)⟩
  have hsplit : ∀ p', removeNoop G n p = some p' ↔ ∃ graph,
      isolateAndRemove G p.graph (.node n) = some graph ∧
        some { p with graph := graph, removed := p.removed + 1 } = some p' := by
    intro p'
    rw [removeNoop, if_pos hn]
    exact Option.bind_eq_some_iff
  rw [hp.loop_iff hk, hp.uses.2, hslot] at hiff
  refine ⟨⟨?_, fun h => ?_⟩, fun p' h => ?_⟩
  · rintro ⟨p', h⟩ m hm -
    obtain rfl := eq_of_slot hm hk
    obtain ⟨graph, hgraph, -⟩ := (hsplit p').1 h
    obtain ⟨hloop, husers, -, hid⟩ := hiff.1 ⟨graph, hgraph⟩
    exact ⟨husers, hid, hloop⟩
  · obtain ⟨husers, hid, hloop⟩ := h n hk hn
    obtain ⟨graph, hgraph⟩ := hiff.2 ⟨hloop, husers, hoperands, hid⟩
    exact ⟨_, (hsplit _).2 ⟨graph, hgraph, rfl⟩⟩
  · obtain ⟨graph, hgraph, h⟩ := (hsplit p').1 h
    obtain rfl := Option.some.inj h
    obtain ⟨-, -, -, hid⟩ := hiff.1 ⟨graph, hgraph⟩
    obtain ⟨links, hlinks, rfl⟩ := isolateAndRemove_eq_some hgraph
    rw [hid]
    exact hp.removed hk hn hlinks (p.removed + 1)

/-- **The loop over the noops.** -/
theorem forNodes_removeNoop :
    ((∃ p, forNodes (fun _ => removeNoop G) (start G) = some p) ↔
      ∀ k < G.nodes.length, NoopFits G k) ∧
    ∀ p, forNodes (fun _ => removeNoop G) (start G) = some p → NoopInv G G.nodes.length p := by
  refine FallibleLoop.foldlM_range_iff (fun k _ p hp => ?_) noopInv_start
  -- without a noop in the slot nothing is asked and nothing happens
  have hidle : (∀ n, G.nodes[k]? = some (some n) → G.kind n ≠ .noop) →
      ((∃ p', some p = some p') ↔ NoopFits G k) ∧ ∀ p', some p = some p' → NoopInv G (k + 1) p' := by
    intro h
    refine ⟨⟨fun _ n hn hnoop => absurd hnoop (h n hn), fun _ => ⟨p, rfl⟩⟩, fun p' hp' => ?_⟩
    obtain rfl := Option.some.inj hp'
    exact hp.succ h
  by_cases hslot : ∃ n, p.graph.nodes[k]? = some (some n)
  · obtain ⟨n, hn⟩ := hslot
    have hk := ((hp.slots k n).1 hn).1
    rw [atSlot_of_some hn]
    by_cases hnoop : G.kind n = .noop
    · exact removeNoop_step hp hk hnoop
    · rw [removeNoop, if_neg hnoop]
      apply hidle
      intro m hm
      obtain rfl := eq_of_slot hm hk
      exact hnoop
  · rw [atSlot_of_empty fun n hn => hslot ⟨n, hn⟩]
    refine hidle fun n hn hnoop => hslot ⟨n, ?_⟩
    exact (hp.slots k n).2 ⟨hn, fun hlt => absurd hlt.1 (Nat.lt_irrefl k)⟩

end Noops

/-! ## The other passes -/

section Rest

variable {G}

/-- The operands and users are those that the graph is built with. -/
abbrev SameOperands (G : BuiltGraph N) (p : Pass N) : Prop :=
  SubgraphNodes.SameUses G.links p.graph.links

theorem operands_eq {p : Pass N} (hp : SameOperands G p) (n : N) :
    p.graph.links.operands (.node n) = (G.kind n).operands := by
  rw [hp.1]
  rfl

theorem users_eq {p : Pass N} (hp : SameOperands G p) : p.graph.links.users = G.users := hp.2

theorem usesInv {p : Pass N} (hp : SameOperands G p) : p.graph.links.UsesInv :=
  inv_links.uses.of_same hp

/-- A user has an operand. -/
theorem operands_ne_nil_of_user {p : Pass N} (hp : SameOperands G p) {x user : PSNode N}
    (h : user ∈ p.graph.links.users x) : p.graph.links.operands user ≠ [] :=
  List.ne_nil_of_mem (((usesInv hp).converse user x).1 h)

omit [DecidableEq N] in
/-- A loop in which each node either changes nothing or fails. -/
theorem forNodes_idle {f : Nat → N → Pass N → Option (Pass N)} {p : Pass N} {C : N → Prop}
    (h : ∀ i n, p.graph.nodes[i]? = some (some n) →
      (C n → f i n p = some p) ∧ (¬ C n → f i n p = none)) :
    ((∃ p', forNodes f p = some p') ↔ ∀ n, some n ∈ p.graph.nodes → C n) ∧
      ∀ p', forNodes f p = some p' → p' = p := by
  -- the invariant: the loop is where it began
  have hloop := FallibleLoop.foldlM_range_iff (g := atSlot f) (I := fun _ q => q = p)
    (C := fun i => ∀ n, p.graph.nodes[i]? = some (some n) → C n) (m := p.graph.nodes.length)
    (s := p) ?_ rfl
  · refine ⟨hloop.1.trans ⟨fun hall n hn => ?_, fun hall i _ n hn => ?_⟩, hloop.2⟩
    · obtain ⟨i, hi⟩ := List.mem_iff_getElem?.1 hn
      exact hall i (List.getElem?_eq_some_iff.1 hi).1 n hi
    · exact hall n (List.mem_of_getElem? hn)
  · rintro i - q rfl
    by_cases hslot : ∃ n, q.graph.nodes[i]? = some (some n)
    · obtain ⟨n, hn⟩ := hslot
      rw [atSlot_of_some hn]
      have hC : (∀ m, q.graph.nodes[i]? = some (some m) → C m) ↔ C n := by
        refine ⟨fun hall => hall n hn, fun hCn m hm => ?_⟩
        obtain rfl := eq_of_slot hm hn
        exact hCn
      rw [hC]
      by_cases hCn : C n
      · rw [(h i n hn).1 hCn]
        exact ⟨⟨fun _ => hCn, fun _ => ⟨q, rfl⟩⟩, fun q' hq' => (Option.some.inj hq').symm⟩
      · rw [(h i n hn).2 hCn]
        refine ⟨⟨?_, fun hCn' => absurd hCn' hCn⟩, nofun⟩
        rintro ⟨q', hq'⟩
        cases hq'
    · rw [atSlot_of_empty fun n hn => hslot ⟨n, hn⟩]
      refine ⟨⟨fun _ n hn => absurd ⟨n, hn⟩ hslot, fun _ => ⟨q, rfl⟩⟩, fun q' hq' => ?_⟩
      exact (Option.some.inj hq').symm

/-- **No node with operands is merged.** -/
theorem mergeWithOperand_eq_none {p : Pass N} (hp : SameOperands G p) (n : N) :
    mergeWithOperand order G (.node n) p = none := by
  refine Option.eq_none_iff_forall_ne_some.2 fun p' hp' => ?_
  obtain ⟨operand, hoperand, hp'⟩ := Option.bind_eq_some_iff.1 hp'
  rw [merge] at hp'
  split at hp'
  · cases hp'
  · next hne =>
      obtain ⟨graph, hgraph, -⟩ := Option.bind_eq_some_iff.1 hp'
      have hoperands : p.graph.links.operands (.node n) ≠ [] :=
        List.ne_nil_of_mem (List.mem_of_getElem? hoperand)
      have hkept := SubgraphNodes.operands_replaceAllUsesWith_ne_nil order (usesInv hp) hne false
        hoperands
      exact Option.some_ne_none graph (hgraph.symm.trans (isolateAndRemove_eq_none hkept))

theorem allOperandsAreSame_iff {s : GraphNodes N} {nd : PSNode N} :
    allOperandsAreSame s nd = true ↔
      ∀ o ∈ s.links.operands nd, ∀ o' ∈ s.links.operands nd, o = o' := by
  rw [allOperandsAreSame]
  split
  · next h => simp [h]
  · next op0 operands h =>
      rw [h, List.all_eq_true]
      constructor
      · intro hall
        have hfirst : ∀ o ∈ op0 :: operands, op0 = o := by
          intro o ho
          obtain rfl | ho := List.mem_cons.1 ho
          · rfl
          · exact of_decide_eq_true (hall o ho)
        exact fun o ho o' ho' => (hfirst o ho).symm.trans (hfirst o' ho')
      · intro hall o ho
        exact decide_eq_true (hall op0 List.mem_cons_self o (List.mem_cons_of_mem _ ho))

theorem mergeCast_idle {p : Pass N} (hp : SameOperands G p) (n : N) :
    (Unmerged (G.kind n) → mergeCast order G n p = some p) ∧
      (¬ Unmerged (G.kind n) → mergeCast order G n p = none) := by
  have hnone := mergeWithOperand_eq_none order hp n
  have hoperands := operands_eq hp n
  rw [mergeCast]
  cases hkind : G.kind n with
  | cast operand => exact ⟨fun h => h.elim, fun _ => hnone⟩
  | gep source off =>
      refine ⟨fun h => if_neg h, fun h => ?_⟩
      exact (if_pos (not_not.1 h)).trans hnone
  | phi operands =>
      rw [hkind] at hoperands
      have hphi : (0 < (p.graph.links.operands (.node n)).length ∧
          allOperandsAreSame p.graph (.node n) = true) ↔ ¬ Unmerged (.phi operands) := by
        rw [allOperandsAreSame_iff, hoperands, List.length_pos_iff]
        simp only [Unmerged, Kind.operands]
        push Not
        exact Iff.rfl
      refine ⟨fun h => if_neg fun h' => hphi.1 h' h, fun h => ?_⟩
      exact (if_pos (hphi.2 h)).trans hnone
  | _ => exact ⟨fun _ => rfl, fun h => absurd trivial h⟩

/-- **No user is removed**, since it has an operand. -/
theorem reduceUser_eq_none {p : Pass N} (hp : SameOperands G p) {x user : PSNode N}
    (huser : user ∈ p.graph.links.users x) (replaced : Bool) :
    reduceUser order G replaced p user = none := by
  have hoperands := operands_ne_nil_of_user hp huser
  -- also when its uses are replaced before
  have hstuck : ∀ q : Pass N, q.graph.links.operands user ≠ [] →
      ((isolateAndRemove G q.graph user).bind fun graph =>
        some { q with graph := graph, removed := q.removed + 1 }) = none := fun q hq => by
    rw [isolateAndRemove_eq_none hq]
    rfl
  cases replaced with
  | false => exact hstuck p hoperands
  | true =>
      refine Option.bind_eq_none_iff.2 fun q hq => hstuck q ?_
      rw [replaceByUnknown] at hq
      split at hq
      · cases hq
      · next hne =>
          obtain ⟨mapping, -, hq⟩ := Option.bind_eq_some_iff.1 hq
          obtain rfl := Option.some.inj hq
          exact SubgraphNodes.operands_replaceAllUsesWith_ne_nil order (usesInv hp) hne false hoperands

/-- So the users of a node are gone through only when there are none. -/
theorem foldlM_reduceUser {p : Pass N} (hp : SameOperands G p) (n : N) (replaced : PSNode N → Bool) :
    (p.graph.links.users (.node n)).foldlM
      (fun p user => reduceUser order G (replaced user) p user) p =
        if G.users (.node n) = [] then some p else none := by
  cases hl : p.graph.links.users (.node n) with
  | nil =>
      rw [users_eq hp] at hl
      rw [if_pos hl]
      rfl
  | cons user l =>
      have huser : user ∈ p.graph.links.users (.node n) := hl ▸ List.mem_cons_self
      rw [users_eq hp] at hl
      rw [List.foldlM_cons, reduceUser_eq_none order hp huser, if_neg (hl ▸ List.cons_ne_nil _ _)]
      rfl

theorem usersImplyUnknown_eq {p : Pass N} (hp : SameOperands G p) (nd : PSNode N) :
    usersImplyUnknown G p.graph nd = usersImplyUnknown G (start G).graph nd := by
  have hstore : ∀ S, isStoreOfUnknown G p.graph S nd = isStoreOfUnknown G (start G).graph S nd := by
    intro S
    simp only [isStoreOfUnknown, getOperand, hp.1]
    rfl
  simp only [usersImplyUnknown, hstore, hp.2]
  rfl

/-- A node is left alone by `processAlloc`. -/
def Unreduced (G : BuiltGraph N) (n : N) : Prop := G.kind n = .alloc → UsersLeft G n

theorem processAlloc_idle {p : Pass N} (hp : SameOperands G p) (i : Nat) {n : N}
    (hn : G.kind n ≠ .phi []) :
    (Unreduced G n → processAlloc order G i n p = some p) ∧
      (¬ Unreduced G n → processAlloc order G i n p = none) := by
  have hoperands := operands_eq hp n
  have hfold := foldlM_reduceUser order hp n (isLoad G)
  have himply := usersImplyUnknown_eq hp (.node n)
  rw [processAlloc]
  cases hkind : G.kind n with
  | alloc =>
      simp only [Unreduced, UsersLeft, hkind, forall_const, hfold, himply]
      refine ⟨?_, fun h => ?_⟩
      · rintro (h | h)
        · simp [h]
        · simp [h]
      · -- it goes over the users, and fails at the first one
        obtain ⟨husers, hunknown⟩ := not_or.1 h
        simp [husers, hunknown]
  | phi operands =>
      rw [hkind] at hn hoperands
      have hne : operands ≠ [] := fun heq => hn (heq ▸ rfl)
      have hlen : (p.graph.links.operands (.node n)).length ≠ 0 := by
        rw [hoperands]
        exact fun hzero => hne (List.length_eq_zero_iff.1 hzero)
      exact ⟨fun _ => if_neg hlen, fun h => absurd (fun heq => by simp [hkind] at heq) h⟩
  | _ => exact ⟨fun _ => rfl, fun h => absurd (fun heq => by simp [hkind] at heq) h⟩

/-- The nodes left are in their slots, and the mapping, the operands and the users are as before. -/
structure Shrinks (p p' : Pass N) : Prop where
  slots : ∀ (j : Nat) (n : N), p'.graph.nodes[j]? = some (some n) → p.graph.nodes[j]? = some (some n)
  mapping : p'.mapping = p.mapping
  uses : SubgraphNodes.SameUses p.graph.links p'.graph.links

omit [DecidableEq N] in
theorem Shrinks.refl (p : Pass N) : Shrinks p p := ⟨fun _ _ h => h, rfl, rfl, rfl⟩

omit [DecidableEq N] in
theorem Shrinks.trans {p p' p'' : Pass N} (h : Shrinks p p') (h' : Shrinks p' p'') : Shrinks p p'' :=
  ⟨fun j n hj => h.slots j n (h'.slots j n hj), h'.mapping.trans h.mapping,
    h'.uses.1.trans h.uses.1, h'.uses.2.trans h.uses.2⟩

theorem Shrinks.sameOperands {p p' : Pass N} (h : Shrinks p p') (hp : SameOperands G p) :
    SameOperands G p' :=
  ⟨h.uses.1.trans hp.1, h.uses.2.trans hp.2⟩

/-- A PHI without operands is removed when it has no users. -/
theorem processAlloc_phi {p p' : Pass N} (hp : SameOperands G p) {i : Nat} {n : N}
    (hkind : G.kind n = .phi []) (h : processAlloc order G i n p = some p') :
    Shrinks p p' ∧ p'.graph.nodes[i]? = some none := by
  have hlen : (p.graph.links.operands (.node n)).length = 0 := by
    rw [operands_eq hp, hkind]
    rfl
  rw [processAlloc, hkind] at h
  simp only [hlen, if_true] at h
  obtain ⟨q, hq, h⟩ := Option.bind_eq_some_iff.1 h
  -- a user would not be removed
  rw [foldlM_reduceUser order hp n fun _ => true] at hq
  split at hq
  · obtain rfl := Option.some.inj hq
    obtain ⟨graph, hgraph, h⟩ := Option.bind_eq_some_iff.1 h
    obtain ⟨links, hlinks, rfl⟩ := isolateAndRemove_eq_some hgraph
    split at h
    · next hcleared =>
        obtain rfl := Option.some.inj h
        refine ⟨⟨fun j m hm => ?_, rfl, SubgraphNodes.sameUses_isolate hlinks⟩, hcleared⟩
        have hset : (p.graph.nodes.set (G.getID n) none)[j]? = some (some m) := hm
        rw [List.getElem?_set] at hset
        split at hset
        · split at hset <;> cases hset
        · exact hset
    · cases h
  · cases hq

/-- A step that ends leaves no PHI without operands in its slot. -/
theorem processAlloc_step {p p' : Pass N} (hp : SameOperands G p) {i : Nat}
    (h : atSlot (processAlloc order G) p i = some p') :
    Shrinks p p' ∧ ∀ n, p'.graph.nodes[i]? = some (some n) → G.kind n ≠ .phi [] := by
  by_cases hslot : ∃ n, p.graph.nodes[i]? = some (some n)
  · obtain ⟨n, hn⟩ := hslot
    rw [atSlot_of_some hn] at h
    by_cases hkind : G.kind n = .phi []
    · obtain ⟨hshrinks, hcleared⟩ := processAlloc_phi order hp hkind h
      exact ⟨hshrinks, fun m hm => absurd (hcleared.symm.trans hm) (by simp)⟩
    · obtain ⟨hidle, hfail⟩ := processAlloc_idle order hp i hkind
      by_cases hC : Unreduced G n
      · obtain rfl := Option.some.inj ((hidle hC).symm.trans h)
        refine ⟨Shrinks.refl p, fun m hm => ?_⟩
        obtain rfl := eq_of_slot hm hn
        exact hkind
      · exact absurd ((hfail hC).symm.trans h) (Option.some_ne_none p').symm
  · rw [atSlot_of_empty fun n hn => hslot ⟨n, hn⟩] at h
    obtain rfl := Option.some.inj h
    exact ⟨Shrinks.refl p, fun n hn => absurd ⟨n, hn⟩ hslot⟩

/-- **The loop over the allocations leaves no PHI without operands.** -/
theorem forNodes_processAlloc {p p' : Pass N} (hp : SameOperands G p)
    (h : forNodes (processAlloc order G) p = some p') :
    Shrinks p p' ∧ ∀ n, some n ∈ p'.graph.nodes → G.kind n ≠ .phi [] := by
  have hloop := FallibleLoop.each_done (r := Shrinks)
    (P := fun i q => ∀ n, q.graph.nodes[i]? = some (some n) → G.kind n ≠ .phi []) Shrinks.refl
    Shrinks.trans (fun hle hP n hn => hP n (hle.slots _ n hn))
    (fun i _ t t' ht hstep => processAlloc_step order (ht.sameOperands hp) hstep) h
  refine ⟨hloop.1, fun n hn => ?_⟩
  obtain ⟨i, hi⟩ := List.mem_iff_getElem?.1 hn
  refine hloop.2 i (List.mem_range.2 ?_) n hi
  exact (List.getElem?_eq_some_iff.1 (hloop.1.slots i n hi)).1

end Rest

/-! ## The run -/

section Run

variable {G}

omit [DecidableEq N] in
/-- Nothing is mapped. -/
abbrev NoMapping (p : Pass N) : Prop := ∀ x, p.mapping.get x = none

omit [DecidableEq N] in
theorem exists_withPass {f : Nat → N → Pass N → Option (Pass N)} {p : Pass N} :
    (∃ p', withPass f p = some p') ↔ ∃ q, forNodes f ⟨p.graph, .empty, 0⟩ = some q := by
  rw [withPass]
  constructor
  · rintro ⟨p', h⟩
    obtain ⟨q, hq, -⟩ := Option.bind_eq_some_iff.1 h
    exact ⟨q, hq⟩
  · rintro ⟨q, hq⟩
    rw [hq]
    by_cases hremoved : q.removed = 0
    · exact ⟨_, if_pos hremoved⟩
    · exact ⟨_, if_neg hremoved⟩

omit [DecidableEq N] in
/-- A pass that maps nothing adds nothing to the mapping. -/
theorem withPass_eq_some {f : Nat → N → Pass N → Option (Pass N)} {p p' : Pass N}
    (hp : NoMapping p) (h : withPass f p = some p') :
    ∃ q, forNodes f ⟨p.graph, .empty, 0⟩ = some q ∧ p'.graph = q.graph ∧
      (NoMapping q → NoMapping p') := by
  obtain ⟨q, hq, h⟩ := Option.bind_eq_some_iff.1 h
  refine ⟨q, hq, ?_⟩
  split at h
  · obtain rfl := Option.some.inj h
    exact ⟨rfl, fun _ => hp⟩
  · obtain rfl := Option.some.inj h
    refine ⟨rfl, fun hnone x => ?_⟩
    show (q.mapping.get x).or (p.mapping.get x) = none
    rw [hnone, hp]
    rfl

/-- **The first pass.** -/
theorem removeNoops_spec :
    ((∃ p, removeNoops G (start G) = some p) ↔ ∀ k < G.nodes.length, NoopFits G k) ∧
      ∀ p, removeNoops G (start G) = some p → NoopInv G G.nodes.length p := by
  obtain ⟨hiff, hinv⟩ := forNodes_removeNoop (G := G)
  refine ⟨exists_withPass.trans hiff, fun p h => ?_⟩
  obtain ⟨q, hq, hgraph, hmapping⟩ := withPass_eq_some (fun _ => rfl) h
  have hdone := hinv q hq
  exact ⟨hgraph ▸ hdone.slots, hgraph ▸ hdone.edges, hgraph ▸ hdone.uses, hgraph ▸ hdone.around,
    hmapping hdone.mapping⟩

/-- A pass in which each node either changes nothing or fails. -/
theorem withPass_idle {f : Nat → N → Pass N → Option (Pass N)} {p : Pass N} {C : N → Prop}
    (hp : SameOperands G p) (hnone : NoMapping p)
    (h : ∀ q, SameOperands G q → ∀ i n, some n ∈ p.graph.nodes →
      (C n → f i n q = some q) ∧ (¬ C n → f i n q = none)) :
    ((∃ p', withPass f p = some p') ↔ ∀ n, some n ∈ p.graph.nodes → C n) ∧
      ∀ p', withPass f p = some p' → p'.graph = p.graph ∧ NoMapping p' := by
  have hidle := forNodes_idle (p := (⟨p.graph, .empty, 0⟩ : Pass N)) (f := f) (C := C)
    fun i n hn => h ⟨p.graph, .empty, 0⟩ hp i n (List.mem_of_getElem? hn)
  refine ⟨exists_withPass.trans hidle.1, fun p' hp' => ?_⟩
  obtain ⟨q, hq, hgraph, hmapping⟩ := withPass_eq_some hnone hp'
  obtain rfl := hidle.2 q hq
  exact ⟨hgraph, hmapping fun _ => rfl⟩

theorem removeEquivalentNodes_spec {p : Pass N} (hp : SameOperands G p) (hnone : NoMapping p) :
    ((∃ p', removeEquivalentNodes order G p = some p') ↔
      ∀ n, some n ∈ p.graph.nodes → Unmerged (G.kind n)) ∧
    ∀ p', removeEquivalentNodes order G p = some p' → p'.graph = p.graph ∧ NoMapping p' :=
  withPass_idle hp hnone fun _ hq _ n _ => mergeCast_idle order hq n

theorem removeUnknowns_spec {p : Pass N} (hp : SameOperands G p) (hnone : NoMapping p)
    (hphi : ∀ n, some n ∈ p.graph.nodes → G.kind n ≠ .phi []) :
    ((∃ p', removeUnknowns order G p = some p') ↔
      ∀ n, some n ∈ p.graph.nodes → Unreduced G n) ∧
    ∀ p', removeUnknowns order G p = some p' → p'.graph = p.graph ∧ NoMapping p' :=
  withPass_idle hp hnone fun _ hq i n hn => processAlloc_idle order hq i (hphi n hn)

theorem removeUnknowns_clears {p p' : Pass N} (hp : SameOperands G p) (hnone : NoMapping p)
    (h : removeUnknowns order G p = some p') :
    SameOperands G p' ∧ NoMapping p' ∧ ∀ n, some n ∈ p'.graph.nodes → G.kind n ≠ .phi [] := by
  obtain ⟨q, hq, hgraph, hmapping⟩ := withPass_eq_some hnone h
  have hstart : SameOperands G (⟨p.graph, .empty, 0⟩ : Pass N) := hp
  obtain ⟨hshrinks, hphi⟩ := forNodes_processAlloc order hstart hq
  have hq' := hshrinks.sameOperands hstart
  refine ⟨⟨hgraph ▸ hq'.1, hgraph ▸ hq'.2⟩, hmapping fun x => ?_, hgraph ▸ hphi⟩
  rw [hshrinks.mapping]
  rfl

theorem run_eq_some {p : Pass N} : run order G = some p ↔
    ∃ p₁ p₂ p₃, removeNoops G (start G) = some p₁ ∧ removeEquivalentNodes order G p₁ = some p₂ ∧
      removeUnknowns order G p₂ = some p₃ ∧ removeEquivalentNodes order G p₃ = some p := by
  rw [run]
  simp only [Option.bind_eq_bind, Option.bind_eq_some_iff]
  constructor
  · rintro ⟨p₁, h₁, p₂, h₂, p₃, h₃, h₄⟩
    exact ⟨p₁, p₂, p₃, h₁, h₂, h₃, h₄⟩
  · rintro ⟨p₁, p₂, p₃, h₁, h₂, h₃, h₄⟩
    exact ⟨p₁, h₁, p₂, h₂, p₃, h₃, h₄⟩

/-! ### The noops in the order of their IDs -/

/-- Where the noops are in the slots of their IDs, those done are those with smaller IDs. -/
theorem noopsDone_getID
    (hslots : ∀ m ∉ G.globals, G.kind m = .noop → G.nodes[G.getID m]? = some (some m)) (n : N) :
    NoopsDone G (G.getID n) = EarlierNoops G n := by
  ext x
  constructor
  · rintro ⟨j, hj, m, hm, hnoop, rfl⟩
    have hglobal := mem_nodes.1 (List.mem_of_getElem? hm)
    refine ⟨m, rfl, hglobal, hnoop, ?_⟩
    rw [slot_inj (hslots m hglobal hnoop) hm]
    exact hj
  · rintro ⟨m, rfl, hglobal, hnoop, hlt⟩
    exact ⟨G.getID m, hlt, m, hslots m hglobal hnoop, hnoop, rfl⟩

theorem noopFits_iff : (∀ k < G.nodes.length, NoopFits G k) ↔
    ∀ n ∉ G.globals, G.kind n = .noop → G.users (.node n) = [] ∧
      (∀ m ∈ G.globals, G.getID n < G.getID m) ∧ ¬ LoopThrough G (EarlierNoops G n) n := by
  constructor
  · -- every noop is in the slot of its ID, so the slots and the IDs give the same order
    intro h
    have hfits : ∀ n ∉ G.globals, G.kind n = .noop → G.nodes[G.getID n]? = some (some n) ∧
        G.users (.node n) = [] ∧ ¬ LoopThrough G (NoopsDone G (G.getID n)) n := by
      intro n hn hnoop
      obtain ⟨k, hk⟩ := List.mem_iff_getElem?.1 (mem_nodes.2 hn)
      obtain ⟨husers, hid, hloop⟩ := h k (List.getElem?_eq_some_iff.1 hk).1 n hk hnoop
      rw [hid]
      exact ⟨hk, husers, hloop⟩
    intro n hn hnoop
    obtain ⟨hslot, husers, hloop⟩ := hfits n hn hnoop
    rw [noopsDone_getID fun m hm hnoop => (hfits m hm hnoop).1] at hloop
    exact ⟨husers, (slot_getID hn).1 hslot, hloop⟩
  · intro h k _ n hk hnoop
    have hn := mem_nodes.1 (List.mem_of_getElem? hk)
    obtain ⟨husers, hglobals, hloop⟩ := h n hn hnoop
    have hid := slot_inj ((slot_getID hn).2 hglobals) hk
    refine ⟨husers, hid, ?_⟩
    rw [← hid, noopsDone_getID fun m hm hnoop => (slot_getID hm).2 (h m hm hnoop).2.1]
    exact hloop

/-- After the first pass the nodes are those that are no noops. -/
theorem NoopInv.mem_nodes_iff {p : Pass N} (hp : NoopInv G G.nodes.length p) {n : N} :
    some n ∈ p.graph.nodes ↔ n ∉ G.globals ∧ G.kind n ≠ .noop := by
  rw [← mem_nodes, List.mem_iff_getElem?, List.mem_iff_getElem?]
  constructor
  · rintro ⟨j, hj⟩
    obtain ⟨hG, hnot⟩ := (hp.slots j n).1 hj
    exact ⟨⟨j, hG⟩, fun hnoop => hnot ⟨(List.getElem?_eq_some_iff.1 hG).1, hnoop⟩⟩
  · rintro ⟨⟨j, hj⟩, hnoop⟩
    exact ⟨j, (hp.slots j n).2 ⟨hj, fun h => hnoop h.2⟩⟩

/-- **A noop without users is not referred to after the first pass.** -/
theorem NoopInv.unreferenced {p : Pass N} (hp : NoopInv G G.nodes.length p) {n : N}
    (hn : n ∉ G.globals) (hnoop : G.kind n = .noop) (husers : G.users (.node n) = []) :
    Unreferenced G p.graph n := by
  have hoperands : p.graph.links.operands (.node n) = [] := by
    rw [operands_eq hp.uses, hnoop]
    rfl
  have hdone : .node n ∈ NoopsDone G G.nodes.length := by
    obtain ⟨k, hk⟩ := List.mem_iff_getElem?.1 (mem_nodes.2 hn)
    exact ⟨k, (List.getElem?_eq_some_iff.1 hk).1, n, hk, hnoop, rfl⟩
  have huses := usesInv hp.uses
  refine ⟨hoperands, fun x _ => ⟨fun hmem => ?_, fun hmem => ?_, fun hmem => ?_, fun hmem => ?_⟩⟩
  · have huser := (huses.converse x (.node n)).2 hmem
    rw [users_eq hp.uses, husers] at huser
    exact List.not_mem_nil huser
  · have hoperand := (huses.converse (.node n) x).1 hmem
    rw [hoperands] at hoperand
    exact List.not_mem_nil hoperand
  · exact ((hp.around x (.node n)).1 hmem).2.1 hdone
  · exact ((hp.around (.node n) x).1 (hp.edges.mem_iff.2 hmem)).1 hdone

end Run

/-! ## The optimizer is right where it has only noops to remove -/

variable {order G}

theorem fits_of_right [Fintype N] {opts : PointerAnalysisOptions} (h : Right order G opts) :
    Fits G := by
  obtain ⟨p, hrun, -, _, hmapped⟩ := h
  obtain ⟨p₁, p₂, p₃, h₁, h₂, h₃, h₄⟩ := (run_eq_some order).1 hrun
  have hinv := removeNoops_spec.2 p₁ h₁
  have hnoops := noopFits_iff.1 (removeNoops_spec.1.1 ⟨p₁, h₁⟩)
  obtain ⟨hmerge, hmerged⟩ := removeEquivalentNodes_spec order hinv.uses hinv.mapping
  obtain ⟨hgraph₂, hnone₂⟩ := hmerged p₂ h₂
  have huses₂ : SameOperands G p₂ := ⟨hgraph₂ ▸ hinv.uses.1, hgraph₂ ▸ hinv.uses.2⟩
  -- a PHI without operands is removed, but no pass maps it to another node
  obtain ⟨huses₃, hnone₃, hcleared⟩ := removeUnknowns_clears order huses₂ hnone₂ h₃
  obtain ⟨hgraph₄, hnone₄⟩ := (removeEquivalentNodes_spec order huses₃ hnone₃).2 p h₄
  have hphis : ∀ n ∉ G.globals, G.kind n ≠ .phi [] := by
    intro n hn hphi
    have hremoved : Removed G p.graph n := by
      refine ⟨mem_nodes.2 hn, fun hmem => ?_⟩
      rw [hgraph₄] at hmem
      exact hcleared n hmem hphi
    obtain ⟨nd, hnd, -⟩ := hmapped n hremoved (by rw [hphi]; rfl)
    exact Option.some_ne_none nd (hnd.symm.trans (hnone₄ _))
  have hnodes₂ : ∀ n, some n ∈ p₂.graph.nodes → n ∉ G.globals := fun n hn =>
    (hinv.mem_nodes_iff.1 (hgraph₂ ▸ hn)).1
  have hreduced := (removeUnknowns_spec order huses₂ hnone₂ fun n hn =>
    hphis n (hnodes₂ n hn)).1.1 ⟨p₃, h₃⟩
  refine ⟨fun n hn => ?_, hphis, fun n hn halloc => ?_, hnoops⟩
  · by_cases hnoop : G.kind n = .noop
    · rw [hnoop]
      exact trivial
    · exact hmerge.1 ⟨p₂, h₂⟩ n (hinv.mem_nodes_iff.2 ⟨hn, hnoop⟩)
  · apply hreduced n _ halloc
    rw [hgraph₂]
    exact hinv.mem_nodes_iff.2 ⟨hn, by simp [halloc]⟩

theorem right_of_fits [Fintype N] (order : Order (PSNode N)) (opts : PointerAnalysisOptions)
    (h : Fits G) : Right order G opts := by
  obtain ⟨p₁, h₁⟩ := removeNoops_spec.1.2 (noopFits_iff.2 h.noops)
  have hinv := removeNoops_spec.2 p₁ h₁
  have hnodes : ∀ n, some n ∈ p₁.graph.nodes → n ∉ G.globals := fun n hn =>
    (hinv.mem_nodes_iff.1 hn).1
  -- the other passes end without a change
  have hmerge : ∀ q, SameOperands G q → NoMapping q → q.graph = p₁.graph →
      ∃ q', removeEquivalentNodes order G q = some q' ∧ q'.graph = p₁.graph ∧ NoMapping q' := by
    intro q hq hnone hgraph
    obtain ⟨hiff, hspec⟩ := removeEquivalentNodes_spec order hq hnone
    obtain ⟨q', hq'⟩ := hiff.2 fun n hn => h.unmerged n (hnodes n (hgraph ▸ hn))
    exact ⟨q', hq', (hspec q' hq').1.trans hgraph, (hspec q' hq').2⟩
  have hsame : ∀ q : Pass N, q.graph = p₁.graph → SameOperands G q := fun q hq =>
    ⟨hq ▸ hinv.uses.1, hq ▸ hinv.uses.2⟩
  obtain ⟨p₂, h₂, hgraph₂, hnone₂⟩ := hmerge p₁ hinv.uses hinv.mapping rfl
  have hnodes₂ : ∀ n, some n ∈ p₂.graph.nodes → n ∉ G.globals := fun n hn =>
    hnodes n (hgraph₂ ▸ hn)
  obtain ⟨hiff₃, hspec₃⟩ := removeUnknowns_spec order (hsame p₂ hgraph₂) hnone₂
    fun n hn => h.phis n (hnodes₂ n hn)
  obtain ⟨p₃, h₃⟩ := hiff₃.2 fun n hn halloc => h.allocs n (hnodes₂ n hn) halloc
  obtain ⟨hgraph₃, hnone₃⟩ := hspec₃ p₃ h₃
  have hgraph₃ := hgraph₃.trans hgraph₂
  obtain ⟨p, h₄, hgraph, -⟩ := hmerge p₃ (hsame p₃ hgraph₃) hnone₃ hgraph₃
  -- only noops are removed
  have hremoved : ∀ n, Removed G p.graph n → n ∉ G.globals ∧ G.kind n = .noop := by
    rintro n ⟨hn, hnot⟩
    have hn := mem_nodes.1 hn
    refine ⟨hn, by_contra fun hnoop => hnot ?_⟩
    rw [hgraph]
    exact hinv.mem_nodes_iff.2 ⟨hn, hnoop⟩
  refine ⟨p, (run_eq_some order).2 ⟨p₁, p₂, p₃, h₁, h₂, h₃, h₄⟩, fun n hn => ?_, hgraph ▸ hinv.edges,
    fun n hn hpointers => ?_⟩
  · obtain ⟨hglobal, hnoop⟩ := hremoved n hn
    rw [hgraph]
    exact hinv.unreferenced hglobal hnoop (h.noops n hglobal hnoop).1
  · rw [(hremoved n hn).2] at hpointers
    cases hpointers

/-- **The optimizer.** On a valid graph without calls of function pointers, forks and joins it ends,
refers to no removed node any more and maps every removed node with pointers to a remaining one that
covers its set, exactly when it has nothing to merge and nothing to reduce and its noops have no users,
come before the global nodes and have no loop with a successor at their turn. -/
theorem optimizer_right_iff [Fintype N] (order : Order (PSNode N)) (opts : PointerAnalysisOptions)
    (G : ValidGraph N) : Right order G.toBuiltGraph opts ↔ Fits G.toBuiltGraph :=
  ⟨fits_of_right, right_of_fits order opts⟩

theorem castOfAlloc_edges : ∀ a b : Fin 3,
    a ∈ (![[], [0], [1]] : Fin 3 → List (Fin 3)) b ↔ b ∈ (![[1], [2], []] : Fin 3 → List (Fin 3)) a := by
  decide

theorem castOfAlloc_globals : ([] : List (Fin 3)).Nodup := List.nodup_nil

theorem castOfAlloc_created : ∀ n : Fin 3, n ∈ ([0, 1, 2] : List (Fin 3)) := by decide

/-- `ENTRY; a = ALLOC; c = CAST a`. -/
def castOfAlloc : BuiltGraph (Fin 3) where
  kind := ![.entry, .alloc, .cast (.node 1)]
  successors := ![[1], [2], []]
  predecessors := ![[], [0], [1]]
  callees := fun _ => []
  returnSites := fun _ => []
  size := ![0, 8, 0]
  isHeap := fun _ => false
  isGlobal := fun _ => false
  zeroInitialized := fun _ => false
  subgraphs := [0]
  parent := fun _ => some 0
  globals := []
  root := 0
  mem_predecessors := castOfAlloc_edges
  nodup_globals := castOfAlloc_globals
  created := [0, 1, 2]
  users := fun x => if x = .node 1 then [.node 2] else []
  nodup_created := by decide
  mem_created := castOfAlloc_created
  globals_created := rfl
  count_edges := by decide
  nodup_users := fun o => by split <;> simp
  mem_users := fun x o => by
    simp only [Fin.exists_fin_succ, Kind.operands]
    split
    · next ho => simp [ho]
    · next ho => simp [ho]

theorem castOfAlloc_reaches (n : Fin 3) : ReflTransGen castOfAlloc.Follows 0 n := by
  have hone : ReflTransGen castOfAlloc.Follows 0 1 := ReflTransGen.single (Or.inl (by decide))
  have htwo : ReflTransGen castOfAlloc.Follows 0 2 := hone.tail (Or.inl (by decide))
  fin_cases n
  · exact ReflTransGen.refl
  · exact hone
  · exact htwo

def castGraph : ValidGraph (Fin 3) where
  toBuiltGraph := castOfAlloc
  noConnectivity := false
  valid :=
    { operands := by decide
      predecessors := by decide
      reachable := fun _ n _ => Or.inl (castOfAlloc_reaches n) }
  direct := fun n => by fin_cases n <;> trivial

/-- The static nodes come before the others. -/
def address : PSNode (Fin 3) → Nat
  | .nullptr => 0
  | .unknownMemory => 1
  | .invalidated => 2
  | .node n => n.val + 3

theorem address_injective : Function.Injective address := by
  intro x y h
  cases x <;> cases y <;> simp only [address] at h
  case node.node n m => exact congrArg PSNode.node (Fin.ext (Nat.add_right_cancel h))
  all_goals first | rfl | omega

def addresses : Order (PSNode (Fin 3)) :=
  @Order.ascending (PSNode (Fin 3)) (LinearOrder.lift' address address_injective)

/-- The cast still has its operand when it is removed. -/
theorem optimizer_castGraph : ¬ Right addresses castGraph.toBuiltGraph {} := fun h =>
  (fits_of_right h).unmerged 2 List.not_mem_nil

end PointerGraphOptimizer

end Cape.PointerAnalysis
