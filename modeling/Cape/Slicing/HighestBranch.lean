import Cape.Slicing.Graph
import Cape.Library.TreeSearch

/-!
# The search for the highest sensitive branch

A sensitive access gets its transaction at the highest sensitive branch above it.
`processBBlockRevCDs` starts from a branch that the block of the access depends on, and
`processBBlockIDomsAndNodeRevCDs` climbs from there: to the immediate dominator, and from the entry
of a function to its call sites. There is no visited set, so the climb is a `SearchSpace`.

`processBBlockRevCDs_ends_iff` says for which graphs and marks the search ends: when no cycle of
calls can be reached. A call graph without marked cycles has none (`ends_of_level`);
`mutualRecursion` has one.
-/

set_option autoImplicit false

namespace Cape.Slicing

open Cape.Library

/-- The arguments `BB` and `ND` of `processBBlockIDomsAndNodeRevCDs`; either can be null. -/
structure Call (N B : Type) where
  BB : Option B
  ND : Option N
  deriving DecidableEq, Fintype

/-- What `processBBlockRevCDs` asks for in the end: `processHighestBr` or `placeTransForLoop`. -/
inductive Placement (N : Type) where
  | processHighestBr (bn : N)
  | placeTransForLoop (bn : N)
  deriving DecidableEq

namespace DependenceGraph

variable {N B F T : Type} (G : DependenceGraph N B F T) (m : Slices N B)

/-- The test that makes both functions pass over a node of `rev_control`: it is no function, and it
is in the same graph. -/
def inSameGraph (dg : Option F) (node : N) : Bool :=
  !(G.key node).isFunction &&
    match dg with
    | none => false
    | some dg => (G.getNode dg node).isSome

/-- The calls for the nodes that `n` depends on in other graphs. -/
def callers (n : N) : List (Call N B) :=
  ((G.revControl n).filter fun node => !G.inSameGraph (G.dg n) node).map fun node =>
    ⟨G.bblock node, some node⟩

/-- The branch at the end of a block when block and branch are sensitive. -/
def sensitiveBr (CD : B) : Option N :=
  match G.lastNode CD with
  | none => none
  | some last =>
      if 0 < m.block CD ∧ 0 < m.node last ∧ (G.key last).isBr then some last else none

/-- `CD` in `processBBlockIDomsAndNodeRevCDs`: the immediate dominator of a sensitive block. -/
def sensitiveIDom (BB : B) : Option B := if 0 < m.block BB then G.idom BB else none

/-- The recursive calls of `processBBlockIDomsAndNodeRevCDs`, in order. -/
def recursiveCalls (c : Call N B) : List (Call N B) :=
  (match c.BB with
    | none => []
    | some BB =>
        if 0 < m.block BB then
          (match G.idom BB with
            | none => []
            | some CD => if 0 < m.block CD then [⟨some CD, none⟩] else []) ++
          (match G.firstNode BB with
            | none => []
            | some inst => G.callers inst)
        else []) ++
  (match c.ND with
    | none => []
    | some ND => if 0 < m.node ND then G.callers ND else [])

/-- The branch at the end of `CD`, which `processBBlockIDomsAndNodeRevCDs` takes when no recursive
call succeeds. -/
def ownBr (c : Call N B) : Option N :=
  match c.BB with
  | none => none
  | some BB =>
      match G.sensitiveIDom m BB with
      | none => none
      | some CD => G.sensitiveBr m CD

/-- The search space of the recursion. -/
def climbing : SearchSpace (Call N B) N := ⟨G.recursiveCalls m, G.ownBr m⟩

/-- `processBBlockIDomsAndNodeRevCDs` with at most `fuel` nested calls: the branch passed to
`processHighestBr` when the function returns true. -/
def processBBlockIDomsAndNodeRevCDs (fuel : Nat) (BB : Option B) (ND : Option N) :
    Option (Option N) :=
  (G.climbing m).search fuel ⟨BB, ND⟩

section RevCDs

variable [DecidableEq B] (isLoop : Bool) (blks : Finset B)

/-- The first sensitive branch that `BB` depends on, outside the loop when there is one. -/
def immediateBr (BB : B) : Option (B × N) :=
  (G.revControlDependence BB).findSome? fun CD =>
    if isLoop && decide (CD ∈ blks) then none else (G.sensitiveBr m CD).map fun last => (CD, last)

/-- The searches that `processBBlockRevCDs` starts, in order: one from the block of the immediate
branch; without such a branch one from each caller. -/
def searches (BB : B) : List (Call N B) :=
  match G.immediateBr m isLoop blks BB with
  | some (CD, _) => [⟨some CD, none⟩]
  | none =>
      match G.firstNode BB with
      | none => []
      | some inst => G.callers inst

/-- `processBBlockRevCDs`: the result and the placement that is asked for. -/
def processBBlockRevCDs (fuel : Nat) (addDep : Bool) :
    Option B → Option (Bool × Option (Placement N))
  | none => some (false, none)
  | some BB =>
      match firstSome ((G.climbing m).search fuel) (G.searches m isLoop blks BB) with
      | none => none
      | some (some last) => some (true, some (.processHighestBr last))
      | some none =>
          match G.immediateBr m isLoop blks BB with
          | some (_, last) => some (true, some (.processHighestBr last))
          | none =>
              -- never found an immediate branch: the transaction goes by the block itself
              if isLoop then some (false, (G.firstNode BB).map .placeTransForLoop)
              else if addDep then some (false, (G.firstNode BB).map .processHighestBr)
              else some (false, none)

/-- The call returns. -/
def Ends (addDep : Bool) (BB : Option B) : Prop :=
  ∃ fuel, (G.processBBlockRevCDs m isLoop blks fuel addDep BB).isSome

/-- From no search that is started can a cycle of calls be reached. A search or a call counts only
when those before it, in the same list, cannot find a sensitive branch. -/
def NoCycleOfCalls (BB : Option B) : Prop :=
  ∀ b, BB = some b → ∀ c, (G.climbing m).Tried (G.searches m isLoop blks b) c →
    ∀ d, Relation.ReflTransGen (G.climbing m).Climb c d →
      ¬ Relation.TransGen (G.climbing m).Climb d d

variable {G m isLoop blks}

theorem ends_iff_allTerminate (addDep : Bool) (b : B) :
    G.Ends m isLoop blks addDep (some b) ↔
      (G.climbing m).AllTerminate (G.searches m isLoop blks b) := by
  apply exists_congr
  intro fuel
  rw [processBBlockRevCDs]
  cases firstSome ((G.climbing m).search fuel) (G.searches m isLoop blks b) with
  | none => exact Iff.rfl
  | some r =>
      apply iff_of_true _ rfl
      cases r with
      | some last => rfl
      | none =>
          show (match G.immediateBr m isLoop blks b with
            | some (_, last) => _
            | none => _ : Option (Bool × Option (Placement N))).isSome
          cases G.immediateBr m isLoop blks b with
          | some e => rfl
          | none => cases isLoop <;> cases addDep <;> rfl

/-- **`processBBlockRevCDs` ends if and only if no cycle of its calls can be reached.** -/
theorem processBBlockRevCDs_ends_iff [Fintype N] [Fintype B] (addDep : Bool) (BB : Option B) :
    G.Ends m isLoop blks addDep BB ↔ G.NoCycleOfCalls m isLoop blks BB := by
  cases BB with
  | none =>
      apply iff_of_true
      · exact ⟨0, rfl⟩
      · intro b hb
        cases hb
  | some b =>
      rw [ends_iff_allTerminate, SearchSpace.allTerminate_iff]
      have hsearch (c : Call N B) := @SearchSpace.terminates_iff_acyclic _ _ _ (G.climbing m) c
      constructor
      · intro hall b' hb' c hc
        obtain rfl := Option.some.inj hb'
        exact (hsearch c).1 (hall c hc)
      · intro hno c hc
        exact (hsearch c).2 (hno b rfl c hc)

end RevCDs

/-! ## Call graphs without cycles -/

/-- Levels for an acyclic call graph: a node is above the nodes of other graphs that it depends on,
and climbing the dominator tree stays at the level or goes down. -/
structure Leveled (level : N → Nat) (blockLevel depth : B → Nat) : Prop where
  caller : ∀ n node, node ∈ G.revControl n → G.inSameGraph (G.dg n) node = false →
    level node < level n
  block : ∀ n b, G.bblock n = some b → blockLevel b ≤ level n
  first : ∀ b inst, G.firstNode b = some inst → level inst ≤ blockLevel b
  idom : ∀ b d, G.idom b = some d → blockLevel d ≤ blockLevel b ∧ depth d < depth b

section Leveled

variable {G m}

theorem mem_callers {n : N} {d : Call N B} : d ∈ G.callers n ↔
    ∃ node ∈ G.revControl n, G.inSameGraph (G.dg n) node = false ∧
      d = ⟨G.bblock node, some node⟩ := by
  simp only [callers, List.mem_map, List.mem_filter, Bool.not_eq_true']
  constructor
  · rintro ⟨node, ⟨hnode, hother⟩, heq⟩
    exact ⟨node, hnode, hother, heq.symm⟩
  · rintro ⟨node, hnode, hother, heq⟩
    exact ⟨node, ⟨hnode, hother⟩, heq.symm⟩

/-- A recursive call goes to the immediate dominator, or to a caller of the node or of the first
node of the block. -/
theorem of_mem_recursiveCalls {c d : Call N B} (h : d ∈ G.recursiveCalls m c) :
    (∃ BB CD, c.BB = some BB ∧ G.idom BB = some CD ∧ d = ⟨some CD, none⟩) ∨
      ∃ n, (c.ND = some n ∨ ∃ BB, c.BB = some BB ∧ G.firstNode BB = some n) ∧
        d ∈ G.callers n := by
  obtain ⟨BB, ND⟩ := c
  rcases List.mem_append.1 h with h | h
  · cases BB with
    | none => cases h
    | some BB =>
        simp only at h
        split_ifs at h with hBB
        · rcases List.mem_append.1 h with h | h
          · cases hidom : G.idom BB with
            | none => simp [hidom] at h
            | some CD =>
                simp only [hidom] at h
                split_ifs at h with hCD
                · exact Or.inl ⟨BB, CD, rfl, hidom, List.mem_singleton.1 h⟩
                · cases h
          · cases hfirst : G.firstNode BB with
            | none => simp [hfirst] at h
            | some inst =>
                rw [hfirst] at h
                exact Or.inr ⟨inst, Or.inr ⟨BB, rfl, hfirst⟩, h⟩
        · cases h
  · cases ND with
    | none => cases h
    | some ND =>
        simp only at h
        split_ifs at h with hND
        · exact Or.inr ⟨ND, Or.inl rfl, h⟩
        · cases h

/-- The level of the block of a call and of its node, whichever is higher. -/
def callLevel (level : N → Nat) (blockLevel : B → Nat) (c : Call N B) : Nat :=
  max ((c.BB.map blockLevel).getD 0) ((c.ND.map level).getD 0)

/-- How deep the block of a call is in the dominator tree. -/
def callDepth (depth : B → Nat) (c : Call N B) : Nat := (c.BB.map depth).getD 0

/-- Each recursive call goes up in the call graph or, in the same function, up in the dominator
tree. -/
theorem Leveled.lt_of_mem {level : N → Nat} {blockLevel depth : B → Nat}
    (h : G.Leveled level blockLevel depth) {c d : Call N B} (hd : d ∈ G.recursiveCalls m c) :
    Prod.Lex (· < ·) (· < ·) (callLevel level blockLevel d, callDepth depth d)
      (callLevel level blockLevel c, callDepth depth c) := by
  rcases of_mem_recursiveCalls hd with ⟨BB, CD, hBB, hidom, rfl⟩ | ⟨n, hn, hcaller⟩
  · obtain ⟨hlevel, hdepth⟩ := h.idom BB CD hidom
    have hle : callLevel level blockLevel ⟨some CD, none⟩ ≤ callLevel level blockLevel c := by
      simp only [callLevel, hBB, Option.map_some, Option.map_none, Option.getD_some,
        Option.getD_none]
      omega
    have hlt : callDepth depth (⟨some CD, none⟩ : Call N B) < callDepth depth c := by
      simp only [callDepth, hBB, Option.map_some, Option.getD_some]
      exact hdepth
    -- the dominator may be on the same level, and then it is not as deep
    rcases Nat.lt_or_eq_of_le hle with hlt' | heq
    · exact Prod.Lex.left _ _ hlt'
    · rw [heq]
      exact Prod.Lex.right _ hlt
  · obtain ⟨node, hnode, hother, rfl⟩ := mem_callers.1 hcaller
    -- a caller in another function is on a level below
    apply Prod.Lex.left
    have hup := h.caller n node hnode hother
    have hn' : level n ≤ callLevel level blockLevel c := by
      rcases hn with hND | ⟨BB, hBB, hfirst⟩
      · simp [callLevel, hND]
      · have hle := h.first BB n hfirst
        simp only [callLevel, hBB, Option.map_some, Option.getD_some]
        omega
    have hnode' : callLevel level blockLevel ⟨G.bblock node, some node⟩ ≤ level node := by
      simp only [callLevel, Option.map_some, Option.getD_some]
      cases hb : G.bblock node with
      | none => simp
      | some b =>
          have hle := h.block node b hb
          simp [hle]
    omega

/-- **With an acyclic call graph and a dominator tree every search ends.** -/
theorem ends_of_level {level : N → Nat} {blockLevel depth : B → Nat}
    (h : G.Leveled level blockLevel depth) [DecidableEq B] (isLoop : Bool) (blks : Finset B)
    (addDep : Bool) (BB : Option B) : G.Ends m isLoop blks addDep BB := by
  have hacc : ∀ c : Call N B, Acc (fun d c => (G.climbing m).Climb c d) c := by
    have hwf : WellFounded (Prod.Lex (· < · : Nat → Nat → Prop) (· < · : Nat → Nat → Prop)) :=
      WellFounded.prod_lex Nat.lt_wfRel.wf Nat.lt_wfRel.wf
    intro c
    induction c using (InvImage.wf (fun c => (callLevel level blockLevel c, callDepth depth c))
      hwf).induction with
    | h c ih =>
        apply Acc.intro
        intro d hd
        exact ih d (h.lt_of_mem (SearchSpace.mem_of_tried hd))
  cases BB with
  | none => exact ⟨0, rfl⟩
  | some b =>
      rw [ends_iff_allTerminate, SearchSpace.allTerminate_iff]
      intro c _
      exact (SearchSpace.terminates_iff_acc c).2 (hacc c)

end Leveled

end DependenceGraph

/-! ## Mutual recursion -/

namespace MutualRecursion

/-- `main` calls `f`; `f` branches on the secret before it calls `g`; `g` calls `f`. -/
inductive Node where
  | main | mainCallsF | mainRet
  | f | load | br | fCallsG | fRet
  | g | gCallsF | gRet
  deriving DecidableEq

inductive Block where
  | main | branch | call | exit | g
  deriving DecidableEq

inductive Fn where
  | main | f | g
  deriving DecidableEq

open Node

def fnOf : Node → Fn
  | main | mainCallsF | mainRet => .main
  | f | load | br | fCallsG | fRet => .f
  | g | gCallsF | gRet => .g

def graph : DependenceGraph Node Block Fn Unit where
  key
    | main => .function "main"
    | f => .function "f"
    | g => .function "g"
    | mainCallsF | gCallsF => .instruction (.call (some "f"))
    | fCallsG => .instruction (.call (some "g"))
    | load => .instruction .load
    | br => .instruction (.br true)
    | mainRet | fRet | gRet => .instruction .ret
  nodes
    | .main => [mainCallsF, mainRet]
    | .branch => [load, br]
    | .call => [fCallsG]
    | .exit => [fRet]
    | .g => [gCallsF, gRet]
  successors
    | .branch => [.call, .exit]
    | .call => [.exit]
    | _ => []
  predecessors
    | .call => [.branch]
    | .exit => [.branch, .call]
    | _ => []
  idom
    | .call | .exit => some .branch
    | _ => none
  ipostdom
    | .branch | .call => .block .exit
    | _ => .root
  functionName
    | .main => "main"
    | .g => "g"
    | _ => "f"
  functionBlocks
    | "main" => [.main]
    | "f" => [.branch, .call, .exit]
    | "g" => [.g]
    | _ => []
  bblock
    | main | f | g => none
    | mainCallsF | mainRet => some .main
    | load | br => some .branch
    | fCallsG => some .call
    | fRet => some .exit
    | gCallsF | gRet => some .g
  dg n := some (fnOf n)
  entry
    | .main => some main
    | .f => some f
    | .g => some g
  -- the entries are global nodes, which every graph has
  getNode d n := if n ∈ [main, f, g] ∨ fnOf n = d then some n else none
  control
    | main => [mainCallsF, mainRet]
    | f => [load, br, fCallsG, fRet]
    | g => [gCallsF, gRet]
    | mainCallsF | gCallsF => [f]
    | fCallsG => [g]
    | _ => []
  revControl
    | main => []
    | f => [gCallsF, mainCallsF]
    | g => [fCallsG]
    | mainCallsF | mainRet => [main]
    | load | br | fCallsG | fRet => [f]
    | gCallsF | gRet => [g]
  data _ := []
  revData _ := []
  use
    | load => [br]
    | _ => []
  user
    | br => [load]
    | _ => []
  interference _ := []
  controlDependence
    | .branch => [.call]
    | _ => []
  revControlDependence
    | .call => [.branch]
    | _ => []
  userData _ := .null
  pointsTo _ _ := []

/-- The marks when the branch is secret: `load`, whose address is the secret, is left unmarked and
`main` is not reached. -/
def slices : Slices Node Block where
  node
    | main | mainCallsF | mainRet | load => 0
    | _ => 1
  block
    | .main => 0
    | _ => 1

/-- The calls that the search repeats. -/
def repeated : List (Call Node Block) :=
  [⟨some .branch, none⟩, ⟨none, some f⟩, ⟨some .g, some gCallsF⟩, ⟨none, some g⟩,
    ⟨some .call, some fCallsG⟩]

theorem repeated_head : ∀ c, c ∈ repeated →
    ∃ d rest, (graph.climbing slices).children c = d :: rest ∧ d ∈ repeated := by
  intro c hc
  simp only [repeated, List.mem_cons, List.not_mem_nil, or_false] at hc
  rcases hc with rfl | rfl | rfl | rfl | rfl
  · exact ⟨⟨none, some f⟩, _, rfl, by decide⟩
  · exact ⟨⟨some .g, some gCallsF⟩, _, rfl, by decide⟩
  · exact ⟨⟨none, some g⟩, _, rfl, by decide⟩
  · exact ⟨⟨some .call, some fCallsG⟩, _, rfl, by decide⟩
  · exact ⟨⟨some .branch, none⟩, _, rfl, by decide⟩

/-- **Mutual recursion keeps the search going for ever**: from the block of the call of `g` it goes
to the branch, to the caller `g` of `f`, to the caller `f` of `g`, and back to the branch. -/
theorem not_ends : ¬ graph.Ends slices false ∅ true (some .call) := by
  rw [DependenceGraph.ends_iff_allTerminate]
  rintro ⟨fuel, h⟩
  have hsearches : graph.searches slices false ∅ .call = [⟨some .branch, none⟩] := by decide
  have hnone : (graph.climbing slices).search fuel ⟨some .branch, none⟩ = none :=
    SearchSpace.search_eq_none_of_head repeated_head fuel _ (by decide)
  rw [hsearches, firstSome, hnone] at h
  cases h

end MutualRecursion

end Cape.Slicing
