import Cape.ControlDependence.NTSCD
import Cape.Library.Worklist

/-!
# The algorithm `DOD`

`AllMaxPath` remembers for every node which nodes all maximal paths from it contain. For a predicate
`p` the nodes on all maximal paths from it make a graph of their own, `Ap`, with an edge where a node
is the first one of `Ap` that a path meets. The nodes that the two successors of `p` meet first are
blue and red; DOD is read off the order of the colours on the cycle in `Ap`.

A vector of bits over the ids is the set of the nodes that have these ids, and the nodes of `Ap` go
by the names of the nodes they stand for, which `_mapping` and `_rev_mapping` take to each other in
the order of the ids. Where an assertion fails or a pointer is null, the value is `none`.
-/

set_option autoImplicit false

namespace Cape.ControlDependence

open Cape.Library

namespace AllMaxPath

variable (G : CDGraph)

/-- The nodes whose colours a node has. -/
abbrev Colors : Type := G.Node → Finset G.Node

variable {G}

/-- `compute` for one target. The counters are `unsigned short`, and the colours stay. -/
def computeTarget (colors : Colors G) (target : G.Node) (fuel : Nat) : Option (Colors G) :=
  (Countdown.search G.successors G.predecessors 16 (fun n => target ∈ colors n) target fuel).map
    fun marked n => if marked n then insert target (colors n) else colors n

variable (G)

/-- `compute`. -/
def compute (fuel : Nat) : Option (Colors G) :=
  G.nodes.foldlM (fun colors nd => computeTarget colors nd fuel) fun _ => ∅

variable {G}

/-- What the search for one target adds. -/
theorem computeTarget_spec (hdeg : ∀ n, (G.successors n).length < 2 ^ 16) {colors : Colors G}
    {target : G.Node} (hfresh : ∀ n, target ∉ colors n) {fuel : Nat} (hfuel : G.size + 2 ≤ fuel) :
    ∃ colors', computeTarget colors target fuel = some colors' ∧ ∀ n t, t ∈ colors' n ↔
      (t = target ∧ Countdown.Counted G.successors target n) ∨ t ∈ colors n := by
  obtain ⟨marked, hsearch, hmarked⟩ := NTSCD.computeTarget_spec hdeg target hfuel
  have hstart : (fun n => decide (target ∈ colors n)) = fun _ => false :=
    funext fun n => decide_eq_false (hfresh n)
  refine ⟨fun n => if marked n then insert target (colors n) else colors n, ?_, fun n t => ?_⟩
  · rw [computeTarget]
    rw [hstart]
    exact congrArg (Option.map _) hsearch
  · show t ∈ (if marked n then insert target (colors n) else colors n) ↔ _
    cases hn : marked n with
    | true =>
        rw [if_pos rfl, Finset.mem_insert]
        simp only [(hmarked n).1 hn, and_true]
    | false =>
        have hnot : ¬ Countdown.Counted G.successors target n := fun h => by
          rw [(hmarked n).2 h] at hn
          cases hn
        rw [if_neg Bool.false_ne_true]
        simp only [hnot, and_false, false_or]

/-- The searches one after the other do not disturb each other. -/
theorem compute_spec (hdeg : ∀ n, (G.successors n).length < 2 ^ 16) {fuel : Nat}
    (hfuel : G.size + 2 ≤ fuel) : ∃ colors, compute G fuel = some colors ∧
      ∀ n t, t ∈ colors n ↔ Countdown.Counted G.successors t n := by
  have hfold : ∀ {l : List G.Node}, l.Nodup → ∀ {colors : Colors G},
      (∀ t ∈ l, ∀ n, t ∉ colors n) →
      ∃ colors', l.foldlM (fun colors nd => computeTarget colors nd fuel) colors = some colors' ∧
        ∀ n t, t ∈ colors' n ↔ (t ∈ l ∧ Countdown.Counted G.successors t n) ∨ t ∈ colors n := by
    intro l
    induction l with
    | nil => exact fun _ colors _ => ⟨colors, rfl, fun n t => by simp⟩
    | cons a l ih =>
        intro hl colors hfresh
        obtain ⟨ha, hl⟩ := List.nodup_cons.1 hl
        obtain ⟨hfirst, hrest⟩ := List.forall_mem_cons.1 hfresh
        obtain ⟨colors₁, htarget, hmem₁⟩ := computeTarget_spec hdeg hfirst hfuel
        -- the colours of the targets that are left are in no node yet
        have hfresh₁ : ∀ t ∈ l, ∀ n, t ∉ colors₁ n := by
          intro t ht n hn
          obtain ⟨rfl, -⟩ | hn := (hmem₁ n t).1 hn
          · exact ha ht
          · exact hrest t ht n hn
        obtain ⟨colors₂, hfoldl, hmem₂⟩ := ih hl hfresh₁
        refine ⟨colors₂, ?_, fun n t => ?_⟩
        · rw [List.foldlM_cons, htarget]
          exact hfoldl
        · rw [hmem₂, hmem₁, List.mem_cons]
          constructor
          · rintro (⟨ht, hc⟩ | ⟨rfl, hc⟩ | hn)
            · exact Or.inl ⟨Or.inr ht, hc⟩
            · exact Or.inl ⟨Or.inl rfl, hc⟩
            · exact Or.inr hn
          · rintro (⟨rfl | ht, hc⟩ | hn)
            · exact Or.inr (Or.inl ⟨rfl, hc⟩)
            · exact Or.inl ⟨ht, hc⟩
            · exact Or.inr (Or.inr hn)
  obtain ⟨colors, hcompute, hmem⟩ := hfold G.nodup_nodes
    fun t _ n => Finset.notMem_empty t
  exact ⟨colors, hcompute, fun n t => by rw [hmem]; simp⟩

end AllMaxPath

namespace DOD

variable (G : CDGraph)

/-- `ColoredAp`, when it is not empty: the nodes in the order of their ids, the edges, the colours. -/
structure ColoredAp where
  nodes : List G.Node
  successors : G.Node → List G.Node
  blues : Finset G.Node
  reds : Finset G.Node

variable {G}

/-- The paths are not followed beyond a node of `Ap`. -/
def onward (nodes : Finset G.Node) (cur : G.Node) : List G.Node :=
  if cur ∈ nodes then [] else G.successors cur

/-- `foreachFirstReachable`: the nodes that its function is applied to, in order. -/
def firstReachable (nodes : Finset G.Node) (start : G.Node) : List G.Node :=
  (Worklist.order .stack (onward nodes) G.size
    ((G.successors start).foldl (Worklist.see .stack) ⟨∅, []⟩)).filter (· ∈ nodes)

/-- `createAp`, up to the colours; `some none` is the empty graph. -/
def createAp (nodes : Finset G.Node) (node : G.Node) : Option (Option (ColoredAp G)) :=
  if node ∈ nodes then
    if (G.nodes.filter (· ∈ nodes)).length < 3 then some none
    else if (firstReachable nodes node).length < 2 then some none
    else some (some ⟨G.nodes.filter (· ∈ nodes), firstReachable nodes, ∅, ∅⟩)
  else none

/-- The nodes of `Ap` that get the colour of a successor. -/
def colorOf (nodes : Finset G.Node) (succ : G.Node) : Finset G.Node :=
  if succ ∈ nodes then {succ} else (firstReachable nodes succ).toFinset

/-- `createColoredAp`. -/
def createColoredAp (nodes : Finset G.Node) (node : G.Node) : Option (Option (ColoredAp G)) :=
  (createAp nodes node).bind fun
    | none => some none
    | some CAp =>
        match G.successors node with
        | [bluesucc, redsucc] =>
            let blues := colorOf nodes bluesucc
            let reds := colorOf nodes redsucc
            if (blues ∩ reds).Nonempty then some none
            else some (some { CAp with blues := blues, reds := reds })
        | _ => none

namespace ColoredAp

variable (A : ColoredAp G)

/-- `getSingleSuccessor` in `Ap`. -/
def single (n : G.Node) : Option G.Node := getSingleSuccessor (A.successors n)

def isBlue (n : G.Node) : Bool := n ∈ A.blues

def isRed (n : G.Node) : Bool := n ∈ A.reds

/-- The node has a colour. -/
def isColored (n : G.Node) : Bool := A.isBlue n || A.isRed n

/-- The walk round the cycle in `checkAp`: the nodes on it. -/
def visit (p start : G.Node) : Nat → Finset G.Node → G.Node → Option (Finset G.Node)
  | 0, _, _ => none
  | fuel + 1, visited, cur =>
      if cur = p ∨ cur ∈ visited then none
      else
        (A.single cur).bind fun next =>
          if next = start then some (insert cur visited)
          else visit p start fuel (insert cur visited) next

/-- `checkAp`: its assertions hold. -/
def checkAp : Bool :=
  match A.nodes.dropWhile fun n => (A.successors n).length ≤ 1 with
  | [] => false
  | p :: rest =>
      rest.all (fun n => (A.successors n).length = 1 && A.single n ≠ some n) &&
        (A.successors p).head?.any fun n =>
          (A.visit p n (A.nodes.length + 1) ∅ n).any fun visited =>
            visited.card = A.nodes.length - 1

/-- `find`: the last node with `P1` up to the first one with `P2`, and that one. -/
def find (P1 P2 : G.Node → Bool) (stop : G.Node) :
    Nat → Option G.Node → G.Node → Option (Option G.Node × Option G.Node)
  | 0, _, _ => none
  | fuel + 1, n1, n =>
      let n1 := if P1 n then some n else n1
      if P2 n then some (n1, some n)
      else
        (A.single n).bind fun next =>
          if next = stop then some (n1, none) else find P1 P2 stop fuel n1 next

/-- A loop of `constructBinaryRelation`: the nodes from `cur` up to the next colour, which is to be
at `stop`. -/
def segment (stop : G.Node) : Nat → G.Node → Option (List G.Node)
  | 0, _ => none
  | fuel + 1, cur =>
      (A.single cur).bind fun next =>
        if A.isColored next then if next = stop then some [cur] else none
        else (segment stop fuel next).map (cur :: ·)

/-- `constructBinaryRelation`: the nodes that depend on the predicate. -/
def constructBinaryRelation (b2 b3 r1 r2 : G.Node) (fuel : Nat) : Option (List G.Node) :=
  (A.segment r1 fuel b2).bind fun l => (A.segment b3 fuel r2).map (l ++ ·)

/-- `computeDOD` for a coloured graph: the nodes that depend on the predicate. -/
def computeDOD (fuel : Nat) : Option (List G.Node) :=
  if A.checkAp then
    (A.nodes.find? (· ∈ A.blues)).bind fun b1 =>
      (A.find A.isBlue A.isRed b1 fuel none b1).bind fun
        | (some b2, some r1) =>
            (A.find A.isRed A.isBlue b1 fuel none r1).bind fun
              | (some r2, some b3) =>
                  (A.find A.isRed A.isRed b1 fuel none b3).bind fun
                    | (none, _) => A.constructBinaryRelation b2 b3 r1 r2 fuel
                    | (some _, _) => some []
              | (some r2, none) => A.constructBinaryRelation b2 b1 r1 r2 fuel
              | (none, _) => none
        | _ => none
  else none

end ColoredAp

/-- `computeDOD` for a predicate: the nodes that depend on it. -/
def dependents (allpaths : AllMaxPath.Colors G) (p : G.Node) (fuel : Nat) :
    Option (List G.Node) :=
  if (G.successors p).length = 2 then
    (createColoredAp (allpaths p) p).bind fun
      | none => some []
      | some CAp => CAp.computeDOD fuel
  else none

/-- `computeDOD`: they are inserted in both maps. -/
def computeDOD (allpaths : AllMaxPath.Colors G) (fuel : Nat) (p : G.Node) (r : Result G.Node) :
    Option (Result G.Node) :=
  (dependents allpaths p fuel).map fun l => l.foldl (fun r n => r.add n p) r

variable (G)

/-- `compute`. -/
def compute (fuel : Nat) : Option (Result G.Node) :=
  (AllMaxPath.compute G fuel).bind fun allpaths =>
    G.predicates.foldlM (fun r p => computeDOD allpaths fuel p r) .empty

variable {G}

/-- The nodes that depend on one predicate are added. -/
theorem mem_foldl_add (p : G.Node) (l : List G.Node) (r : Result G.Node) (n' p' : G.Node) :
    p' ∈ (l.foldl (fun r n => r.add n p) r).CD n' ↔ (p' = p ∧ n' ∈ l) ∨ p' ∈ r.CD n' := by
  induction l generalizing r with
  | nil => simp
  | cons n l ih =>
      rw [List.foldl_cons, ih, Result.mem_add, List.mem_cons]
      tauto

theorem converse_computeDOD {allpaths : AllMaxPath.Colors G} {fuel : Nat} {p : G.Node}
    {r r' : Result G.Node} (hr : r.Converse) (h : computeDOD allpaths fuel p r = some r') :
    r'.Converse := by
  obtain ⟨l, -, rfl⟩ := Option.map_eq_some_iff.1 h
  exact Result.Converse.foldl (fun n _ _ hr => hr.add n p) hr

/-- The two maps are filled together. -/
theorem converse_compute {fuel : Nat} {r : Result G.Node} (h : compute G fuel = some r) :
    r.Converse := by
  obtain ⟨allpaths, -, hfold⟩ := Option.bind_eq_some_iff.1 h
  exact Result.foldlM_keeps (fun _ _ _ _ => converse_computeDOD) Result.converse_empty hfold

end DOD

end Cape.ControlDependence
