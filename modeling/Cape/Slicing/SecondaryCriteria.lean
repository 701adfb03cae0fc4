import Cape.Library.FallibleLoop
import Cape.Library.FinLiterals
import Cape.Library.Worklist

/-!
# Secondary slicing criteria

`findSecondarySlicingCriteria` goes backwards from the blocks of the criteria and adds the calls of
functions with given names. Of a block that it comes to it looks at all nodes of the predecessors; a
call there leads on to the exit blocks of the procedures called.

It never goes from the entry of a procedure to its callers, and `isCallTo` asks only the first
procedure that a call may enter. `secondaryCriteria_iff`: the calls from which a criterion is reached
are all added exactly when the names are those of first callees, and the paths leave behind them no
procedure that was entered.
-/

set_option autoImplicit false

namespace Cape.Slicing.SecondaryCriteria

open Cape.Library Relation

/-- The dependence graphs of a program: the blocks `B` of nodes `N`, a graph `G` for a procedure and
the names `F` of functions. A node is in one block at most. The exit block of a procedure is made for
its artificial exit node. -/
structure ProgramGraph (B N G F : Type) where
  getNodes : B → List N
  getBBlock : N → Option B
  successors : B → List B
  predecessors : B → List B
  isCallInst : N → Bool
  /-- the function called, without casts; none for a call by a pointer -/
  calledFunction : N → Option F
  /-- the functions that the called pointer may point to -/
  pointees : N → List F
  /-- the graphs of the functions called that have a body -/
  getSubgraphs : N → List G
  /-- the function of the entry node -/
  function : G → F
  getEntryBB : G → B
  getExitBB : G → B
  nodes_nodup : ∀ b, (getNodes b).Nodup
  mem_nodes : ∀ n b, n ∈ getNodes b ↔ getBBlock n = some b
  mem_predecessors : ∀ p b, p ∈ predecessors b ↔ b ∈ successors p
  exit_nodes : ∀ g, ∀ n ∈ getNodes (getExitBB g), isCallInst n = false ∧ getSubgraphs n = []

namespace ProgramGraph

variable {B N G F : Type} [DecidableEq N]
variable (P : ProgramGraph B N G F)

section Search

variable [DecidableEq B] [DecidableEq F]

/-- The loop over the graphs returns in its first round. -/
def isCallTo (callNode : N) (names : Finset F) : Bool :=
  if P.isCallInst callNode then
    match P.getSubgraphs callNode with
    | [] =>
        match P.calledFunction callNode with
        | none => false
        | some func => func ∈ names
    | dg :: _ => P.function dg ∈ names
  else false

/-- The names for control and for data. -/
structure Names (F : Type) where
  control : Finset F
  data : Finset F

variable (names : Names F)

/-- The criteria, and the blocks visited and queued. -/
structure State (B N : Type) where
  criteria : Finset N
  blocks : Worklist B

/-- `checkSecondarySlicingCrit`. -/
def checkSecondarySlicingCrit (nd : N) (criteria : Finset N) : Finset N :=
  let criteria := if P.isCallTo nd names.control then insert nd criteria else criteria
  if P.isCallTo nd names.data then insert nd criteria else criteria

/-- The body of both loops over nodes: the exits of the procedures called are queued. -/
def visitNode (s : State B N) (nd : N) : State B N where
  blocks := ((P.getSubgraphs nd).map P.getExitBB).foldl (Worklist.see .stack) s.blocks
  criteria := P.checkSecondarySlicingCrit names nd s.criteria

/-- The block of a criterion is queued, and the nodes before it are visited. -/
def visitCriterion (s : State B N) (c : N) : State B N :=
  match P.getBBlock c with
  | none => s
  | some b =>
      ((P.getNodes b).takeWhile (· ≠ c)).foldl (P.visitNode names)
        { s with blocks := ⟨insert b s.blocks.seen, b :: s.blocks.pending⟩ }

/-- The nodes of a predecessor are visited, and it is queued. -/
def visitPredecessor (s : State B N) (pred : B) : State B N :=
  let s := (P.getNodes pred).foldl (P.visitNode names) s
  { s with blocks := s.blocks.see .stack pred }

def visitBlock (s : State B N) : State B N :=
  match s.blocks.pending with
  | [] => s
  | cur :: rest =>
      (P.predecessors cur).foldl (P.visitPredecessor names)
        { s with blocks := ⟨s.blocks.seen, rest⟩ }

/-- `fuel` blocks from the queue. -/
def loop : Nat → State B N → State B N
  | 0, s => s
  | fuel + 1, s => loop fuel (P.visitBlock names s)

/-- The criteria go in the order of the set. -/
def start (order : Order N) (criteria : Finset N) : State B N :=
  (order.toList criteria).foldl (P.visitCriterion names) ⟨criteria, ⟨∅, []⟩⟩

/-- The criteria at the end; none where the queue is not empty then. -/
def findSecondarySlicingCriteria (order : Order N) (fuel : Nat) (criteria : Finset N) :
    Option (Finset N) :=
  let s := P.loop names fuel (P.start names order criteria)
  if s.blocks.pending = [] then some s.criteria else none

/-! ## Execution -/

/-- A call that has not returned: the procedure, and where the caller goes on. -/
structure Frame (B N G : Type) where
  procedure : G
  rest : List N
  block : B

/-- The nodes of the block that are still to come, and the calls. -/
structure Config (B N G : Type) where
  rest : List N
  block : B
  stack : List (Frame B N G)

/-- A step of an execution. A call is entered, or passed with all that it does. -/
inductive Step : Config B N G → Config B N G → Prop where
  | next {n : N} {rest : List N} {b : B} {stack : List (Frame B N G)} :
      Step ⟨n :: rest, b, stack⟩ ⟨rest, b, stack⟩
  | goto {b s : B} {stack : List (Frame B N G)} : s ∈ P.successors b →
      Step ⟨[], b, stack⟩ ⟨P.getNodes s, s, stack⟩
  | enter {n : N} {rest : List N} {b : B} {stack : List (Frame B N G)} {g : G} :
      g ∈ P.getSubgraphs n →
      Step ⟨n :: rest, b, stack⟩ ⟨P.getNodes (P.getEntryBB g), P.getEntryBB g, ⟨g, rest, b⟩ :: stack⟩
  | leave {g : G} {rest : List N} {b : B} {stack : List (Frame B N G)} :
      Step ⟨[], P.getExitBB g, ⟨g, rest, b⟩ :: stack⟩ ⟨rest, b, stack⟩

/-- The frame of a call in its block. -/
def Frame.IsCall (P : ProgramGraph B N G F) (f : Frame B N G) : Prop :=
  ∃ pre call, P.getNodes f.block = pre ++ call :: f.rest ∧ f.procedure ∈ P.getSubgraphs call

/-- The execution is at a node, below calls. -/
structure Config.At (P : ProgramGraph B N G F) (x : Config B N G) (n : N) : Prop where
  suffix : ∃ pre rest, x.rest = n :: rest ∧ P.getNodes x.block = pre ++ n :: rest
  calls : ∀ f ∈ x.stack, f.IsCall P

/-- An execution leads from the one node to the other. -/
def Reaches (n c : N) : Prop :=
  ∃ x y : Config B N G, x.At P n ∧ y.At P c ∧ ReflTransGen P.Step x y

/-- A step with as many calls at least on both sides. -/
def StepAbove (level : Nat) (x y : Config B N G) : Prop :=
  P.Step x y ∧ level ≤ x.stack.length ∧ level ≤ y.stack.length

/-- An execution leads from the one node to the other that has left every procedure that it entered,
so that it has no more calls on its way than at the end. -/
def Ascends (n c : N) : Prop :=
  ∃ x y : Config B N G, x.At P n ∧ y.At P c ∧ ReflTransGen (P.StepAbove y.stack.length) x y

/-- A call that may call a function with one of the names. -/
def MayCall (n : N) : Prop :=
  P.isCallInst n = true ∧ ∃ f, (f ∈ names.control ∨ f ∈ names.data) ∧
    (P.calledFunction n = some f ∨ f ∈ P.pointees n ∨ ∃ g ∈ P.getSubgraphs n, P.function g = f)

/-- The first callee, as `isCallTo` asks for it, has one of the names. -/
def IsNamed (n : N) : Prop :=
  P.isCallTo n names.control = true ∨ P.isCallTo n names.data = true

variable {P names}

/-! ## What is visited -/

omit [DecidableEq B] in
@[simp] theorem mem_check (nd n : N) (criteria : Finset N) :
    n ∈ P.checkSecondarySlicingCrit names nd criteria ↔
      n ∈ criteria ∨ n = nd ∧ P.IsNamed names nd := by
  rw [checkSecondarySlicingCrit, IsNamed]
  cases P.isCallTo nd names.control with
  | true => cases P.isCallTo nd names.data <;> simp [or_comm]
  | false => cases P.isCallTo nd names.data <;> simp [or_comm]

/-- The exit blocks of the procedures that the nodes call. -/
def exits (P : ProgramGraph B N G F) (l : List N) : List B :=
  l.flatMap fun nd => (P.getSubgraphs nd).map P.getExitBB

variable (names) in
theorem blocks_visitNodes (l : List N) (s : State B N) :
    (l.foldl (P.visitNode names) s).blocks = (P.exits l).foldl (Worklist.see .stack) s.blocks := by
  induction l generalizing s with
  | nil => rfl
  | cons nd l ih =>
      rw [List.foldl_cons, ih, exits, exits, List.flatMap_cons, List.foldl_append]
      rfl

theorem mem_criteria_visitNodes (l : List N) (s : State B N) (n : N) :
    n ∈ (l.foldl (P.visitNode names) s).criteria ↔ n ∈ s.criteria ∨ n ∈ l ∧ P.IsNamed names n := by
  rw [FallibleLoop.foldl_adds (P := fun s : State B N => n ∈ s.criteria)
    (fun nd _ s => mem_check nd n s.criteria)]
  refine or_congr_right ⟨?_, ?_⟩
  · rintro ⟨nd, hnd, rfl, h⟩
    exact ⟨hnd, h⟩
  · rintro ⟨hn, h⟩
    exact ⟨n, hn, rfl, h⟩

/-- The blocks that the search goes on to from a block. -/
def next (P : ProgramGraph B N G F) (cur : B) : List B :=
  (P.predecessors cur).flatMap fun pred => P.exits (P.getNodes pred) ++ [pred]

theorem blocks_visitPredecessors (l : List B) (s : State B N) :
    (l.foldl (P.visitPredecessor names) s).blocks =
      (l.flatMap fun pred => P.exits (P.getNodes pred) ++ [pred]).foldl (Worklist.see .stack)
        s.blocks := by
  induction l generalizing s with
  | nil => rfl
  | cons pred l ih =>
      rw [List.foldl_cons, ih, List.flatMap_cons, List.foldl_append, List.foldl_append,
        ← blocks_visitNodes names]
      rfl

theorem mem_criteria_visitPredecessors (l : List B) (s : State B N) (n : N) :
    n ∈ (l.foldl (P.visitPredecessor names) s).criteria ↔
      n ∈ s.criteria ∨ ∃ pred ∈ l, n ∈ P.getNodes pred ∧ P.IsNamed names n :=
  FallibleLoop.foldl_adds (g := P.visitPredecessor names) (P := fun s => n ∈ s.criteria)
    (fun pred _ s => mem_criteria_visitNodes (P.getNodes pred) s n) s

theorem blocks_loop (fuel : Nat) (s : State B N) :
    (P.loop names fuel s).blocks = s.blocks.run .stack P.next fuel := by
  induction fuel generalizing s with
  | zero => rfl
  | succ fuel ih =>
      rw [loop, ih, Worklist.run]
      congr 1
      rw [visitBlock, Worklist.round]
      cases s.blocks.pending with
      | nil => rfl
      | cons cur rest => exact blocks_visitPredecessors _ _

/-- A predecessor of the block has the node. -/
def Precedes (P : ProgramGraph B N G F) (n : N) (cur : B) : Prop :=
  ∃ pred ∈ P.predecessors cur, n ∈ P.getNodes pred

theorem mem_criteria_loop (fuel : Nat) (s : State B N) (n : N) :
    n ∈ (P.loop names fuel s).criteria ↔ n ∈ s.criteria ∨
      P.IsNamed names n ∧ ∃ cur ∈ s.blocks.order .stack P.next fuel, P.Precedes n cur := by
  induction fuel generalizing s with
  | zero => simp [loop, Worklist.order]
  | succ fuel ih =>
      have hround : (P.visitBlock names s).blocks = s.blocks.round .stack P.next := by
        have hone : (P.loop names 1 s).blocks = s.blocks.run .stack P.next 1 := blocks_loop 1 s
        simpa [loop, Worklist.run] using hone
      rw [loop, ih, hround, Worklist.order]
      cases hpending : s.blocks.pending with
      | nil =>
          -- the queue stays empty
          rw [Worklist.round_of_pending_nil .stack P.next hpending]
          have hnone : s.blocks.order .stack P.next fuel = [] := by
            cases fuel with
            | zero => rfl
            | succ fuel => rw [Worklist.order, hpending]
          rw [visitBlock, hpending, hnone]
      | cons cur rest =>
          have hvisit : n ∈ (P.visitBlock names s).criteria ↔
              n ∈ s.criteria ∨ P.IsNamed names n ∧ P.Precedes n cur := by
            rw [visitBlock, hpending]
            refine (mem_criteria_visitPredecessors _ _ n).trans (or_congr_right ?_)
            constructor
            · rintro ⟨p, hp, hn, h⟩
              exact ⟨h, p, hp, hn⟩
            · rintro ⟨h, p, hp, hn⟩
              exact ⟨p, hp, hn, h⟩
          rw [hvisit, or_assoc, List.exists_mem_cons_iff, and_or_left]

/-! ## The beginning of the search -/

/-- The node stands before the criterion in its block. -/
def Before (P : ProgramGraph B N G F) (n c : N) : Prop :=
  ∃ b, P.getBBlock c = some b ∧ n ∈ (P.getNodes b).takeWhile (· ≠ c)

/-- A block that the criterion begins the search with. -/
def Root (P : ProgramGraph B N G F) (c : N) (x : B) : Prop :=
  P.getBBlock c = some x ∨ ∃ n g, P.Before n c ∧ g ∈ P.getSubgraphs n ∧ P.getExitBB g = x

theorem mem_criteria_visitCriterion (c : N) (s : State B N) (n : N) :
    n ∈ (P.visitCriterion names s c).criteria ↔
      n ∈ s.criteria ∨ P.Before n c ∧ P.IsNamed names n := by
  rw [visitCriterion]
  cases hb : P.getBBlock c with
  | none => simp [Before, hb]
  | some b => simp [mem_criteria_visitNodes, Before, hb]

theorem mem_seen_visitCriterion (c : N) (s : State B N) (x : B) :
    x ∈ (P.visitCriterion names s c).blocks.seen ↔ x ∈ s.blocks.seen ∨ P.Root c x := by
  rw [visitCriterion]
  cases hb : P.getBBlock c with
  | none => simp [Root, Before, hb]
  | some b =>
      simp only [blocks_visitNodes, Worklist.mem_seen_foldl_see, Finset.mem_insert, Root, Before, hb,
        exits, List.mem_flatMap, List.mem_map, Option.some_inj, exists_eq_left']
      constructor
      · rintro (⟨n, hn, g, hg, rfl⟩ | rfl | hx)
        · exact Or.inr (Or.inr ⟨n, g, hn, hg, rfl⟩)
        · exact Or.inr (Or.inl rfl)
        · exact Or.inl hx
      · rintro (hx | rfl | ⟨n, g, hn, hg, rfl⟩)
        · exact Or.inr (Or.inr hx)
        · exact Or.inr (Or.inl rfl)
        · exact Or.inl ⟨n, hn, g, hg, rfl⟩

/-- All blocks seen are pending until the search begins. -/
theorem pending_visitCriterion (c : N) {s : State B N}
    (h : ∀ x, x ∈ s.blocks.pending ↔ x ∈ s.blocks.seen) (x : B) :
    x ∈ (P.visitCriterion names s c).blocks.pending ↔
      x ∈ (P.visitCriterion names s c).blocks.seen := by
  rw [visitCriterion]
  cases hb : P.getBBlock c with
  | none => exact h x
  | some b =>
      simp only [blocks_visitNodes, Worklist.mem_seen_foldl_see, Worklist.mem_pending_foldl_see,
        Finset.mem_insert, List.mem_cons, h]
      tauto

theorem size_visitCriterion [Fintype B] (c : N) (s : State B N) :
    (P.visitCriterion names s c).blocks.size ≤ s.blocks.size + 1 := by
  rw [visitCriterion]
  cases hb : P.getBBlock c with
  | none => exact Nat.le_succ _
  | some b =>
      simp only [blocks_visitNodes, Worklist.size_foldl_see]
      have hle := Finset.card_le_card (Finset.subset_insert b s.blocks.seen)
      simp only [Worklist.size, List.length_cons]
      omega

variable {criteria : Finset N} (order : Order N)

theorem mem_criteria_start (n : N) : n ∈ (P.start names order criteria).criteria ↔
    n ∈ criteria ∨ P.IsNamed names n ∧ ∃ c ∈ criteria, P.Before n c := by
  have h := FallibleLoop.foldl_adds (g := P.visitCriterion names) (P := fun s => n ∈ s.criteria)
    (l := order.toList criteria) (fun c _ s => mem_criteria_visitCriterion c s n)
    ⟨criteria, ⟨∅, []⟩⟩
  rw [start]
  apply h.trans
  refine or_congr_right ⟨?_, ?_⟩
  · rintro ⟨c, hc, hbefore, hn⟩
    exact ⟨hn, c, (order.mem_toList _ _).1 hc, hbefore⟩
  · rintro ⟨hn, c, hc, hbefore⟩
    exact ⟨c, (order.mem_toList _ _).2 hc, hbefore, hn⟩

theorem mem_seen_start (x : B) : x ∈ (P.start names order criteria).blocks.seen ↔
    ∃ c ∈ criteria, P.Root c x := by
  have h := FallibleLoop.foldl_adds (g := P.visitCriterion names) (P := fun s => x ∈ s.blocks.seen)
    (l := order.toList criteria) (fun c _ s => mem_seen_visitCriterion c s x)
    ⟨criteria, ⟨∅, []⟩⟩
  rw [start]
  apply h.trans
  simp [order.mem_toList]

theorem pending_start (x : B) : x ∈ (P.start names order criteria).blocks.pending ↔
    x ∈ (P.start names order criteria).blocks.seen := by
  have hfold : ∀ (l : List N) (s : State B N),
      (∀ x, x ∈ s.blocks.pending ↔ x ∈ s.blocks.seen) →
      ∀ x, x ∈ (l.foldl (P.visitCriterion names) s).blocks.pending ↔
        x ∈ (l.foldl (P.visitCriterion names) s).blocks.seen := by
    intro l
    induction l with
    | nil => exact fun _ h => h
    | cons c l ih => exact fun s h => ih _ (pending_visitCriterion c h)
  exact hfold _ _ (fun x => by simp) x

theorem size_start [Fintype B] : (P.start names order criteria).blocks.size ≤
    Fintype.card B + criteria.card := by
  have hfold : ∀ (l : List N) (s : State B N),
      (l.foldl (P.visitCriterion names) s).blocks.size ≤ s.blocks.size + l.length := by
    intro l
    induction l with
    | nil => exact fun _ => le_refl _
    | cons c l ih =>
        intro s
        have hone : (P.visitCriterion names s c).blocks.size ≤ s.blocks.size + 1 :=
          size_visitCriterion c s
        have hrest := ih (P.visitCriterion names s c)
        rw [List.foldl_cons, List.length_cons]
        omega
  have hlength : (order.toList criteria).length = criteria.card := by
    rw [← List.toFinset_card_of_nodup (order.nodup criteria)]
    congr 1
    ext x
    rw [List.mem_toFinset, order.mem_toList]
  have h := hfold (order.toList criteria) ⟨criteria, ⟨∅, []⟩⟩
  have hempty : (⟨∅, []⟩ : Worklist B).size = Fintype.card B := by simp [Worklist.size]
  rw [hlength, hempty] at h
  exact h

/-! ## The end of the search -/

/-- The blocks that are taken from the queue. -/
def Visited (P : ProgramGraph B N G F) (criteria : Finset N) (x : B) : Prop :=
  ∃ p, (∃ c ∈ criteria, P.Root c p) ∧ ReflTransGen (fun a b => b ∈ P.next a) p x

/-- The nodes that the search looks at. -/
def Checked (P : ProgramGraph B N G F) (criteria : Finset N) (n : N) : Prop :=
  (∃ c ∈ criteria, P.Before n c) ∨ ∃ cur, P.Visited criteria cur ∧ P.Precedes n cur

theorem mem_order_iff [Fintype B] {fuel : Nat} (hfuel : Fintype.card B + criteria.card ≤ fuel)
    (x : B) : x ∈ (P.start names order criteria).blocks.order .stack P.next fuel ↔
      P.Visited criteria x := by
  have hpending : ∀ x, x ∈ (P.start names order criteria).blocks.pending ↔
      x ∈ (P.start names order criteria).blocks.seen := pending_start order
  have hroot : ∀ x, x ∈ (P.start names order criteria).blocks.pending ↔
      ∃ c ∈ criteria, P.Root c x := fun x => (hpending x).trans (mem_seen_start order x)
  rw [Worklist.mem_order .stack P.next (fun x => (hpending x).1)
    ((size_start order).trans hfuel), Worklist.Target]
  constructor
  · rintro (hx | ⟨hx | ⟨p, hp, hway⟩, -⟩)
    · exact ⟨x, (hroot x).1 hx, .refl⟩
    · exact ⟨x, (hroot x).1 ((hpending x).2 hx), .refl⟩
    · exact ⟨p, (hroot p).1 hp, ReflTransGen.mono (fun _ _ h => h.1) _ _ hway⟩
  · rintro ⟨p, hp, hway⟩
    -- a block of the start, or one reached without the others of the start
    by_cases hx : x ∈ (P.start names order criteria).blocks.seen
    · exact Or.inl ((hpending x).2 hx)
    · refine Or.inr ⟨Or.inr ?_, hx⟩
      have hp' := (hpending p).1 ((hroot p).2 hp)
      obtain ⟨q, hq, hfresh⟩ := (Worklist.fresh_of_reaches P.next hp' hway).resolve_left hx
      exact ⟨q, (hpending q).2 hq, hfresh⟩

variable (P names) in
/-- **What is added**: the calls with a name among the nodes that the search looks at. -/
theorem find_spec [Fintype B] (criteria : Finset N) :
    ∃ result, (∀ fuel, Fintype.card B + criteria.card ≤ fuel →
        P.findSecondarySlicingCriteria names order fuel criteria = some result) ∧
      ∀ n, n ∈ result ↔ n ∈ criteria ∨ P.IsNamed names n ∧ P.Checked criteria n := by
  have hmem : ∀ fuel, Fintype.card B + criteria.card ≤ fuel → ∀ n,
      n ∈ (P.loop names fuel (P.start names order criteria)).criteria ↔
        n ∈ criteria ∨ P.IsNamed names n ∧ P.Checked criteria n := by
    intro fuel hfuel n
    rw [mem_criteria_loop, mem_criteria_start, or_assoc, ← and_or_left, Checked]
    simp only [mem_order_iff order hfuel]
  refine ⟨(P.loop names (Fintype.card B + criteria.card) (P.start names order criteria)).criteria,
    fun fuel hfuel => ?_, hmem _ (le_refl _)⟩
  have hempty : (P.loop names fuel (P.start names order criteria)).blocks.pending = [] := by
    rw [blocks_loop]
    exact Worklist.pending_run_eq_nil .stack P.next fuel _ ((size_start order).trans hfuel)
  rw [findSecondarySlicingCriteria, if_pos hempty, Option.some_inj]
  ext n
  rw [hmem fuel hfuel, hmem _ (le_refl _)]

end Search

/-! ## Executions that leave what they enter -/

variable {P} {criteria : Finset N}

theorem Visited.pred {cur pred : B} (h : P.Visited criteria cur) (hpred : pred ∈ P.predecessors cur) :
    P.Visited criteria pred := by
  obtain ⟨p, hp, hway⟩ := h
  refine ⟨p, hp, hway.tail (List.mem_flatMap.2 ⟨pred, hpred, ?_⟩)⟩
  simp

/-- The exit of a procedure that a node calls is visited when the search looks at the node. -/
theorem Checked.exit {n : N} {g : G} (h : P.Checked criteria n) (hg : g ∈ P.getSubgraphs n) :
    P.Visited criteria (P.getExitBB g) := by
  rcases h with ⟨c, hc, hbefore⟩ | ⟨cur, ⟨p, hp, hway⟩, pred, hpred, hn⟩
  · exact ⟨_, ⟨c, hc, Or.inr ⟨n, g, hbefore, hg, rfl⟩⟩, .refl⟩
  · refine ⟨p, hp, hway.tail (List.mem_flatMap.2 ⟨pred, hpred, List.mem_append_left _ ?_⟩)⟩
    exact List.mem_flatMap.2 ⟨n, hn, List.mem_map_of_mem hg⟩

/-- A node with a criterion behind it in the block stands before it. -/
theorem before_of_append {b : B} {pre rest : List N} {n c : N}
    (hnodes : P.getNodes b = pre ++ n :: rest) (hc : c ∈ rest) : P.Before n c := by
  have hnodup := P.nodes_nodup b
  rw [hnodes] at hnodup
  obtain ⟨-, hrest, hdisjoint⟩ := List.nodup_append'.1 hnodup
  have hne : ∀ a ∈ pre ++ [n], a ≠ c := by
    rintro a ha rfl
    rcases List.mem_append.1 ha with ha | ha
    · exact hdisjoint ha (List.mem_cons_of_mem _ hc)
    · exact (List.nodup_cons.1 hrest).1 (List.mem_singleton.1 ha ▸ hc)
  refine ⟨b, (P.mem_nodes c b).1 (by rw [hnodes]; simp [hc]), ?_⟩
  rw [hnodes, ← List.singleton_append, ← List.append_assoc,
    List.takeWhile_append_of_pos (by simpa using hne)]
  simp

theorem append_of_before {n c : N} (h : P.Before n c) :
    ∃ b pre mid post, P.getNodes b = pre ++ n :: (mid ++ c :: post) := by
  obtain ⟨b, hb, hn⟩ := h
  obtain ⟨l, post, hnodes⟩ := List.append_of_mem ((P.mem_nodes c b).2 hb)
  have hnodup := P.nodes_nodup b
  rw [hnodes] at hnodup
  have hdisjoint := (List.nodup_append'.1 hnodup).2.2
  have htake : (P.getNodes b).takeWhile (· ≠ c) = l := by
    rw [hnodes, List.takeWhile_append_of_pos]
    · simp
    · intro a ha
      have hne : a ≠ c := fun h => hdisjoint ha (h ▸ List.mem_cons_self)
      simpa using hne
  rw [htake] at hn
  obtain ⟨pre, mid, rfl⟩ := List.append_of_mem hn
  exact ⟨b, pre, mid, post, by rw [hnodes]; simp⟩

/-- A criterion is reached with as many calls at least on the way. -/
def Arrives (P : ProgramGraph B N G F) (criteria : Finset N) (x : Config B N G) : Prop :=
  ∃ c ∈ criteria, ∃ y : Config B N G, y.At P c ∧ ReflTransGen (P.StepAbove y.stack.length) x y

omit [DecidableEq N] in
theorem Arrives.step {x x' : Config B N G} (hstep : P.Step x x')
    (hlength : x'.stack.length ≤ x.stack.length) (h : P.Arrives criteria x') :
    P.Arrives criteria x := by
  obtain ⟨c, hc, y, hy, hway⟩ := h
  have hlevel : y.stack.length ≤ x'.stack.length := by
    rcases ReflTransGen.cases_head hway with rfl | ⟨_, hfirst, -⟩
    · exact le_refl _
    · exact hfirst.2.1
  exact ⟨c, hc, y, hy, .head ⟨hstep, hlevel.trans hlength, hlevel⟩ hway⟩

omit [DecidableEq N] in
/-- Nodes are passed. -/
theorem Arrives.pass {b : B} {stack : List (Frame B N G)} {rest : List N}
    (h : P.Arrives criteria ⟨rest, b, stack⟩) (l : List N) :
    P.Arrives criteria ⟨l ++ rest, b, stack⟩ := by
  induction l with
  | nil => exact h
  | cons n l ih => exact Arrives.step .next (le_refl _) ih

/-- From a block that is visited a criterion is reached. -/
theorem arrives_of_visited {x : B} (h : P.Visited criteria x) :
    ∃ stack : List (Frame B N G), (∀ f ∈ stack, f.IsCall P) ∧
      P.Arrives criteria ⟨P.getNodes x, x, stack⟩ := by
  -- from the exit of a procedure to behind its call
  have hexit : ∀ {b : B} {stack : List (Frame B N G)} {pre post : List N} {n : N} {g : G},
      P.getNodes b = pre ++ n :: post → g ∈ P.getSubgraphs n → (∀ f ∈ stack, f.IsCall P) →
      P.Arrives criteria ⟨post, b, stack⟩ → ∃ stack : List (Frame B N G),
        (∀ f ∈ stack, f.IsCall P) ∧
        P.Arrives criteria ⟨P.getNodes (P.getExitBB g), P.getExitBB g, stack⟩ := by
    intro b stack pre post n g hnodes hg hcalls harrives
    refine ⟨⟨g, post, b⟩ :: stack, fun f hf => ?_, ?_⟩
    · rcases List.mem_cons.1 hf with rfl | hf
      · exact ⟨pre, n, hnodes, hg⟩
      · exact hcalls f hf
    · have hleave : P.Arrives criteria ⟨[], P.getExitBB g, ⟨g, post, b⟩ :: stack⟩ :=
        Arrives.step .leave (Nat.le_succ _) harrives
      have := hleave.pass (P.getNodes (P.getExitBB g))
      rwa [List.append_nil] at this
  obtain ⟨p, ⟨c, hc, hroot⟩, hway⟩ := h
  induction hway with
  | refl =>
      rcases hroot with hroot | ⟨n, g, hbefore, hg, rfl⟩
      · obtain ⟨pre, post, hnodes⟩ := List.append_of_mem ((P.mem_nodes c p).2 hroot)
        refine ⟨[], by simp, ?_⟩
        rw [hnodes]
        exact Arrives.pass ⟨c, hc, ⟨c :: post, p, []⟩, ⟨⟨pre, post, rfl, hnodes⟩, by simp⟩, .refl⟩ pre
      · obtain ⟨b, pre, mid, post, hnodes⟩ := append_of_before hbefore
        have harrives : P.Arrives criteria ⟨mid ++ c :: post, b, []⟩ := by
          refine Arrives.pass ⟨c, hc, ⟨c :: post, b, []⟩, ⟨⟨pre ++ n :: mid, post, rfl, ?_⟩, by simp⟩,
            .refl⟩ mid
          rw [hnodes]
          simp
        exact hexit hnodes hg (fun _ hf => absurd hf List.not_mem_nil) harrives
  | @tail cur x _ hstep ih =>
      obtain ⟨stack, hcalls, harrives⟩ := ih
      obtain ⟨pred, hpred, hx⟩ := List.mem_flatMap.1 hstep
      -- the predecessor goes on to the block
      have hgoto : P.Arrives criteria ⟨[], pred, stack⟩ :=
        Arrives.step (.goto ((P.mem_predecessors pred cur).1 hpred)) (le_refl _) harrives
      rcases List.mem_append.1 hx with hx | hx
      · obtain ⟨n, hn, hx⟩ := List.mem_flatMap.1 hx
        obtain ⟨g, hg, rfl⟩ := List.mem_map.1 hx
        obtain ⟨pre, post, hnodes⟩ := List.append_of_mem hn
        have hpost := hgoto.pass post
        rw [List.append_nil] at hpost
        exact hexit hnodes hg hcalls hpost
      · obtain rfl := List.mem_singleton.1 hx
        have hall := hgoto.pass (P.getNodes x)
        rw [List.append_nil] at hall
        exact ⟨stack, hcalls, hall⟩

theorem ascends_of_checked {n : N} (h : P.Checked criteria n) : ∃ c ∈ criteria, P.Ascends n c := by
  rcases h with ⟨c, hc, hbefore⟩ | ⟨cur, hcur, pred, hpred, hn⟩
  · obtain ⟨b, pre, mid, post, hnodes⟩ := append_of_before hbefore
    have hend : (⟨c :: post, b, []⟩ : Config B N G).At P c :=
      ⟨⟨pre ++ n :: mid, post, rfl, by simp [hnodes]⟩, by simp⟩
    obtain ⟨c', hc', y, hy, hway⟩ := Arrives.pass ⟨c, hc, _, hend, .refl⟩ (n :: mid)
    exact ⟨c', hc', _, y, ⟨⟨pre, mid ++ c :: post, rfl, hnodes⟩, by simp⟩, hy, hway⟩
  · obtain ⟨stack, hcalls, harrives⟩ := arrives_of_visited hcur
    obtain ⟨pre, post, hnodes⟩ := List.append_of_mem hn
    have hgoto : P.Arrives criteria ⟨[], pred, stack⟩ :=
      Arrives.step (.goto ((P.mem_predecessors pred cur).1 hpred)) (le_refl _) harrives
    obtain ⟨c, hc, y, hy, hway⟩ := hgoto.pass (n :: post)
    rw [List.append_nil] at hway
    exact ⟨c, hc, ⟨n :: post, pred, stack⟩, y, ⟨⟨pre, post, rfl, hnodes⟩, hcalls⟩, hy, hway⟩

/-- What the search knows of a place: a criterion is still to come in the block, the block leads to a
visited one, or it is an exit block that is visited. -/
def Sees (P : ProgramGraph B N G F) (criteria : Finset N) (rest : List N) (b : B) : Prop :=
  (∃ c ∈ criteria, c ∈ rest ∧ c ∈ P.getNodes b) ∨
  (∃ s, P.Visited criteria s ∧ b ∈ P.predecessors s) ∨
  ∃ g, b = P.getExitBB g ∧ P.Visited criteria b

theorem Sees.cons {n : N} {rest : List N} {b : B} (h : P.Sees criteria rest b) :
    P.Sees criteria (n :: rest) b := by
  rcases h with ⟨c, hc, hrest, hb⟩ | h
  · exact Or.inl ⟨c, hc, List.mem_cons_of_mem _ hrest, hb⟩
  · exact Or.inr h

/-- A node that such a place is behind is looked at, unless it is in an exit block. -/
theorem Sees.checked {pre rest : List N} {n : N} {b : B} (h : P.Sees criteria rest b)
    (hnodes : P.getNodes b = pre ++ n :: rest)
    (hnot : ∀ g, P.getExitBB g = b → False) : P.Checked criteria n := by
  rcases h with ⟨c, hc, hrest, -⟩ | ⟨s, hs, hpred⟩ | ⟨g, hg, -⟩
  · exact Or.inl ⟨c, hc, before_of_append hnodes hrest⟩
  · exact Or.inr ⟨s, hs, b, hpred, by rw [hnodes]; simp⟩
  · exact absurd hg.symm (hnot g)

/-- Where the search sees the beginning of a block, the block is visited. -/
theorem Sees.visited {s : B} (h : P.Sees criteria (P.getNodes s) s) : P.Visited criteria s := by
  rcases h with ⟨c, hc, -, hs⟩ | ⟨t, ht, hpred⟩ | ⟨g, -, hs⟩
  · exact ⟨s, ⟨c, hc, Or.inl ((P.mem_nodes c s).1 hs)⟩, .refl⟩
  · exact ht.pred hpred
  · exact hs

/-- The nodes still to come end their block, and the frames are those of calls. -/
structure WellFormed (P : ProgramGraph B N G F) (x : Config B N G) : Prop where
  suffix : ∃ pre, P.getNodes x.block = pre ++ x.rest
  calls : ∀ f ∈ x.stack, f.IsCall P

omit [DecidableEq N] in
theorem WellFormed.step {x y : Config B N G} (h : P.WellFormed x) (hstep : P.Step x y) :
    P.WellFormed y := by
  obtain ⟨⟨pre, hpre⟩, hcalls⟩ := h
  cases hstep with
  | @next n rest b stack => exact ⟨⟨pre ++ [n], by simpa using hpre⟩, hcalls⟩
  | goto _ => exact ⟨⟨[], rfl⟩, hcalls⟩
  | @enter n rest b stack g hg =>
      refine ⟨⟨[], rfl⟩, fun f hf => ?_⟩
      rcases List.mem_cons.1 hf with rfl | hf
      · exact ⟨pre, n, hpre, hg⟩
      · exact hcalls f hf
  | @leave g rest b stack =>
      obtain ⟨pre', call, hnodes, -⟩ := hcalls _ List.mem_cons_self
      exact ⟨⟨pre' ++ [call], by simpa using hnodes⟩,
        fun f hf => hcalls f (List.mem_cons_of_mem _ hf)⟩

/-- The search sees the place and, above a level, those where the callers go on. -/
def SeesAll (P : ProgramGraph B N G F) (criteria : Finset N) (level : Nat) (x : Config B N G) :
    Prop :=
  P.Sees criteria x.rest x.block ∧
    ∀ f ∈ x.stack.take (x.stack.length - level), P.Sees criteria f.rest f.block

/-- A step backwards. -/
theorem SeesAll.step {level : Nat} {x y : Config B N G} (hx : P.WellFormed x)
    (hstep : P.StepAbove level x y) (h : P.SeesAll criteria level y) :
    P.SeesAll criteria level x := by
  obtain ⟨hstep, hlx, hly⟩ := hstep
  obtain ⟨hplace, hframes⟩ := h
  cases hstep with
  | next => exact ⟨hplace.cons, hframes⟩
  | @goto b s stack hs =>
      exact ⟨Or.inr (Or.inl ⟨s, hplace.visited, (P.mem_predecessors b s).2 hs⟩), hframes⟩
  | @enter n rest b stack g hg =>
      -- the frame of the call is above the level
      have htake : (stack.length + 1 - level) = stack.length - level + 1 := Nat.succ_sub hlx
      rw [List.length_cons, htake, List.take_succ_cons] at hframes
      exact ⟨(hframes _ List.mem_cons_self).cons, fun f hf => hframes f (List.mem_cons_of_mem _ hf)⟩
  | @leave g rest b stack =>
      obtain ⟨pre, call, hnodes, hg⟩ := hx.calls _ List.mem_cons_self
      have hchecked : P.Checked criteria call := by
        refine hplace.checked hnodes fun g' hg' => ?_
        have hmem : call ∈ P.getNodes (P.getExitBB g') := by
          rw [hg']
          show call ∈ P.getNodes b
          simp [show P.getNodes b = pre ++ call :: rest from hnodes]
        have hnone := (P.exit_nodes g' call hmem).2
        rw [hnone] at hg
        simp at hg
      refine ⟨Or.inr (Or.inr ⟨g, rfl, hchecked.exit hg⟩), fun f hf => ?_⟩
      have htake : (stack.length + 1 - level) = stack.length - level + 1 := Nat.succ_sub hly
      rw [List.length_cons, htake, List.take_succ_cons] at hf
      rcases List.mem_cons.1 hf with rfl | hf
      · exact hplace
      · exact hframes f hf

theorem seesAll_of_reaches {c : N} (hc : c ∈ criteria) {x y : Config B N G} (hy : y.At P c)
    (hway : ReflTransGen (P.StepAbove y.stack.length) x y) (hx : P.WellFormed x) :
    P.SeesAll criteria y.stack.length x := by
  induction hway using ReflTransGen.head_induction_on with
  | refl =>
      obtain ⟨pre, rest, hrest, hnodes⟩ := hy.suffix
      refine ⟨Or.inl ⟨c, hc, by simp [hrest], by simp [hnodes]⟩, fun f hf => ?_⟩
      simp at hf
  | head hstep _ ih => exact (ih (hx.step hstep.1)).step hx hstep

/-- A call from which a criterion is reached so is looked at. -/
theorem checked_of_ascends {n c : N} (hc : c ∈ criteria) (h : P.Ascends n c)
    (hcall : P.isCallInst n = true) : n ∈ criteria ∨ P.Checked criteria n := by
  obtain ⟨x, y, hx, hy, hway⟩ := h
  obtain ⟨pre, rest, hrest, hnodes⟩ := hx.suffix
  have hplace := (seesAll_of_reaches hc hy hway ⟨⟨pre, hrest ▸ hnodes⟩, hx.calls⟩).1
  have hnot : ∀ g, P.getExitBB g = x.block → False := by
    intro g hg
    have hmem : n ∈ P.getNodes (P.getExitBB g) := by simp [hg, hnodes]
    exact absurd (hcall.symm.trans (P.exit_nodes g n hmem).1) (by simp)
  rw [hrest] at hplace
  rcases hplace with ⟨c', hc', hmem, hb⟩ | h
  · rcases List.mem_cons.1 hmem with rfl | hmem
    · exact Or.inl hc'
    · exact Or.inr (Sees.checked (Or.inl ⟨c', hc', hmem, hb⟩) hnodes hnot)
  · have hsees : P.Sees criteria rest x.block := Or.inr h
    exact Or.inr (hsees.checked hnodes hnot)

section Main

variable [DecidableEq B] [DecidableEq F]

variable (P) in
/-- What is added to the criteria are the calls that the claim is about. -/
def Complete (names : Names F) (criteria result : Finset N) : Prop :=
  ∀ n, P.MayCall names n → (∃ c ∈ criteria, P.Reaches n c) → n ∈ result

variable (P) in
/-- A call from which a criterion is reached has the name of its first callee, and a criterion is
reached from it without a procedure that is entered and not left. -/
def Fits (names : Names F) (criteria : Finset N) : Prop :=
  ∀ n, n ∉ criteria → P.MayCall names n → (∃ c ∈ criteria, P.Reaches n c) →
    P.IsNamed names n ∧ ∃ c ∈ criteria, P.Ascends n c

omit [DecidableEq N] [DecidableEq B] in
theorem isCallInst_of_isNamed {names : Names F} {n : N} (h : P.IsNamed names n) :
    P.isCallInst n = true := by
  by_contra hnot
  rcases h with h | h <;> rw [isCallTo, if_neg hnot] at h <;> simp at h

/-- **Secondary criteria.** The search ends, with one result however many blocks it may take and in
whatever order the criteria come. It has all calls of the names from which a criterion is reached
exactly when these calls fit. -/
theorem secondaryCriteria_iff [Fintype B] (P : ProgramGraph B N G F) (names : Names F)
    (criteria : Finset N) :
    ∃ result, (∀ (order : Order N) (fuel : Nat), Fintype.card B + criteria.card ≤ fuel →
        P.findSecondarySlicingCriteria names order fuel criteria = some result) ∧
      (P.Complete names criteria result ↔ P.Fits names criteria) := by
  obtain ⟨result, hresult, hmem⟩ := find_spec P names
    ⟨Finset.toList, Finset.nodup_toList, fun _ _ => Finset.mem_toList⟩ criteria
  refine ⟨result, fun order fuel hfuel => ?_, fun h => ?_, fun h => ?_⟩
  · obtain ⟨result', hresult', hmem'⟩ := find_spec P names order criteria
    rw [hresult' fuel hfuel, Option.some_inj]
    ext n
    rw [hmem, hmem']
  · intro n hn hcall hreach
    obtain ⟨hnamed, hchecked⟩ := ((hmem n).1 (h n hcall hreach)).resolve_left hn
    exact ⟨hnamed, ascends_of_checked hchecked⟩
  · intro n hcall hreach
    rw [hmem]
    by_cases hn : n ∈ criteria
    · exact Or.inl hn
    · obtain ⟨hnamed, c, hc, hascends⟩ := h n hn hcall hreach
      exact (checked_of_ascends hc hascends (isCallInst_of_isNamed hnamed)).imp_right
        fun hchecked => ⟨hnamed, hchecked⟩

end Main

/-- The node 0 calls one of two procedures by a pointer, the node 1 comes behind it. -/
def twoCallees : ProgramGraph (Fin 5) (Fin 6) Bool Bool where
  getNodes b := match b with | 0 => [0, 1] | 1 => [2] | 2 => [3] | 3 => [4] | 4 => [5]
  getBBlock n := match n with | 0 => some 0 | 1 => some 0 | 2 => some 1 | 3 => some 2 | 4 => some 3 | 5 => some 4
  successors b := match b with | 1 => [2] | 3 => [4] | _ => []
  predecessors b := match b with | 2 => [1] | 4 => [3] | _ => []
  isCallInst n := n = 0
  calledFunction _ := none
  pointees n := if n = 0 then [false, true] else []
  getSubgraphs n := if n = 0 then [false, true] else []
  function := id
  getEntryBB g := if g then 3 else 1
  getExitBB g := if g then 4 else 2
  nodes_nodup := by decide
  mem_nodes := by decide
  mem_predecessors := by decide
  exit_nodes := by decide

/-- The name of the second procedure. -/
def secondName : Names Bool := ⟨{true}, ∅⟩

theorem secondaryCriteria_missed : ¬ ∀ result,
    twoCallees.findSecondarySlicingCriteria secondName (Order.ascending (Fin 6)) 6 {1} = some result →
    twoCallees.Complete secondName {1} result := by
  intro h
  have hfind : twoCallees.findSecondarySlicingCriteria secondName (Order.ascending (Fin 6)) 6 {1} =
      some {1} := by decide
  have hcall : twoCallees.MayCall secondName 0 := ⟨rfl, true, by decide, by decide⟩
  have hreach : twoCallees.Reaches 0 1 :=
    ⟨⟨[0, 1], 0, []⟩, ⟨[1], 0, []⟩, ⟨⟨[], [1], rfl, rfl⟩, by simp⟩, ⟨⟨[0], [], rfl, rfl⟩, by simp⟩,
      .single .next⟩
  have hmem := h {1} hfind 0 hcall ⟨1, by simp, hreach⟩
  exact absurd hmem (by decide)

end ProgramGraph

end Cape.Slicing.SecondaryCriteria
