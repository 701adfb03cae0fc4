import Cape.Library.FinLiterals
import Cape.Slicing.BlockEdges
import Mathlib.Data.Finset.Max

/-!
# Successors of blocks after slicing

The blocks of a function graph: `build` gives a block an edge for every successor of its terminator,
labelled by their numbers, and a returning block an edge with the label 255 to the unified exit.
`sliceBBlocks` takes the blocks out that are not in the slice, and `adjustBBlocksSucessors` repairs the
labels of those that stay: labels that are missing lead to a new exit block, the safe one, which
replaces the old exit.

`Sliced` is what building and slicing keep, `adjustBlock_spec` what the repair does to one block.
-/

set_option autoImplicit false

namespace Cape.Slicing

open Cape.Library

variable {B : Type} [DecidableEq B]

omit [DecidableEq B] in
/-- The blocks of a function graph: those of the function, its exit, and the exit that the repair
makes. -/
inductive GraphBlock (B : Type) where
  | block (b : B)
  | exitBB
  | safeExit
  deriving DecidableEq

/-- The order of the addresses, the blocks of the function first. -/
abbrev GraphBlock.linearOrder (B : Type) [LinearOrder B] : LinearOrder (GraphBlock B) :=
  LinearOrder.lift'
    (fun x : GraphBlock B => match x with
      | .block b => ((b : WithTop B) : WithTop (WithTop B))
      | .exitBB => ((⊤ : WithTop B) : WithTop (WithTop B))
      | .safeExit => ⊤)
    (by rintro (a | _ | _) (b | _ | _) h <;> simp_all)

omit [DecidableEq B] in
/-- The blocks of a function, with the successors of their terminators and the number of the slice. A
terminator that returns has no successors. -/
structure SlicedFunction (B : Type) where
  blocks : List B
  succs : B → List B
  returns : B → Bool
  noSuccs : ∀ b, returns b = true → succs b = []
  inSlice : B → Bool
  terminatorInSlice : B → Bool

namespace SlicedFunction

variable (F : SlicedFunction B) (orderB : Order (GraphBlock B))
  (order : Order (BBlockEdge (GraphBlock B)))

/-- A returning block leads to the exit. -/
def buildReturn (g : BBlocks (GraphBlock B)) (b : B) : BBlocks (GraphBlock B) :=
  if F.returns b then (g.addSuccessor (.block b) ⟨.exitBB, 255⟩).1 else g

/-- The edges to the successors; aborts at the successor 255. -/
def buildEdges (g : BBlocks (GraphBlock B)) (b : B) : Option (BBlocks (GraphBlock B)) :=
  (F.succs b).zipIdx.foldlM
    (fun g s =>
      if 255 ≤ s.2 then none
      else some (g.addSuccessor (.block b) ⟨.block s.1, Fin.ofNat 256 s.2⟩).1) g

/-- `build`, the edges. -/
def build : Option (BBlocks (GraphBlock B)) :=
  F.blocks.foldlM F.buildEdges (F.blocks.foldl F.buildReturn BBlocks.empty)

/-- The blocks that are not in the slice. -/
def toRemove : Finset (GraphBlock B) :=
  ((F.blocks.filter fun b => !F.inSlice b).map GraphBlock.block).toFinset

/-- `sliceBBlocks`: the blocks that are not in the slice are removed. -/
def sliceBBlocks (g : BBlocks (GraphBlock B)) : BBlocks (GraphBlock B) :=
  (orderB.toList F.toRemove).foldl (fun g b => g.isolate orderB order b) g

end SlicedFunction

/-- `successorsAreSame` -/
def successorsAreSame (next : Finset (BBlockEdge (GraphBlock B))) : Prop :=
  ∀ e ∈ next, ∀ e' ∈ next, e.target = e'.target

instance (next : Finset (BBlockEdge (GraphBlock B))) : Decidable (successorsAreSame next) :=
  inferInstanceAs (Decidable (∀ e ∈ next, ∀ e' ∈ next, e.target = e'.target))

/-- The edges, and whether there is a new exit block. -/
structure Adjusted (B : Type) where
  graph : BBlocks (GraphBlock B)
  newExitBB : Bool

namespace SlicedFunction

variable (F : SlicedFunction B) (order : Order (BBlockEdge (GraphBlock B)))

/-- A block with two successors and a terminator that goes away: its self-loop goes away. -/
def dropSelfLoop (g : BBlocks (GraphBlock B)) (b : B) : BBlocks (GraphBlock B) :=
  if (g.nextBBs (.block b)).card = 2 ∧ F.terminatorInSlice b = false ∧
      ¬ successorsAreSame (g.nextBBs (.block b)) then
    (g.removeSuccessorsTarget (.block b) (.block b)).1
  else g

/-- The only edge of a block gets the label 0, and leads to the new exit in place of the old one. -/
def relabel (s : Adjusted B) (b : B) : Adjusted B :=
  match order.toList (s.graph.nextBBs (.block b)) with
  | [] => s
  | edge :: _ =>
      let target := if edge.target = .exitBB then .safeExit else edge.target
      ⟨((s.graph.removeSuccessors (.block b)).addSuccessor (.block b) ⟨target, 0⟩).1,
        s.newExitBB || decide (edge.target = .exitBB)⟩

omit [DecidableEq B] in
/-- An edge whose label is kept. -/
def Keeps (e : BBlockEdge (GraphBlock B)) : Prop := e.label ≠ 255 ∧ e.target ≠ .exitBB

instance (e : BBlockEdge (GraphBlock B)) : Decidable (Keeps e) := by
  rw [Keeps]
  infer_instance

/-- The labels that are missing. -/
def missing (g : BBlocks (GraphBlock B)) (b : B) : List Label :=
  let labels := ((g.nextBBs (.block b)).filter Keeps).image BBlockEdge.label
  ((List.range (F.succs b).length).map (Fin.ofNat 256)).filter (· ∉ labels)

/-- The missing labels lead to the new exit, and nothing leads to the old one. -/
def fillLabels (s : Adjusted B) (b : B) : Adjusted B :=
  let missing := F.missing s.graph b
  let g := missing.foldl (fun g i => (g.addSuccessor (.block b) ⟨.safeExit, i⟩).1) s.graph
  let newExitBB := s.newExitBB || !missing.isEmpty
  ⟨if newExitBB then (g.removeSuccessorsTarget (.block b) .exitBB).1 else g, newExitBB⟩

/-- Several edges to one block become one with the label 0. -/
def mergeEdges (g : BBlocks (GraphBlock B)) (b : B) : BBlocks (GraphBlock B) :=
  if 1 < (g.nextBBs (.block b)).card ∧ successorsAreSame (g.nextBBs (.block b)) then
    match order.toList (g.nextBBs (.block b)) with
    | [] => g
    | edge :: _ => ((g.removeSuccessors (.block b)).addSuccessor (.block b) ⟨edge.target, 0⟩).1
  else g

/-- `adjustBBlocksSucessors`, for one block. -/
def adjustBlock (s : Adjusted B) (b : B) : Adjusted B :=
  if (s.graph.nextBBs (.block b)).card = 0 then s
  else
    let s : Adjusted B := { s with graph := F.dropSelfLoop s.graph b }
    if (s.graph.nextBBs (.block b)).card = 1 ∧ F.terminatorInSlice b = false then
      relabel order s b
    else
      let s := F.fillLabels s b
      { s with graph := mergeEdges order s.graph b }

/-- `adjustBBlocksSucessors`, for the blocks that are left in the order of the map. -/
def adjustBBlocksSucessors (orderM : Order B) (g : BBlocks (GraphBlock B)) : Adjusted B :=
  (orderM.toList (F.blocks.filter F.inSlice).toFinset).foldl (F.adjustBlock order) ⟨g, false⟩

end SlicedFunction

/-! ## Building and slicing -/

namespace SlicedFunction

variable {F : SlicedFunction B}

/-- What building and slicing keep: the labels of a block number successors of its terminator, and a
returning block leads to the exit only. -/
structure Sliced (F : SlicedFunction B) (g : BBlocks (GraphBlock B)) : Prop where
  consistent : g.Consistent
  returns : ∀ {b e}, F.returns b = true → e ∈ g.nextBBs (.block b) → e = ⟨.exitBB, 255⟩
  labels : ∀ {b e}, F.returns b = false → e ∈ g.nextBBs (.block b) →
    e.label.val < (F.succs b).length ∧ e.label.val < 255
  targets : ∀ {x e}, e ∈ g.nextBBs x → e.target ≠ .safeExit

omit [DecidableEq B] in
theorem sliced_empty : Sliced F BBlocks.empty where
  consistent := BBlocks.consistent_empty
  returns _ h := absurd h (Finset.notMem_empty _)
  labels _ h := absurd h (Finset.notMem_empty _)
  targets h := absurd h (Finset.notMem_empty _)

theorem Sliced.buildReturn {g : BBlocks (GraphBlock B)} (hg : Sliced F g) (b : B) :
    Sliced F (F.buildReturn g b) := by
  rw [SlicedFunction.buildReturn]
  split
  · next hreturns =>
      refine ⟨hg.consistent.addSuccessor _ _, fun {b' e} hb' he => ?_, fun {b' e} hb' he => ?_,
        fun {x e} he => ?_⟩
      · rcases BBlocks.mem_nextBBs_addSuccessor.1 he with he | ⟨-, rfl⟩
        · exact hg.returns hb' he
        · rfl
      · rcases BBlocks.mem_nextBBs_addSuccessor.1 he with he | ⟨hx, -⟩
        · exact hg.labels hb' he
        · obtain rfl := GraphBlock.block.inj hx
          exact absurd hreturns (by simp [hb'])
      · rcases BBlocks.mem_nextBBs_addSuccessor.1 he with he | ⟨-, rfl⟩
        · exact hg.targets he
        · simp
  · exact hg

theorem Sliced.buildEdges {g g' : BBlocks (GraphBlock B)} (hg : Sliced F g) {b : B}
    (h : F.buildEdges g b = some g') : Sliced F g' := by
  refine FallibleLoop.keeps (fun p hp g g' hg hstep => ?_) hg h
  split at hstep
  · exact absurd hstep (by simp)
  · next hlt =>
      obtain rfl := Option.some.inj hstep
      have hindex : p.2 < (F.succs b).length := (List.mem_zipIdx' hp).1
      have hval : (Fin.ofNat 256 p.2).val = p.2 := Nat.mod_eq_of_lt (by omega)
      refine ⟨hg.consistent.addSuccessor _ _, fun {b' e} hb' he => ?_, fun {b' e} hb' he => ?_,
        fun {x e} he => ?_⟩
      · -- a block that returns has no successor to be gone through
        rcases BBlocks.mem_nextBBs_addSuccessor.1 he with he | ⟨hx, -⟩
        · exact hg.returns hb' he
        · obtain rfl := GraphBlock.block.inj hx
          rw [F.noSuccs b' hb'] at hindex
          exact absurd hindex (Nat.not_lt_zero _)
      · rcases BBlocks.mem_nextBBs_addSuccessor.1 he with he | ⟨hx, rfl⟩
        · exact hg.labels hb' he
        · obtain rfl := GraphBlock.block.inj hx
          dsimp only
          rw [hval]
          exact ⟨hindex, by omega⟩
      · rcases BBlocks.mem_nextBBs_addSuccessor.1 he with he | ⟨-, rfl⟩
        · exact hg.targets he
        · simp

theorem sliced_build {g : BBlocks (GraphBlock B)} (h : F.build = some g) : Sliced F g := by
  refine FallibleLoop.keeps (fun b _ g g' hg hstep => hg.buildEdges hstep) ?_ h
  refine FallibleLoop.prefix_induction_foldl (I := fun _ g => Sliced F g) ?_ sliced_empty
  exact fun _ b _ _ g hg => hg.buildReturn b

theorem Sliced.isolate {g : BBlocks (GraphBlock B)} (hg : Sliced F g)
    (orderB : Order (GraphBlock B)) (order : Order (BBlockEdge (GraphBlock B))) (c : B) :
    Sliced F (g.isolate orderB order (.block c)) := by
  refine ⟨hg.consistent.isolate orderB order _, fun {b e} hb he => ?_, fun {b e} hb he => ?_,
    fun {y e} he => ?_⟩
  · obtain ⟨-, htarget, he | ⟨he, -⟩⟩ := (BBlocks.mem_nextBBs_isolate hg.consistent).1 he
    · exact hg.returns hb he
    · -- a returning block has no edge to the one taken out
      exact absurd (congrArg BBlockEdge.target (hg.returns hb he)) (by simp)
  · obtain ⟨-, -, he | ⟨he, -⟩⟩ := (BBlocks.mem_nextBBs_isolate hg.consistent).1 he
    · exact hg.labels hb he
    · exact hg.labels (e := ⟨.block c, e.label⟩) hb he
  · obtain ⟨-, -, he | ⟨-, l, he⟩⟩ := (BBlocks.mem_nextBBs_isolate hg.consistent).1 he
    · exact hg.targets he
    · exact hg.targets (e := ⟨e.target, l⟩) he

theorem sliced_sliceBBlocks {g : BBlocks (GraphBlock B)} (hg : Sliced F g)
    (orderB : Order (GraphBlock B)) (order : Order (BBlockEdge (GraphBlock B))) :
    Sliced F (F.sliceBBlocks orderB order g) := by
  have hblocks : ∀ x ∈ orderB.toList F.toRemove, ∃ c, x = GraphBlock.block c := by
    intro x hx
    rw [orderB.mem_toList, toRemove, List.mem_toFinset, List.mem_map] at hx
    obtain ⟨c, -, rfl⟩ := hx
    exact ⟨c, rfl⟩
  refine FallibleLoop.prefix_induction_foldl (I := fun _ g => Sliced F g) ?_ hg
  intro l₁ x l₂ hl g hg
  obtain ⟨c, rfl⟩ := hblocks x (hl ▸ List.mem_append_right l₁ List.mem_cons_self)
  exact hg.isolate orderB order c

end SlicedFunction

/-! ## The repair of one block -/

/-- No label has two targets. -/
def OneTarget (next : Finset (BBlockEdge (GraphBlock B))) : Prop :=
  ∀ e ∈ next, ∀ e' ∈ next, e.label = e'.label → e.target = e'.target

instance (next : Finset (BBlockEdge (GraphBlock B))) : Decidable (OneTarget next) :=
  inferInstanceAs (Decidable (∀ e ∈ next, ∀ e' ∈ next, e.label = e'.label → e.target = e'.target))

/-- The edges of a block before and after the repair. -/
structure Repaired (F : SlicedFunction B) (b : B)
    (before after : Finset (BBlockEdge (GraphBlock B))) : Prop where
  labels : ∃ k ≤ 255, ∀ l : Label, l ≠ 255 → ((∃ t, ⟨t, l⟩ ∈ after) ↔ l.val < k)
  oneTarget : OneTarget after
  noOldExit : (∃ l, ⟨.safeExit, l⟩ ∈ after) → ∀ l, ⟨.exitBB, l⟩ ∉ after
  keeps : F.terminatorInSlice b = true → ¬ (successorsAreSame before ∧ successorsAreSame after) →
    ∀ e ∈ before, SlicedFunction.Keeps e → e ∈ after
  fills : F.terminatorInSlice b = true → ¬ (successorsAreSame before ∧ successorsAreSame after) →
    ∀ l : Label, l.val < (F.succs b).length →
      (¬ ∃ e ∈ before, SlicedFunction.Keeps e ∧ e.label = l) → ⟨.safeExit, l⟩ ∈ after

namespace SlicedFunction

variable {F : SlicedFunction B} {order : Order (BBlockEdge (GraphBlock B))}

omit [DecidableEq B] in
/-- A single edge with the label 0. -/
theorem repaired_single (F : SlicedFunction B) (b : B)
    {before : Finset (BBlockEdge (GraphBlock B))} (t : GraphBlock B)
    (hsame : F.terminatorInSlice b = true → successorsAreSame before) :
    Repaired F b before {⟨t, 0⟩} := by
  have hafter : successorsAreSame ({⟨t, 0⟩} : Finset (BBlockEdge (GraphBlock B))) := by
    simp [successorsAreSame]
  refine ⟨⟨1, by omega, fun l hl => ?_⟩, by simp [OneTarget], ?_, ?_, ?_⟩
  · simp only [Finset.mem_singleton, BBlockEdge.mk.injEq, exists_eq_left]
    rw [Nat.lt_one_iff]
    exact ⟨fun h => by rw [h]; rfl, fun h => Fin.ext h⟩
  · rintro ⟨l, hl⟩ l' hl'
    rw [Finset.mem_singleton, BBlockEdge.mk.injEq] at hl hl'
    exact absurd (hl.1.trans hl'.1.symm) (by simp)
  · exact fun hin h => absurd ⟨hsame hin, hafter⟩ h
  · exact fun hin h => absurd ⟨hsame hin, hafter⟩ h

theorem nextBBs_dropSelfLoop (g : BBlocks (GraphBlock B)) (b : B) :
    (∀ e ∈ (F.dropSelfLoop g b).nextBBs (.block b), e ∈ g.nextBBs (.block b)) ∧
    (F.terminatorInSlice b = true → F.dropSelfLoop g b = g) ∧
    ∀ x, x ≠ .block b → (F.dropSelfLoop g b).nextBBs x = g.nextBBs x := by
  rw [dropSelfLoop]
  split
  · next h =>
      refine ⟨fun e he => ?_, fun hin => ?_, fun x hx => ?_⟩
      · simp only [BBlocks.removeSuccessorsTarget, BBlocks.nextBBs_setNext, if_true,
          Finset.mem_filter] at he
        exact he.1
      · exact absurd (h.2.1.symm.trans hin) (by simp)
      · simp [BBlocks.removeSuccessorsTarget, hx]
  · exact ⟨fun e he => he, fun _ => rfl, fun _ _ => rfl⟩

/-- The edges of a block are replaced by one. -/
theorem nextBBs_replace (g : BBlocks (GraphBlock B)) (b : B) (e : BBlockEdge (GraphBlock B))
    (x : GraphBlock B) :
    ((g.removeSuccessors (.block b)).addSuccessor (.block b) e).1.nextBBs x =
      if x = .block b then {e} else g.nextBBs x := by
  by_cases hx : x = .block b
  · simp [BBlocks.addSuccessor, BBlocks.removeSuccessors, hx]
  · simp [BBlocks.addSuccessor, BBlocks.removeSuccessors, hx]

theorem mem_missing {g : BBlocks (GraphBlock B)} {b : B} (hn : (F.succs b).length ≤ 255)
    {l : Label} :
    l ∈ F.missing g b ↔ l.val < (F.succs b).length ∧
      ¬ ∃ e ∈ g.nextBBs (.block b), Keeps e ∧ e.label = l := by
  simp only [missing, List.mem_filter, List.mem_map, List.mem_range, decide_eq_true_eq,
    Finset.mem_image, Finset.mem_filter, and_assoc]
  refine and_congr_left fun _ => ⟨?_, fun h => ⟨l.val, h, Fin.ofNat_val_eq_self l⟩⟩
  rintro ⟨i, hi, rfl⟩
  rwa [show (Fin.ofNat 256 i).val = i from Nat.mod_eq_of_lt (by omega)]

/-- The edges of a block whose labels are filled up. -/
theorem mem_nextBBs_fillLabels {s : Adjusted B} {b : B} {x : GraphBlock B}
    {e : BBlockEdge (GraphBlock B)} :
    e ∈ (F.fillLabels s b).graph.nextBBs x ↔
      if x = .block b then
        (e ∈ s.graph.nextBBs x ∨ e.target = .safeExit ∧ e.label ∈ F.missing s.graph b) ∧
          ((F.fillLabels s b).newExitBB = true → e.target ≠ .exitBB)
      else e ∈ s.graph.nextBBs x := by
  have hadd : ∀ (l : List Label) (g : BBlocks (GraphBlock B)) (x : GraphBlock B),
      e ∈ (l.foldl (fun g i => (g.addSuccessor (.block b) ⟨.safeExit, i⟩).1) g).nextBBs x ↔
        e ∈ g.nextBBs x ∨ x = .block b ∧ e.target = .safeExit ∧ e.label ∈ l := by
    intro l
    induction l with
    | nil => simp
    | cons i l ih =>
        intro g x
        rw [List.foldl_cons, ih, BBlocks.mem_nextBBs_addSuccessor, List.mem_cons]
        cases e
        simp only [BBlockEdge.mk.injEq]
        tauto
  rw [fillLabels]
  dsimp only
  cases hnew : (s.newExitBB || !(F.missing s.graph b).isEmpty) with
  | true =>
      by_cases hx : x = .block b
      · simp [BBlocks.removeSuccessorsTarget, hadd, hx]
      · simp [BBlocks.removeSuccessorsTarget, hadd, hx]
  | false =>
      by_cases hx : x = .block b
      · simp [hadd, hx]
      · simp [hadd, hx]

/-- What is asked of the edges of a block before the repair. -/
structure Repairable (F : SlicedFunction B) (b : B) (next : Finset (BBlockEdge (GraphBlock B))) :
    Prop where
  few : (F.succs b).length ≤ 255
  returns : ∀ {e}, F.returns b = true → e ∈ next → e = ⟨.exitBB, 255⟩
  labels : ∀ {e}, F.returns b = false → e ∈ next → e.label.val < (F.succs b).length ∧
    e.label.val < 255
  targets : ∀ {e}, e ∈ next → e.target ≠ .safeExit
  oneTarget : OneTarget next

omit [DecidableEq B] in
theorem Repairable.subset {b : B} {next next' : Finset (BBlockEdge (GraphBlock B))}
    (h : Repairable F b next) (hsub : ∀ e ∈ next', e ∈ next) : Repairable F b next' where
  few := h.few
  returns hb he := h.returns hb (hsub _ he)
  labels hb he := h.labels hb (hsub _ he)
  targets he := h.targets (hsub _ he)
  oneTarget e he e' he' := h.oneTarget e (hsub e he) e' (hsub e' he')

/-- The edges after the labels were filled up: the kept ones, and an edge to the safe exit for every
missing label. -/
theorem fillLabels_spec {s : Adjusted B} {b : B} (h : Repairable F b (s.graph.nextBBs (.block b)))
    (hreturns : F.returns b = false) (e : BBlockEdge (GraphBlock B)) :
    e ∈ (F.fillLabels s b).graph.nextBBs (.block b) ↔
      e ∈ s.graph.nextBBs (.block b) ∧ Keeps e ∨
      e.target = .safeExit ∧ e.label.val < (F.succs b).length ∧
        ¬ ∃ e' ∈ s.graph.nextBBs (.block b), Keeps e' ∧ e'.label = e.label := by
  rw [mem_nextBBs_fillLabels, if_pos rfl, mem_missing h.few]
  constructor
  · rintro ⟨he | he, hnew⟩
    · -- an edge to the old exit has a missing label
      refine Or.inl ⟨he, fun hl => ?_, fun hexit => ?_⟩
      · have hlt := (h.labels hreturns he).2
        rw [hl] at hlt
        exact absurd hlt (by decide)
      · have hmissing : e.label ∈ F.missing s.graph b := by
          refine (mem_missing h.few).2 ⟨(h.labels hreturns he).1, ?_⟩
          rintro ⟨e', he', hkeeps, hlabel⟩
          exact hkeeps.2 ((h.oneTarget e' he' e he hlabel).trans hexit)
        refine hnew ?_ hexit
        rw [fillLabels]
        dsimp only
        rw [Bool.or_eq_true]
        refine Or.inr ?_
        simp [List.ne_nil_of_mem hmissing]
    · exact Or.inr he
  · rintro (⟨he, hkeeps⟩ | he)
    · exact ⟨Or.inl he, fun _ => hkeeps.2⟩
    · exact ⟨Or.inr he, fun _ => by rw [he.1]; simp⟩

theorem repaired_fillLabels {s : Adjusted B} {b : B}
    {before : Finset (BBlockEdge (GraphBlock B))}
    (hbefore : F.terminatorInSlice b = true → before = s.graph.nextBBs (.block b))
    (h : Repairable F b (s.graph.nextBBs (.block b))) (hreturns : F.returns b = false) :
    Repaired F b before ((F.fillLabels s b).graph.nextBBs (.block b)) := by
  have hspec := fillLabels_spec h hreturns
  have hkept : ∀ {e}, e ∈ s.graph.nextBBs (.block b) → Keeps e →
      e ∈ (F.fillLabels s b).graph.nextBBs (.block b) := fun he hkeeps =>
    (hspec _).2 (Or.inl ⟨he, hkeeps⟩)
  refine ⟨⟨(F.succs b).length, h.few, fun l _ => ⟨?_, fun hl => ?_⟩⟩, ?_, ?_, ?_, ?_⟩
  · rintro ⟨t, ht⟩
    rcases (hspec _).1 ht with ⟨he, -⟩ | ⟨-, hlt, -⟩
    · exact (h.labels hreturns he).1
    · exact hlt
  · -- the label has a kept edge, or it is missing
    by_cases hkeeps : ∃ e ∈ s.graph.nextBBs (.block b), Keeps e ∧ e.label = l
    · obtain ⟨e, he, hkeeps, rfl⟩ := hkeeps
      exact ⟨e.target, hkept he hkeeps⟩
    · exact ⟨.safeExit, (hspec _).2 (Or.inr ⟨rfl, hl, hkeeps⟩)⟩
  · intro e he e' he' hlabel
    rcases (hspec e).1 he with ⟨he, hkeeps⟩ | ⟨ht, -, hno⟩
    · rcases (hspec e').1 he' with ⟨he', -⟩ | ⟨-, -, hno'⟩
      · exact h.oneTarget e he e' he' hlabel
      · exact absurd ⟨e, he, hkeeps, hlabel⟩ hno'
    · rcases (hspec e').1 he' with ⟨he', hkeeps'⟩ | ⟨ht', -, -⟩
      · exact absurd ⟨e', he', hkeeps', hlabel.symm⟩ hno
      · rw [ht, ht']
  · rintro - l hl
    rcases (hspec _).1 hl with ⟨-, hkeeps⟩ | ⟨ht, -⟩
    · exact hkeeps.2 rfl
    · exact absurd ht (by simp)
  · intro hin _ e he hkeeps
    rw [hbefore hin] at he
    exact hkept he hkeeps
  · intro hin _ l hl hno
    rw [hbefore hin] at hno
    exact (hspec _).2 (Or.inr ⟨rfl, hl, hno⟩)

/-- When the filled edges lead to one block, so did the edges before. -/
theorem same_of_fillLabels {s : Adjusted B} {b : B}
    (h : Repairable F b (s.graph.nextBBs (.block b))) (hreturns : F.returns b = false)
    (hsame : successorsAreSame ((F.fillLabels s b).graph.nextBBs (.block b))) :
    successorsAreSame (s.graph.nextBBs (.block b)) := by
  have hspec := fillLabels_spec h hreturns
  -- every edge has one under its label afterwards, to the safe exit where it led to the old one
  have hlabel : ∀ e ∈ s.graph.nextBBs (.block b),
      ∃ e' ∈ (F.fillLabels s b).graph.nextBBs (.block b),
        e'.target = if e.target = .exitBB then .safeExit else e.target := by
    intro e he
    have hl := h.labels hreturns he
    split
    · next hexit =>
        refine ⟨⟨.safeExit, e.label⟩, (hspec _).2 (Or.inr ⟨rfl, hl.1, ?_⟩), rfl⟩
        rintro ⟨e', he', hkeeps, hlabel⟩
        exact hkeeps.2 ((h.oneTarget e' he' e he hlabel).trans hexit)
    · next hexit =>
        refine ⟨e, (hspec _).2 (Or.inl ⟨he, fun heq => ?_, hexit⟩), rfl⟩
        rw [heq] at hl
        exact absurd hl.2 (by decide)
  intro e he e' he'
  obtain ⟨e₁, he₁, ht⟩ := hlabel e he
  obtain ⟨e₁', he₁', ht'⟩ := hlabel e' he'
  have heq := hsame e₁ he₁ e₁' he₁'
  rw [ht, ht'] at heq
  split at heq
  · next hexit =>
      split at heq
      · next hexit' => rw [hexit, hexit']
      · exact absurd heq.symm (h.targets he')
  · split at heq
    · exact absurd heq (h.targets he)
    · exact heq

variable (order) in
/-- The merge of several edges to one block. -/
theorem repaired_mergeEdges {g : BBlocks (GraphBlock B)} {b : B}
    {before : Finset (BBlockEdge (GraphBlock B))}
    (h : Repaired F b before (g.nextBBs (.block b)))
    (hsame : F.terminatorInSlice b = true → successorsAreSame (g.nextBBs (.block b)) →
      successorsAreSame before) :
    Repaired F b before ((mergeEdges order g b).nextBBs (.block b)) ∧
    ∀ x, x ≠ .block b → (mergeEdges order g b).nextBBs x = g.nextBBs x := by
  rw [mergeEdges]
  split
  · next hmerge =>
      cases hl : order.toList (g.nextBBs (.block b)) with
      | nil => exact ⟨h, fun _ _ => rfl⟩
      | cons e l =>
          dsimp only
          refine ⟨?_, fun x hx => by rw [nextBBs_replace, if_neg hx]⟩
          rw [nextBBs_replace, if_pos rfl]
          exact repaired_single F b e.target fun hin => hsame hin hmerge.2
  · exact ⟨h, fun _ _ => rfl⟩

omit [DecidableEq B] in
/-- A block that returns keeps its edge to the old exit or loses it. -/
theorem repaired_returns {b : B} {before after : Finset (BBlockEdge (GraphBlock B))}
    (hafter : ∀ e ∈ after, e = ⟨.exitBB, 255⟩)
    (hbefore : ∀ e ∈ before, e = ⟨.exitBB, 255⟩) : Repaired F b before after := by
  have hsame : ∀ {next : Finset (BBlockEdge (GraphBlock B))},
      (∀ e ∈ next, e = ⟨.exitBB, 255⟩) → successorsAreSame next := fun h e he e' he' => by
    rw [h e he, h e' he']
  refine ⟨⟨0, by omega, fun l hl => ?_⟩, fun e he e' he' _ => hsame hafter e he e' he', ?_, ?_, ?_⟩
  · refine iff_of_false ?_ (Nat.not_lt_zero _)
    rintro ⟨t, ht⟩
    exact hl (congrArg BBlockEdge.label (hafter _ ht))
  · rintro ⟨l, hl⟩
    exact absurd (congrArg BBlockEdge.target (hafter _ hl)) (by simp)
  · exact fun _ h => absurd ⟨hsame hbefore, hsame hafter⟩ h
  · exact fun _ h => absurd ⟨hsame hbefore, hsame hafter⟩ h

theorem nextBBs_relabel (order : Order (BBlockEdge (GraphBlock B))) (s : Adjusted B) (b : B) :
    (∃ t, (relabel order s b).graph.nextBBs (.block b) = {⟨t, 0⟩} ∨
      s.graph.nextBBs (.block b) = ∅) ∧
    ∀ x, x ≠ .block b → (relabel order s b).graph.nextBBs x = s.graph.nextBBs x := by
  rw [relabel]
  cases hl : order.toList (s.graph.nextBBs (.block b)) with
  | nil =>
      refine ⟨⟨.exitBB, Or.inr (Finset.eq_empty_of_forall_notMem fun e he => ?_)⟩, fun _ _ => rfl⟩
      rw [← order.mem_toList, hl] at he
      exact List.not_mem_nil he
  | cons e l =>
      dsimp only
      refine ⟨⟨if e.target = .exitBB then .safeExit else e.target, Or.inl ?_⟩,
        fun x hx => by rw [nextBBs_replace, if_neg hx]⟩
      rw [nextBBs_replace, if_pos rfl]

/-- **The repair of one block.** -/
theorem adjustBlock_spec (order : Order (BBlockEdge (GraphBlock B))) {s : Adjusted B} {b : B}
    (h : Repairable F b (s.graph.nextBBs (.block b))) :
    Repaired F b (s.graph.nextBBs (.block b))
      ((F.adjustBlock order s b).graph.nextBBs (.block b)) ∧
    ∀ x, x ≠ .block b → (F.adjustBlock order s b).graph.nextBBs x = s.graph.nextBBs x := by
  obtain ⟨hsub, hin, hother⟩ := nextBBs_dropSelfLoop (F := F) s.graph b
  have h' : Repairable F b ((F.dropSelfLoop s.graph b).nextBBs (.block b)) := h.subset hsub
  rw [adjustBlock]
  split
  · next hempty =>
      rw [Finset.card_eq_zero] at hempty
      refine ⟨repaired_returns ?_ ?_, fun _ _ => rfl⟩
      · simp [hempty]
      · simp [hempty]
  · dsimp only
    split
    · next hone =>
        -- an unconditional jump
        obtain ⟨⟨t, ht | hempty⟩, hframe⟩ :=
          nextBBs_relabel order { s with graph := F.dropSelfLoop s.graph b } b
        · rw [ht]
          refine ⟨repaired_single F b t fun hin => ?_, fun x hx => (hframe x hx).trans (hother x hx)⟩
          exact absurd (hin.symm.trans hone.2) (by simp)
        · rw [hempty] at hone
          exact absurd hone.1 (by simp)
    · have hframe : ∀ x, x ≠ .block b →
          (F.fillLabels { s with graph := F.dropSelfLoop s.graph b } b).graph.nextBBs x =
            s.graph.nextBBs x := by
        intro x hx
        ext e
        rw [mem_nextBBs_fillLabels, if_neg hx, hother x hx]
      have hbefore : F.terminatorInSlice b = true →
          s.graph.nextBBs (.block b) = (F.dropSelfLoop s.graph b).nextBBs (.block b) := fun h => by
        rw [hin h]
      cases hreturns : F.returns b with
      | true =>
          have hbefore' : ∀ e ∈ s.graph.nextBBs (.block b), e = ⟨.exitBB, 255⟩ := fun e he =>
            h.returns hreturns he
          have hfilled : ∀ e ∈ (F.fillLabels { s with graph := F.dropSelfLoop s.graph b } b).graph.nextBBs
              (.block b), e = ⟨.exitBB, 255⟩ := by
            intro e he
            rw [mem_nextBBs_fillLabels, if_pos rfl, mem_missing h.few, F.noSuccs b hreturns] at he
            rcases he with ⟨he | ⟨-, hlt, -⟩, -⟩
            · exact hbefore' e (hsub e he)
            · exact absurd hlt (Nat.not_lt_zero _)
          obtain ⟨hrepaired, hmerged⟩ := repaired_mergeEdges order
            (repaired_returns (F := F) (b := b) hfilled hbefore')
            fun _ _ e he e' he' => by rw [hbefore' e he, hbefore' e' he']
          exact ⟨hrepaired, fun x hx => (hmerged x hx).trans (hframe x hx)⟩
      | false =>
          have hfilled := repaired_fillLabels (s := { s with graph := F.dropSelfLoop s.graph b })
            hbefore h' hreturns
          obtain ⟨hrepaired, hmerged⟩ := repaired_mergeEdges order hfilled
            fun hin' hsame => by
              rw [hbefore hin']
              exact same_of_fillLabels h' hreturns hsame
          exact ⟨hrepaired, fun x hx => (hmerged x hx).trans (hframe x hx)⟩

end SlicedFunction

/-! ## The repair of a function graph -/

namespace SlicedFunction

/-- What is built has at most 255 successors for every block. -/
theorem few_of_build {F : SlicedFunction B} {g : BBlocks (GraphBlock B)} (h : F.build = some g) :
    ∀ b ∈ F.blocks, (F.succs b).length ≤ 255 := by
  refine FallibleLoop.each_step (fun b _ g g' hstep => ?_) h
  have hindex : ∀ p ∈ (F.succs b).zipIdx, p.2 < 255 := by
    refine FallibleLoop.each_step (fun p _ g g' hp => ?_) hstep
    split at hp
    · exact absurd hp (by simp)
    · next hlt => omega
  by_contra hmany
  have hlt : 255 < (F.succs b).length := by omega
  have hmem : ((F.succs b)[255], 255) ∈ (F.succs b).zipIdx :=
    List.mem_zipIdx_iff_getElem?.2 (List.getElem?_eq_getElem hlt)
  exact absurd (hindex _ hmem) (by simp)

/-- The blocks are repaired one after the other. -/
theorem adjustBlocks_spec {F : SlicedFunction B} (order : Order (BBlockEdge (GraphBlock B)))
    {g : BBlocks (GraphBlock B)} {l : List B} (hl : l.Nodup)
    (h : ∀ b ∈ l, Repairable F b (g.nextBBs (.block b))) :
    ∀ b ∈ l, Repaired F b (g.nextBBs (.block b))
      ((l.foldl (F.adjustBlock order) ⟨g, false⟩).graph.nextBBs (.block b)) := by
  -- the blocks done are repaired, and the others are as they were
  have hdone := FallibleLoop.prefix_induction_foldl (g := F.adjustBlock order) (l := l)
    (s := ⟨g, false⟩) (I := fun done s =>
      (∀ b ∈ done, Repaired F b (g.nextBBs (.block b)) (s.graph.nextBBs (.block b))) ∧
      ∀ b, b ∉ done → s.graph.nextBBs (.block b) = g.nextBBs (.block b)) ?_ ⟨by simp, by simp⟩
  · exact hdone.1
  · rintro l₁ a l₂ rfl s ⟨hrepaired, hrest⟩
    have ha : a ∉ l₁ := fun ha => (List.nodup_append.1 hl).2.2 a ha a List.mem_cons_self rfl
    have hbefore := hrest a ha
    have hrepairable := h a (List.mem_append_right l₁ List.mem_cons_self)
    rw [← hbefore] at hrepairable
    obtain ⟨hblock, hframe⟩ := adjustBlock_spec order hrepairable
    constructor
    · intro b hb
      rcases List.mem_append.1 hb with hb | hb
      · rw [hframe]
        · exact hrepaired b hb
        · exact fun heq => ha (GraphBlock.block.inj heq ▸ hb)
      · obtain rfl := List.mem_singleton.1 hb
        rw [hbefore] at hblock
        exact hblock
    · intro b hb
      rw [List.mem_append, List.mem_singleton, not_or] at hb
      rw [hframe _ fun heq => hb.2 (GraphBlock.block.inj heq)]
      exact hrest b hb.1

/-- A branch of which one side returns outside of the slice. -/
def branchFunction : SlicedFunction (Fin 3) where
  blocks := [0, 1, 2]
  succs b := if b = 0 then [1, 2] else []
  returns b := decide (b ≠ 0)
  noSuccs := by decide
  inSlice b := decide (b ≠ 2)
  terminatorInSlice b := decide (b ≠ 2)

def branchBlocks : Order (GraphBlock (Fin 3)) :=
  @Order.ascending _ (GraphBlock.linearOrder (Fin 3))

def branchEdges : Order (BBlockEdge (GraphBlock (Fin 3))) :=
  @Order.ascending _ (@BBlockEdge.linearOrder _ (GraphBlock.linearOrder (Fin 3)))

def branchBuilt : BBlocks (GraphBlock (Fin 3)) := branchFunction.build.get (by decide)

end SlicedFunction

end Cape.Slicing
