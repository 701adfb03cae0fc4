import Cape.Slicing.BlockSuccessors

/-!
# Edges after slicing

`sliceBBlocks` takes the blocks out that are not in the slice, one after the other. The edges that are
left are the paths of the function through blocks that are gone: such an edge has the label of the
first edge of the path (`edges_sliceBBlocks`), whatever the order of the blocks. A label may get several
targets in this way; `oneTarget_sliceBBlocks_iff` says when it does not.
-/

set_option autoImplicit false

namespace Cape.Slicing

open Cape.Library

variable {B : Type} [DecidableEq B]

namespace BBlocks

/-- The blocks of a list are isolated one after the other. -/
theorem mem_nextBBs_isolates {g : BBlocks B} (hg : g.Consistent) (orderB : Order B)
    (order : Order (BBlockEdge B)) {l : List B} (hl : l.Nodup) :
    (l.foldl (isolate orderB order) g).Consistent ∧ ∀ label x y,
      ⟨y, label⟩ ∈ (l.foldl (isolate orderB order) g).nextBBs x ↔ x ∉ l ∧ y ∉ l ∧
        Elimination.ViaFrom (fun x y => ⟨y, label⟩ ∈ g.nextBBs x) g.Edge {b | b ∈ l} x y := by
  induction l using List.reverseRecOn with
  | nil =>
      refine ⟨hg, fun label x y => ?_⟩
      simp [Elimination.ViaFrom]
  | append_singleton l b ih =>
      obtain ⟨hl', -, hdisjoint⟩ := List.nodup_append.1 hl
      have hb : b ∉ l := fun hb => hdisjoint b hb b (List.mem_singleton_self b) rfl
      obtain ⟨hconsistent, hnext⟩ := ih hl'
      rw [List.foldl_append, List.foldl_cons, List.foldl_nil]
      refine ⟨hconsistent.isolate orderB order b, fun label x y => ?_⟩
      -- the edges that were left, whatever their labels
      have hedge : ∀ x y, (l.foldl (isolate orderB order) g).Edge x y ↔
          x ∉ l ∧ y ∉ l ∧ Elimination.Via g.Edge {b | b ∈ l} x y := by
        intro x y
        rw [Edge, Elimination.via_iff_first]
        simp only [hnext, Elimination.ViaFrom]
        constructor
        · rintro ⟨label, hx, hy, h | ⟨z, hz, hfirst, hrest⟩⟩
          · exact ⟨hx, hy, Or.inl ⟨label, h⟩⟩
          · exact ⟨hx, hy, Or.inr ⟨z, hz, ⟨label, hfirst⟩, hrest⟩⟩
        · rintro ⟨hx, hy, ⟨label, h⟩ | ⟨z, hz, ⟨label, hfirst⟩, hrest⟩⟩
          · exact ⟨label, hx, hy, Or.inl h⟩
          · exact ⟨label, hx, hy, Or.inr ⟨z, hz, hfirst, hrest⟩⟩
      have hset : {x | x ∈ l ++ [b]} = insert b {x | x ∈ l} := by
        ext x
        simp [or_comm]
      have hmem : ∀ x, x ∈ l ++ [b] ↔ x ∈ insert b {x | x ∈ l} := fun x => by rw [← hset]; rfl
      rw [mem_nextBBs_isolate hconsistent, hnext, hnext, hedge, hset, hmem, hmem]
      exact Elimination.viaFrom_without (S := {x | x ∈ l}) hb

end BBlocks

namespace SlicedFunction

variable {F : SlicedFunction B}

/-- The edges of the function: the successors of a terminator by their numbers, and the exit behind a
block that returns. -/
def Flow (F : SlicedFunction B) (label : Label) (x y : GraphBlock B) : Prop :=
  ∃ b ∈ F.blocks, x = .block b ∧ ((F.returns b = true ∧ y = .exitBB ∧ label = 255) ∨
    ∃ s ∈ (F.succs b).zipIdx, y = .block s.1 ∧ label = Fin.ofNat 256 s.2)

theorem mem_nextBBs_buildReturn {g : BBlocks (GraphBlock B)} {b : B} {x : GraphBlock B}
    {e : BBlockEdge (GraphBlock B)} : e ∈ (F.buildReturn g b).nextBBs x ↔
      e ∈ g.nextBBs x ∨ (F.returns b = true ∧ x = .block b ∧ e = ⟨.exitBB, 255⟩) := by
  rw [buildReturn]
  split
  · next hreturns => rw [BBlocks.mem_nextBBs_addSuccessor, and_iff_right hreturns]
  · next hreturns => exact (or_iff_left fun h => hreturns h.1).symm

theorem mem_nextBBs_buildEdges {g g' : BBlocks (GraphBlock B)} {b : B}
    (h : F.buildEdges g b = some g') {x : GraphBlock B} {e : BBlockEdge (GraphBlock B)} :
    e ∈ g'.nextBBs x ↔ e ∈ g.nextBBs x ∨
      (x = .block b ∧ ∃ s ∈ (F.succs b).zipIdx, e = ⟨.block s.1, Fin.ofNat 256 s.2⟩) := by
  refine FallibleLoop.prefix_induction (I := fun done g' => e ∈ g'.nextBBs x ↔ e ∈ g.nextBBs x ∨
    (x = .block b ∧ ∃ s ∈ done, e = ⟨.block s.1, Fin.ofNat 256 s.2⟩)) ?_ (by simp) h
  rintro done s rest - u u' hu hstep
  split at hstep
  · cases hstep
  · obtain rfl := Option.some.inj hstep
    rw [BBlocks.mem_nextBBs_addSuccessor, hu, FallibleLoop.exists_mem_concat, and_or_left, or_assoc]

/-- What is built are the edges of the function. -/
theorem mem_nextBBs_build {built : BBlocks (GraphBlock B)} (h : F.build = some built)
    {label : Label} {x y : GraphBlock B} : ⟨y, label⟩ ∈ built.nextBBs x ↔ F.Flow label x y := by
  -- the returning blocks first, and then the successors
  have hreturns : ∀ l : List B, ⟨y, label⟩ ∈ (l.foldl F.buildReturn BBlocks.empty).nextBBs x ↔
      ∃ b ∈ l, F.returns b = true ∧ x = .block b ∧
        (⟨y, label⟩ : BBlockEdge (GraphBlock B)) = ⟨.exitBB, 255⟩ := by
    intro l
    induction l using List.reverseRecOn with
    | nil => simp [BBlocks.empty]
    | append_singleton l b ih =>
        rw [List.foldl_append, List.foldl_cons, List.foldl_nil, mem_nextBBs_buildReturn, ih,
          FallibleLoop.exists_mem_concat]
  have hall := FallibleLoop.prefix_induction (I := fun done g => ⟨y, label⟩ ∈ g.nextBBs x ↔
    (∃ b ∈ F.blocks, F.returns b = true ∧ x = .block b ∧
      (⟨y, label⟩ : BBlockEdge (GraphBlock B)) = ⟨.exitBB, 255⟩) ∨
    ∃ b ∈ done, x = .block b ∧ ∃ s ∈ (F.succs b).zipIdx,
      (⟨y, label⟩ : BBlockEdge (GraphBlock B)) = ⟨.block s.1, Fin.ofNat 256 s.2⟩) ?_ ?_ h
  · rw [hall, Flow]
    simp only [BBlockEdge.mk.injEq]
    constructor
    · rintro (⟨b, hb, hreturn, hx, hy⟩ | ⟨b, hb, hx, hs⟩)
      · exact ⟨b, hb, hx, Or.inl ⟨hreturn, hy⟩⟩
      · exact ⟨b, hb, hx, Or.inr hs⟩
    · rintro ⟨b, hb, hx, ⟨hreturn, hy⟩ | hs⟩
      · exact Or.inl ⟨b, hb, hreturn, hx, hy⟩
      · exact Or.inr ⟨b, hb, hx, hs⟩
  · rintro done b rest - u u' hu hstep
    rw [mem_nextBBs_buildEdges hstep, hu, FallibleLoop.exists_mem_concat, or_assoc]
  · rw [hreturns]
    simp

section Sliced

variable (F) (orderB : Order (GraphBlock B)) (order : Order (BBlockEdge (GraphBlock B)))
  {built : BBlocks (GraphBlock B)}

/-- From a block that is gone, a path through such blocks leads to one that stays. -/
def LeadsOut (r y : GraphBlock B) : Prop :=
  y ∉ F.toRemove ∧
    Elimination.Via (fun x y => ∃ label, F.Flow label x y) {r | r ∈ F.toRemove} r y

theorem mem_nextBBs_sliceBBlocks (hbuild : F.build = some built) {label : Label}
    {x y : GraphBlock B} : ⟨y, label⟩ ∈ (F.sliceBBlocks orderB order built).nextBBs x ↔
      x ∉ F.toRemove ∧ ((y ∉ F.toRemove ∧ F.Flow label x y) ∨
        ∃ r ∈ F.toRemove, F.Flow label x r ∧ F.LeadsOut r y) := by
  have hedges : built.Edge = fun x y => ∃ label, F.Flow label x y := by
    funext x y
    exact propext (exists_congr fun label => mem_nextBBs_build hbuild)
  have hremoved := (BBlocks.mem_nextBBs_isolates (sliced_build hbuild).consistent orderB order
    (orderB.nodup F.toRemove)).2 label x y
  simp only [orderB.mem_toList, hedges, mem_nextBBs_build hbuild] at hremoved
  refine hremoved.trans (and_congr_right fun _ => ?_)
  constructor
  · rintro ⟨hy, h | ⟨r, hr, hfirst, hrest⟩⟩
    · exact Or.inl ⟨hy, h⟩
    · exact Or.inr ⟨r, hr, hfirst, hy, hrest⟩
  · rintro (⟨hy, h⟩ | ⟨r, hr, hfirst, hy, hrest⟩)
    · exact ⟨hy, Or.inl h⟩
    · exact ⟨hy, Or.inr ⟨r, hr, hfirst, hrest⟩⟩

/-- **`sliceBBlocks`.** The two directions of the edges stay consistent. Between blocks that stay there
is an edge with a label exactly when the function has it, or its edge with the label leads to a block
that is gone and from there a path goes on through blocks that are gone. The order in which the blocks
are removed does not matter. -/
theorem edges_sliceBBlocks (hbuild : F.build = some built) :
    (F.sliceBBlocks orderB order built).Consistent ∧ ∀ (label : Label) (x y : GraphBlock B),
      ⟨y, label⟩ ∈ (F.sliceBBlocks orderB order built).nextBBs x ↔
        x ∉ F.toRemove ∧ ((y ∉ F.toRemove ∧ F.Flow label x y) ∨
          ∃ r ∈ F.toRemove, F.Flow label x r ∧ F.LeadsOut r y) := by
  constructor
  · exact (BBlocks.mem_nextBBs_isolates (sliced_build hbuild).consistent orderB order
      (orderB.nodup F.toRemove)).1
  · exact fun _ _ _ => mem_nextBBs_sliceBBlocks F orderB order hbuild

variable {F}

/-- A label of a block has one target in the function. -/
theorem flow_unique (hbuild : F.build = some built) {label : Label} {x y y' : GraphBlock B}
    (h : F.Flow label x y) (h' : F.Flow label x y') : y = y' := by
  obtain ⟨b, hb, rfl, hy⟩ := h
  obtain ⟨b', -, hbb, hy'⟩ := h'
  obtain rfl := GraphBlock.block.inj hbb
  have hfew := few_of_build hbuild b hb
  -- a block that returns has no successors
  have hnone : F.returns b = true → ∀ s, s ∉ (F.succs b).zipIdx := by
    intro hreturns s hs
    rw [F.noSuccs b hreturns] at hs
    exact List.not_mem_nil hs
  obtain ⟨hreturns, rfl, -⟩ | ⟨s, hs, rfl, rfl⟩ := hy
  · obtain ⟨-, rfl, -⟩ | ⟨s', hs', -, -⟩ := hy'
    · rfl
    · exact absurd hs' (hnone hreturns s')
  · obtain ⟨hreturns, -, -⟩ | ⟨s', hs', rfl, hlabel⟩ := hy'
    · exact absurd hs (hnone hreturns s)
    · have hval := congrArg Fin.val hlabel
      have hlt := (List.mem_zipIdx' hs).1
      have hlt' := (List.mem_zipIdx' hs').1
      rw [Fin.val_ofNat, Fin.val_ofNat, Nat.mod_eq_of_lt (by omega), Nat.mod_eq_of_lt (by omega)] at hval
      have hget := List.mem_zipIdx_iff_getElem?.1 hs
      rw [hval, List.mem_zipIdx_iff_getElem?.1 hs'] at hget
      rw [Option.some.inj hget]

variable (F)

/-- **Labels with several targets.** Slicing leaves one target for each label exactly when each block
that is gone, and that a block that stays leads to, leads out to one block only. -/
theorem oneTarget_sliceBBlocks_iff (hbuild : F.build = some built) :
    (∀ x, OneTarget ((F.sliceBBlocks orderB order built).nextBBs x)) ↔
      ∀ label, ∀ x ∉ F.toRemove, ∀ r ∈ F.toRemove, F.Flow label x r →
        ∀ y y', F.LeadsOut r y → F.LeadsOut r y' → y = y' := by
  constructor
  · intro hone label x hx r hr hflow y y' hy hy'
    have he := (mem_nextBBs_sliceBBlocks F orderB order hbuild).2 ⟨hx, Or.inr ⟨r, hr, hflow, hy⟩⟩
    have he' := (mem_nextBBs_sliceBBlocks F orderB order hbuild).2 ⟨hx, Or.inr ⟨r, hr, hflow, hy'⟩⟩
    exact hone x _ he _ he' rfl
  · rintro hone x ⟨y, label⟩ he ⟨y', label'⟩ he' rfl
    -- the edge of the function that the label stands for is the same for both
    obtain ⟨hx, ⟨hy, hflow⟩ | ⟨r, hr, hflow, hout⟩⟩ :=
      (mem_nextBBs_sliceBBlocks F orderB order hbuild).1 he
    · obtain ⟨-, ⟨-, hflow'⟩ | ⟨r', hr', hflow', -⟩⟩ :=
        (mem_nextBBs_sliceBBlocks F orderB order hbuild).1 he'
      · exact flow_unique hbuild hflow hflow'
      · exact absurd (flow_unique hbuild hflow hflow' ▸ hr') hy
    · obtain ⟨-, ⟨hy', hflow'⟩ | ⟨r', hr', hflow', hout'⟩⟩ :=
        (mem_nextBBs_sliceBBlocks F orderB order hbuild).1 he'
      · exact absurd (flow_unique hbuild hflow hflow' ▸ hr) hy'
      · obtain rfl := flow_unique hbuild hflow hflow'
        exact hone label x hx r hr hflow y y' hout hout'

end Sliced

/-! ## A branch -/

/-- Behind the branch, the side that returns is gone: its label leads to the exit. -/
theorem edges_sliceBBlocks_branch :
    (⟨.exitBB, 1⟩ : BBlockEdge (GraphBlock (Fin 3))) ∈
      (branchFunction.sliceBBlocks branchBlocks branchEdges branchBuilt).nextBBs (.block 0) := by
  refine ((edges_sliceBBlocks branchFunction branchBlocks branchEdges
    (Option.some_get _).symm).2 1 (.block 0) .exitBB).2
      ⟨by decide, Or.inr ⟨.block 2, by decide, ?_, by decide, ?_⟩⟩
  · exact ⟨0, by decide, rfl, Or.inr ⟨(2, 1), by decide, rfl, rfl⟩⟩
  · exact .edge ⟨255, 2, by decide, rfl, Or.inl ⟨by decide, rfl, rfl⟩⟩

/-- The block that is gone leads to the exit only. -/
theorem leadsOut_branch {r y : GraphBlock (Fin 3)} (hr : r ∈ branchFunction.toRemove)
    (h : branchFunction.LeadsOut r y) : y = .exitBB := by
  have hgone : ∀ b, GraphBlock.block b ∈ branchFunction.toRemove → b = 2 := by decide
  have hedge : ∀ r ∈ branchFunction.toRemove, ∀ label y, branchFunction.Flow label r y →
      y = .exitBB := by
    rintro r hr label y ⟨b, -, rfl, ⟨-, rfl, -⟩ | ⟨s, hs, -, -⟩⟩
    · rfl
    · obtain rfl := hgone b hr
      exact absurd hs List.not_mem_nil
  obtain ⟨-, hpath⟩ := h
  cases hpath with
  | edge h =>
      obtain ⟨label, hflow⟩ := h
      exact hedge r hr label y hflow
  | through _ hz h =>
      obtain ⟨label, hflow⟩ := h
      exact hedge _ hz label y hflow

/-- The labels of the branch keep one target each. -/
theorem oneTarget_sliceBBlocks_branch : OneTarget
    ((branchFunction.sliceBBlocks branchBlocks branchEdges branchBuilt).nextBBs (.block 0)) := by
  refine (oneTarget_sliceBBlocks_iff branchFunction branchBlocks branchEdges
    (Option.some_get _).symm).2 (fun label x _ r hr _ y y' hy hy' => ?_) (.block 0)
  rw [leadsOut_branch hr hy, leadsOut_branch hr hy']

end SlicedFunction

end Cape.Slicing
