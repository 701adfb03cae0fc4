import Cape.Library.Avoidance
import Cape.Library.FinLiterals
import Cape.Slicing.Graph

/-!
# The loop of a secret branch

`getBrLoopBlocks` looks for the loop around the block of a branch: it climbs the dominator tree
from the block, stops at the first predecessor that closes a back edge, and collects the body of
that edge's loop by a backwards walk (`collectLoopBlks`).

The collected set is the natural loop of the edge (`mem_collectLoopBlks`). The search itself takes
the first back edge it meets and passes over self loops, so its answer is the innermost loop only
under the condition `MeetsInnermost` (`findsLoop_iff`); `selfLoop` fails it.
-/

set_option autoImplicit false

namespace Cape.Slicing

open Cape.Library

namespace BlockGraph

variable {N B : Type} [Fintype B] [DecidableEq B] (G : BlockGraph N B)

/-! ## The code -/

/-- `collectLoopBlks`: the blocks found backwards from `hpred`, with the header seen from the
start. -/
def collectLoopBlks (header hpred : B) : Finset B :=
  (Worklist.run .stack G.predecessors (Fintype.card B) ⟨{header, hpred}, [hpred]⟩).seen

/-- The blocks that repeated `getIDom()` passes. -/
def idoms (b : B) : List B := ancestors G.idom (Fintype.card B) b

/-- The inner loop over `cur`: climbing from `pred` meets `blk`. -/
def closesLoop (blk pred : B) : Bool := decide (blk ∈ G.idoms pred)

/-- The first predecessor of `blk` that closes a back edge. -/
def backEdgeTo (blk : B) : Option B := (G.predecessors blk).find? (G.closesLoop blk)

/-- The first back edge met on the way up from `brBlk`. -/
def firstBackEdge (brBlk : B) : Option (B × B) :=
  (brBlk :: G.idoms brBlk).findSome? fun blk => (G.backEdgeTo blk).map fun pred => (blk, pred)

/-- `getBrLoopBlocks`: the block set and the header, which stays unset when no loop is found. -/
def getBrLoopBlocks (brBlk : B) : Finset B × Option B :=
  match G.firstBackEdge brBlk with
  | none => (∅, none)
  | some (blk, pred) =>
      if brBlk ∈ G.collectLoopBlks blk pred then (G.collectLoopBlks blk pred, some blk)
      else (∅, none)

/-- `isCondExit`: some successor leaves the loop. -/
def isCondExit (bb : B) (loop : Finset B) : Bool :=
  (G.successors bb).any fun suc => decide (suc ∉ loop)

/-! ## Natural loops -/

variable (entry : B)

/-- A back edge: a reachable edge to a dominator of its source. -/
def BackEdge (p h : B) : Prop :=
  G.Flow p h ∧ FromRoot G.Flow entry p ∧ Dominates G.Flow entry h p

/-- The block is in the natural loop of the edge from `p` to `h`: it is the header, or it reaches
`p` without passing the header. -/
def InLoop (h p x : B) : Prop := x = h ∨ ∃ π, Walk G.Flow x π p ∧ h ∉ π

/-- A natural loop around `b`, given by its back edge. -/
def LoopAround (b h p : B) : Prop := G.BackEdge entry p h ∧ G.InLoop h p b

/-- The header of the innermost natural loops around `b`: every header of a loop around `b`
dominates it. -/
def InnermostHeader (b h : B) : Prop :=
  (∃ p, G.LoopAround entry b h p) ∧
    ∀ h' p', G.LoopAround entry b h' p' → Dominates G.Flow entry h' h

/-- A right answer for `b`: the header and the blocks of the innermost natural loops around `b`,
and no block when `b` is in no loop. -/
def FindsLoop (b : B) (r : Finset B × Option B) : Prop :=
  ((∃ h p, G.LoopAround entry b h p) → ∃ h, G.InnermostHeader entry b h ∧ r.2 = some h ∧
    ∀ x, x ∈ r.1 ↔ ∃ p, G.LoopAround entry b h p ∧ G.InLoop h p x) ∧
  ((¬ ∃ h p, G.LoopAround entry b h p) → r.1 = ∅)

/-- A back edge other than a self loop. -/
def ProperBackEdge (p h : B) : Prop := G.BackEdge entry p h ∧ h ≠ p

/-- The proper back edge that is nearest above `b`: its target is the lowest dominator of `b` that
has one, and it comes first among the predecessors. -/
structure NearestBackEdge (b h p : B) : Prop where
  dominates : Dominates G.Flow entry h b
  lowest : ∀ d q, Dominates G.Flow entry d b → StrictlyDominates G.Flow entry h d →
    ¬ G.ProperBackEdge entry q d
  edge : G.ProperBackEdge entry p h
  first : ∃ before after, G.predecessors h = before ++ p :: after ∧
    ∀ q ∈ before, ¬ G.ProperBackEdge entry q h

/-- When `b` is in a loop, `b` is reachable, the nearest proper back edge above `b` closes a loop
around `b` that contains the loops of all other back edges to that header around `b`, and `b` has
no self loop unless it is that header. -/
def MeetsInnermost (b : B) : Prop :=
  (∃ h p, G.LoopAround entry b h p) → FromRoot G.Flow entry b ∧
    ∃ h p, G.NearestBackEdge entry b h p ∧ G.InLoop h p b ∧
      (∀ q x, G.LoopAround entry b h q → G.InLoop h q x → G.InLoop h p x) ∧
      (b = h ∨ ¬ G.Flow b b)

instance (p h : B) : Decidable (G.BackEdge entry p h) :=
  inferInstanceAs (Decidable (G.Flow p h ∧ FromRoot G.Flow entry p ∧ Dominates G.Flow entry h p))

instance (p h : B) : Decidable (G.ProperBackEdge entry p h) :=
  inferInstanceAs (Decidable (G.BackEdge entry p h ∧ h ≠ p))

section Correct

variable {G entry}

omit [Fintype B] [DecidableEq B] in
/-- The header of a loop dominates the reachable blocks of the loop. -/
theorem LoopAround.dominates {b h p : B} (hloop : G.LoopAround entry b h p) :
    Dominates G.Flow entry h b := by
  obtain ⟨⟨-, -, hdom⟩, rfl | ⟨σ, hσ, hh⟩⟩ := hloop
  · exact Dominates.refl b
  · intro π hπ
    obtain ⟨τ, rfl⟩ := hσ.eq_cons
    rcases List.mem_append.1 (hdom _ (hπ.join hσ)) with hmem | hmem
    · exact hmem
    · exact absurd (List.mem_cons_of_mem _ hmem) hh

omit [Fintype B] [DecidableEq B] in
/-- The loop of a self loop is its block alone. -/
theorem inLoop_self {h x : B} : G.InLoop h h x ↔ x = h := by
  constructor
  · rintro (rfl | ⟨π, hπ, hh⟩)
    · rfl
    · exact absurd hπ.end_mem hh
  · exact Or.inl

/-! ## The collected blocks -/

theorem collectLoopBlks_eq (h p : B) :
    G.collectLoopBlks h p = searchAround G.predecessors {h} p := by
  rw [collectLoopBlks, searchAround, Finset.pair_comm]

/-- **The collected blocks are the natural loop** of a back edge that is not a self loop. -/
theorem mem_collectLoopBlks (hG : G.CorrectDominators entry) {h p : B} (hp : h ≠ p) (x : B) :
    x ∈ G.collectLoopBlks h p ↔ G.InLoop h p x := by
  have hph : p ∉ ({h} : Finset B) := by simpa using Ne.symm hp
  rw [collectLoopBlks_eq, mem_searchAround G.predecessors hph]
  simp only [Finset.mem_singleton]
  refine or_congr_right ⟨?_, ?_⟩
  · rintro ⟨π, hπ, hh⟩
    have hback := (hπ.mono fun a b hab => (hG.converse b a).1 hab).reverse
    exact ⟨π.reverse, hback, fun hmem => hh h (List.mem_reverse.1 hmem) rfl⟩
  · rintro ⟨π, hπ, hh⟩
    have hback := hπ.reverse.mono fun a b hab => (hG.converse b a).2 hab
    exact ⟨π.reverse, hback, fun y hy hyh => hh (hyh ▸ List.mem_reverse.1 hy)⟩

/-! ## The search for the back edge -/

omit [DecidableEq B] in
theorem mem_idoms (hG : G.CorrectDominators entry) (b x : B) :
    x ∈ G.idoms b ↔ FromRoot G.Flow entry b ∧ StrictlyDominates G.Flow entry x b := by
  by_cases hb : FromRoot G.Flow entry b
  · simp only [idoms, mem_ancestors hG.idom hb, hb, true_and]
  · simp only [idoms, ancestors_of_none (hG.unreachable b hb), List.not_mem_nil, hb, false_and]

omit [DecidableEq B] in
/-- Above a reachable block the climb passes its dominators. -/
theorem mem_cons_idoms (hG : G.CorrectDominators entry) {b : B} (hb : FromRoot G.Flow entry b)
    (x : B) : x ∈ b :: G.idoms b ↔ Dominates G.Flow entry x b := by
  rw [List.mem_cons, mem_idoms hG]
  constructor
  · rintro (rfl | ⟨-, hstrict⟩)
    · exact Dominates.refl x
    · exact hstrict.2
  · intro hdom
    by_cases hxb : x = b
    · exact Or.inl hxb
    · exact Or.inr ⟨hb, hxb, hdom⟩

theorem closesLoop_iff (hG : G.CorrectDominators entry) {blk pred : B}
    (hpred : pred ∈ G.predecessors blk) :
    G.closesLoop blk pred = true ↔ G.ProperBackEdge entry pred blk := by
  rw [closesLoop, decide_eq_true_iff, mem_idoms hG]
  constructor
  · rintro ⟨hroot, hne, hdom⟩
    exact ⟨⟨(hG.converse _ _).1 hpred, hroot, hdom⟩, hne⟩
  · rintro ⟨⟨-, hroot, hdom⟩, hne⟩
    exact ⟨hroot, hne, hdom⟩

theorem closesLoop_eq_false_iff (hG : G.CorrectDominators entry) {blk pred : B}
    (hpred : pred ∈ G.predecessors blk) :
    G.closesLoop blk pred = false ↔ ¬ G.ProperBackEdge entry pred blk := by
  rw [← closesLoop_iff hG hpred, Bool.not_eq_true]

theorem backEdgeTo_eq_some (hG : G.CorrectDominators entry) {blk p : B} :
    G.backEdgeTo blk = some p ↔ G.ProperBackEdge entry p blk ∧
      ∃ before after, G.predecessors blk = before ++ p :: after ∧
        ∀ q ∈ before, ¬ G.ProperBackEdge entry q blk := by
  rw [backEdgeTo, List.find?_eq_some_iff_append]
  simp only [Bool.not_eq_true']
  constructor
  · rintro ⟨hp, before, after, hpred, hbefore⟩
    refine ⟨(closesLoop_iff hG (by simp [hpred])).1 hp, before, after, hpred, fun q hq => ?_⟩
    exact (closesLoop_eq_false_iff hG (by simp [hpred, hq])).1 (hbefore q hq)
  · rintro ⟨hp, before, after, hpred, hbefore⟩
    refine ⟨(closesLoop_iff hG (by simp [hpred])).2 hp, before, after, hpred, fun q hq => ?_⟩
    exact (closesLoop_eq_false_iff hG (by simp [hpred, hq])).2 (hbefore q hq)

theorem backEdgeTo_eq_none (hG : G.CorrectDominators entry) {blk : B} :
    G.backEdgeTo blk = none ↔ ∀ q, ¬ G.ProperBackEdge entry q blk := by
  rw [backEdgeTo, List.find?_eq_none]
  constructor
  · intro hnone q hq
    have hmem : q ∈ G.predecessors blk := (hG.converse q blk).2 hq.1.1
    exact hnone q hmem ((closesLoop_iff hG hmem).2 hq)
  · intro hno q hq hcloses
    exact hno q ((closesLoop_iff hG hq).1 hcloses)

/-- Above a reachable block the search returns the nearest proper back edge. -/
theorem firstBackEdge_eq_some (hG : G.CorrectDominators entry) {b h p : B}
    (hb : FromRoot G.Flow entry b) :
    G.firstBackEdge b = some (h, p) ↔ G.NearestBackEdge entry b h p := by
  have hchain := @pairwise_ancestors _ G.idom (Fintype.card B) b
  have hbelow : ∀ x y, x ∈ b :: G.idoms b → Relation.TransGen (fun u v => G.idom u = some v) x y →
      StrictlyDominates G.Flow entry y x := fun x y hx hxy =>
    hG.idom.strict_of_transGen (((mem_cons_idoms hG hb x).1 hx).fromRoot hb) hxy
  rw [firstBackEdge, List.findSome?_eq_some_iff]
  constructor
  · rintro ⟨before, d, after, hlist, hd, hbefore⟩
    obtain ⟨q, hq, heq⟩ := Option.map_eq_some_iff.1 hd
    obtain ⟨rfl, rfl⟩ := Prod.mk.injEq .. ▸ heq
    obtain ⟨hedge, hfirst⟩ := (backEdgeTo_eq_some hG).1 hq
    have hdom : Dominates G.Flow entry d b :=
      (mem_cons_idoms hG hb d).1 (by rw [hlist]; simp)
    refine ⟨hdom, fun c q' hc hdc => ?_, hedge, hfirst⟩
    have hmem : c ∈ before ++ d :: after := hlist ▸ (mem_cons_idoms hG hb c).2 hc
    rcases List.mem_append.1 hmem with hmem | hmem
    · exact (backEdgeTo_eq_none hG).1 (Option.map_eq_none_iff.1 (hbefore c hmem)) q'
    · exfalso
      rcases List.mem_cons.1 hmem with rfl | hafter
      · exact hdc.1 rfl
      · -- `c` comes after `d` in the climb, so it dominates `d` too
        have hpair : (before ++ d :: after).Pairwise _ := hlist ▸ hchain
        have hdc' := List.rel_of_pairwise_cons (List.pairwise_append.1 hpair).2.1 hafter
        have hcd := hbelow d c (by rw [hlist]; simp) hdc'
        exact hcd.1 (hcd.2.antisymm hdc.2 (hdom.fromRoot hb))
  · rintro ⟨hdom, hlowest, hedge, hfirst⟩
    obtain ⟨before, after, hlist⟩ := List.append_of_mem ((mem_cons_idoms hG hb h).2 hdom)
    refine ⟨before, h, after, hlist, ?_, fun d hd => ?_⟩
    · rw [(backEdgeTo_eq_some hG).2 ⟨hedge, hfirst⟩]
      rfl
    · have hmem : d ∈ b :: G.idoms b := by
        rw [hlist]
        exact List.mem_append_left _ hd
      have hpair : (before ++ h :: after).Pairwise _ := hlist ▸ hchain
      have hdh := (List.pairwise_append.1 hpair).2.2 d hd h List.mem_cons_self
      have hnone : G.backEdgeTo d = none := (backEdgeTo_eq_none hG).2 fun q =>
        hlowest d q ((mem_cons_idoms hG hb d).1 hmem) (hbelow d h hmem hdh)
      rw [hnone]
      rfl

/-- An unreachable block has no back edge above it. -/
theorem firstBackEdge_of_unreachable (hG : G.CorrectDominators entry) {b : B}
    (hb : ¬ FromRoot G.Flow entry b) : G.firstBackEdge b = none := by
  have hnone : G.backEdgeTo b = none := (backEdgeTo_eq_none hG).2 fun q hq =>
    hb (by
      obtain ⟨π, hπ⟩ := hq.1.2.1
      exact ⟨_, hπ.snoc hq.1.1⟩)
  rw [firstBackEdge, idoms, ancestors_of_none (hG.unreachable b hb)]
  simp [hnone]

theorem getBrLoopBlocks_of_some {b h p : B}
    (hfirst : G.firstBackEdge b = some (h, p)) (hin : b ∈ G.collectLoopBlks h p) :
    G.getBrLoopBlocks b = (G.collectLoopBlks h p, some h) := by
  rw [getBrLoopBlocks, hfirst]
  exact if_pos hin

/-- A header is returned only with a nearest proper back edge whose loop holds the block. -/
theorem nearest_of_header (hG : G.CorrectDominators entry) {b h : B}
    (hh : (G.getBrLoopBlocks b).2 = some h) :
    FromRoot G.Flow entry b ∧ ∃ p, G.NearestBackEdge entry b h p ∧ G.InLoop h p b ∧
      ∀ x, x ∈ (G.getBrLoopBlocks b).1 ↔ G.InLoop h p x := by
  have hb : FromRoot G.Flow entry b := by
    by_contra hb
    rw [getBrLoopBlocks, firstBackEdge_of_unreachable hG hb] at hh
    cases hh
  refine ⟨hb, ?_⟩
  cases hfirst : G.firstBackEdge b with
  | none =>
      rw [getBrLoopBlocks, hfirst] at hh
      cases hh
  | some e =>
      obtain ⟨h', p⟩ := e
      have hnear := (firstBackEdge_eq_some hG hb).1 hfirst
      by_cases hin : b ∈ G.collectLoopBlks h' p
      · rw [getBrLoopBlocks_of_some hfirst hin] at hh ⊢
        obtain rfl := Option.some.inj hh
        have hmem := mem_collectLoopBlks hG hnear.edge.2
        exact ⟨p, hnear, (hmem b).1 hin, hmem⟩
      · simp [getBrLoopBlocks, hfirst, hin] at hh

/-- Blocks are returned only with a header. -/
theorem header_of_mem {b x : B} (hx : x ∈ (G.getBrLoopBlocks b).1) :
    ∃ h, (G.getBrLoopBlocks b).2 = some h := by
  rw [getBrLoopBlocks] at hx ⊢
  cases hfirst : G.firstBackEdge b with
  | none => simp [hfirst] at hx
  | some e =>
      by_cases hin : b ∈ G.collectLoopBlks e.1 e.2
      · exact ⟨e.1, by simp [hin]⟩
      · simp [hfirst, hin] at hx

/-! ## The innermost loop -/

omit [Fintype B] [DecidableEq B] in
/-- Below the nearest proper back edge only self loops are left. -/
theorem NearestBackEdge.innermostHeader {b h p : B} (hnear : G.NearestBackEdge entry b h p)
    (hb : FromRoot G.Flow entry b) (hin : G.InLoop h p b) (hself : b = h ∨ ¬ G.Flow b b) :
    G.InnermostHeader entry b h := by
  refine ⟨⟨p, hnear.edge.1, hin⟩, fun h' p' hloop => ?_⟩
  rcases Dominates.total hb hloop.dominates hnear.dominates with hdom | hdom
  · exact hdom
  · by_cases heq : h = h'
    · exact heq ▸ Dominates.refl h
    · exfalso
      have hnot := hnear.lowest h' p' hloop.dominates ⟨heq, hdom⟩
      have hp' : p' = h' := by
        by_contra hne
        exact hnot ⟨hloop.1, Ne.symm hne⟩
      subst hp'
      obtain rfl := inLoop_self.1 hloop.2
      rcases hself with rfl | hself
      · exact heq rfl
      · exact hself hloop.1.1

/-- **`getBrLoopBlocks` finds the innermost loop if and only if the nearest proper back edge above
the block closes it.** -/
theorem findsLoop_iff (hG : G.CorrectDominators entry) (b : B) :
    G.FindsLoop entry b (G.getBrLoopBlocks b) ↔ G.MeetsInnermost entry b := by
  constructor
  · rintro ⟨hfound, -⟩ hloop
    obtain ⟨h, hinner, hheader, hblocks⟩ := hfound hloop
    obtain ⟨hb, p, hnear, hin, hmem⟩ := nearest_of_header hG hheader
    refine ⟨hb, h, p, hnear, hin, fun q x hq hx => ?_, ?_⟩
    · exact (hmem x).1 ((hblocks x).2 ⟨q, hq, hx⟩)
    · by_cases hself : G.Flow b b
      · have hbb : Dominates G.Flow entry b h :=
          hinner.2 b b ⟨⟨hself, hb, Dominates.refl b⟩, Or.inl rfl⟩
        exact Or.inl (hbb.antisymm hnear.dominates (hnear.dominates.fromRoot hb))
      · exact Or.inr hself
  · intro hmeets
    refine ⟨fun hloop => ?_, fun hno => ?_⟩
    · obtain ⟨hb, h, p, hnear, hin, hall, hself⟩ := hmeets hloop
      have hmem := mem_collectLoopBlks hG hnear.edge.2
      rw [getBrLoopBlocks_of_some ((firstBackEdge_eq_some hG hb).2 hnear) ((hmem b).2 hin)]
      refine ⟨h, hnear.innermostHeader hb hin hself, rfl, fun x => ?_⟩
      rw [hmem]
      constructor
      · exact fun hx => ⟨p, ⟨hnear.edge.1, hin⟩, hx⟩
      · rintro ⟨q, hq, hx⟩
        exact hall q x hq hx
    · rw [Finset.eq_empty_iff_forall_notMem]
      intro x hx
      obtain ⟨h, hheader⟩ := header_of_mem hx
      obtain ⟨-, p, hnear, hin, -⟩ := nearest_of_header hG hheader
      exact hno ⟨h, p, hnear.edge.1, hin⟩

end Correct

/-! ## A loop that is missed -/

/-- Every cycle has a back edge. -/
def Reducible : Prop :=
  ∀ b, ¬ Relation.TransGen (fun p h => G.Flow p h ∧ ¬ G.BackEdge entry p h) b b

end BlockGraph

/-- A loop with header 1, body 2 and exit 3. -/
def whileLoop : BlockGraph Unit (Fin 4) where
  key _ := .other
  nodes _ := []
  successors := ![[1], [2, 3], [1], []]
  predecessors := ![[], [0, 2], [1], [1]]
  idom := ![none, some 0, some 1, some 1]
  ipostdom := ![.block 1, .block 3, .block 1, .root]
  functionName _ := "main"
  functionBlocks _ := [0, 1, 2, 3]

/-- The loop of `whileLoop` is found from its header. -/
theorem findsLoop_whileLoop : whileLoop.FindsLoop 0 1 (whileLoop.getBrLoopBlocks 1) := by
  refine (BlockGraph.findsLoop_iff ⟨by decide, by decide, by decide⟩ 1).2 fun _ => ⟨by decide, ?_⟩
  refine ⟨1, 2, ⟨by decide, by decide, by decide, [0], [], rfl, by decide⟩, Or.inl rfl, ?_,
    Or.inl rfl⟩
  have honly : ∀ q : Fin 4, whileLoop.BackEdge 0 q 1 → q = 2 := by decide
  rintro q x ⟨hedge, -⟩ hx
  exact honly q hedge ▸ hx

/-- `0 → 1`, `1 → 1`, `1 → 2`: the loop of block 1 is a self loop. -/
def selfLoop : BlockGraph Unit (Fin 3) where
  key _ := .other
  nodes _ := []
  successors := ![[1], [1, 2], []]
  predecessors := ![[], [0, 1], [1]]
  idom := ![none, some 0, some 1]
  ipostdom := ![.block 1, .block 2, .root]
  functionName _ := "main"
  functionBlocks _ := [0, 1, 2]

theorem selfLoop_correctDominators : selfLoop.CorrectDominators 0 where
  converse := by decide
  idom := by decide
  unreachable := by decide

theorem selfLoop_reducible : selfLoop.Reducible 0 := by
  have hup : ∀ p h : Fin 3, selfLoop.Flow p h ∧ ¬ selfLoop.BackEdge 0 p h → p < h := by decide
  have hlt : ∀ a b : Fin 3, Relation.TransGen
      (fun p h => selfLoop.Flow p h ∧ ¬ selfLoop.BackEdge 0 p h) a b → a < b := by
    intro a b hab
    induction hab with
    | single hstep => exact hup _ _ hstep
    | tail _ hstep ih => exact lt_trans ih (hup _ _ hstep)
  exact fun b hbb => lt_irrefl b (hlt b b hbb)

/-- **The self loop is not found**: the CFG is reducible with a correct dominator tree, block 1 is
in a natural loop, and the answer is the empty set. -/
theorem not_findsLoop_selfLoop : selfLoop.CorrectDominators 0 ∧ selfLoop.Reducible 0 ∧
    selfLoop.LoopAround 0 1 1 1 ∧ (selfLoop.getBrLoopBlocks 1).1 = ∅ ∧
    ¬ selfLoop.FindsLoop 0 1 (selfLoop.getBrLoopBlocks 1) := by
  have hloop : selfLoop.LoopAround 0 1 1 1 := ⟨by decide, Or.inl rfl⟩
  have hanswer : selfLoop.getBrLoopBlocks 1 = (∅, none) := by decide
  refine ⟨selfLoop_correctDominators, selfLoop_reducible, hloop, by rw [hanswer], ?_⟩
  rintro ⟨hfound, -⟩
  obtain ⟨h, -, hheader, -⟩ := hfound ⟨1, 1, hloop⟩
  rw [hanswer] at hheader
  cases hheader

end Cape.Slicing
