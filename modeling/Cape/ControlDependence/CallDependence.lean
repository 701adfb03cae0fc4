import Cape.ControlDependence.NoReturn
import Cape.Library.FinLiterals
import Cape.Library.Requeue
import Mathlib.Algebra.Order.BigOperators.Group.Finset
import Mathlib.Data.Fin.VecNotation

/-!
# Dependence on calls

`LLVMInterprocCD::computeCD`: what comes after a call that may not return depends on it. The calls are
passed on from block to block until nothing changes, and within their own blocks from instruction to
instruction. `mem_getDependencies_iff`: an instruction depends on the calls before it in its block, and
on those from whose block a non-empty path leads to its block.
-/

set_option autoImplicit false

namespace Cape.ControlDependence.InterprocCD

open Cape.Library Relation

/-- A module with the places of its instructions and the edges backwards. -/
structure Cfg (Fn B I : Type) extends Module Fn B I where
  predecessors : B → List B
  parent : I → B
  mem_predecessors : ∀ b p, p ∈ predecessors b ↔ b ∈ successors p
  parent_of_mem : ∀ b, ∀ i ∈ instructions b, parent i = b
  nodup_instructions : ∀ b, (instructions b).Nodup

/-- An order in which a hash map is gone through. -/
abbrev HashOrder (B : Type) : Type := {order : List B → List B // ∀ l, (order l).Perm l}

/-- `_blockCD` and `_instrCD`. -/
structure Dependencies (B I : Type) where
  blockCD : B → Finset I
  instrCD : I → Finset I

section

variable {Fn B I : Type} [DecidableEq B] [DecidableEq I]

namespace Module

variable (M : Module Fn B I)

/-- Some called function has points of no return; `none` where its info is missing. -/
def maynoret (s : FuncInfos Fn I) : List Fn → Option Bool
  | [] => some false
  | calledFun :: l =>
      if M.isDeclaration calledFun then maynoret s l
      else do
        let fi ← s calledFun
        if fi = ∅ then maynoret s l else some true

/-- `BlkInfo::noret` of one block. -/
def noretsOf (s : FuncInfos Fn I) (b : B) : Option (List I) :=
  (M.instructions b).foldlM (fun noret i =>
    if M.isCall i then do
      let may ← M.maynoret s (M.getCalledFunctions i)
      some (if may then noret ++ [i] else noret)
    else some noret) []

/-- `blkInfos` of the blocks of a function. -/
def computeBlkInfos (s : FuncInfos Fn I) (F : Fn) : Option (B → List I) :=
  (M.blocks F).foldlM (fun m b => do
    let noret ← M.noretsOf s b
    some (Function.update m b noret)) fun _ => []

end Module

/-- One predecessor of a block: what it depends on and its calls are merged. -/
def mergePredecessor (blkInfos : B → List I) (block pred : B) : Step (B → Finset I) := fun cds =>
  let merged := cds block ∪ cds pred ∪ (blkInfos pred).toFinset
  (Function.update cds block merged, decide (merged ≠ cds block))

/-- The instructions of a block, each with the calls before it. -/
def scanBlock (norets : List I) : List I → Nat → (I → Finset I) → I → Finset I
  | [], _, instrCD => instrCD
  | i :: l, noretsidx, instrCD =>
      scanBlock norets l (if norets[noretsidx]? = some i then noretsidx + 1 else noretsidx)
        (Function.update instrCD i (instrCD i ∪ (norets.take noretsidx).toFinset))

namespace Cfg

variable (M : Cfg Fn B I)

/-- The work list: the blocks after those with calls. -/
def initialQueue (keys : List B) : List B := (keys.flatMap M.successors).reverse

/-- `computeCD` in the order in which `blkInfos` is gone through. -/
def computeCD (order : HashOrder B) (fuel : Nat) (s : FuncInfos Fn I) (F : Fn) :
    Option (Dependencies B I) := do
  let blkInfos ← M.computeBlkInfos s F
  let keys := order.val ((M.blocks F).filter fun b => !(blkInfos b).isEmpty)
  let cds ← Requeue.run (fun b => Step.each (mergePredecessor blkInfos b) (M.predecessors b))
    M.successors fuel (M.initialQueue keys) fun _ => ∅
  some ⟨cds, keys.foldl (fun m b => scanBlock (blkInfos b) (M.instructions b) 0 m) fun _ => ∅⟩

/-- `getDependencies`. -/
def getDependencies (r : Dependencies B I) (i : I) : Finset I := r.instrCD i ∪ r.blockCD (M.parent i)

end Cfg

/-! ## Calls of a block -/

namespace Module

variable (M : Module Fn B I)

/-- The call may not return, as far as the infos say. -/
def mayNotReturnAt (s : FuncInfos Fn I) (i : I) : Bool :=
  M.isCall i && (M.getCalledFunctions i).any fun G =>
    !M.isDeclaration G && (s G).any fun noret => decide (noret ≠ ∅)

variable {M}

omit [DecidableEq B] in
theorem maynoret_eq {s : FuncInfos Fn I} {l : List Fn}
    (hknown : ∀ G ∈ l, M.isDeclaration G = false → (s G).isSome) :
    M.maynoret s l = some (l.any fun G =>
      !M.isDeclaration G && (s G).any fun noret => decide (noret ≠ ∅)) := by
  induction l with
  | nil => rfl
  | cons G l ih =>
      obtain ⟨hG, hl⟩ := List.forall_mem_cons.1 hknown
      rw [maynoret, List.any_cons]
      split
      · next hdecl =>
          rw [ih hl, hdecl]
          rfl
      · next hdecl =>
          obtain ⟨fi, hfi⟩ := Option.isSome_iff_exists.1 (hG (Bool.eq_false_iff.2 hdecl))
          rw [hfi, Bool.eq_false_iff.2 hdecl]
          by_cases hempty : fi = ∅
          · simp [hempty, ih hl]
          · simp [hempty]

omit [DecidableEq B] in
theorem noretsOf_eq {s : FuncInfos Fn I} {b : B}
    (hknown : ∀ i ∈ M.instructions b, M.isCall i = true → ∀ G, M.CalledAt i G → (s G).isSome) :
    M.noretsOf s b = some ((M.instructions b).filter (M.mayNotReturnAt s)) := by
  have hloop : ∀ (l acc : List I),
      (∀ i ∈ l, M.isCall i = true → ∀ G, M.CalledAt i G → (s G).isSome) →
        l.foldlM (fun noret i => if M.isCall i then do
            let may ← M.maynoret s (M.getCalledFunctions i)
            some (if may then noret ++ [i] else noret)
          else some noret) acc = some (acc ++ l.filter (M.mayNotReturnAt s)) := by
    intro l
    induction l with
    | nil => exact fun acc _ => congrArg some (List.append_nil acc).symm
    | cons i l ih =>
        intro acc hl
        obtain ⟨hi, hl⟩ := List.forall_mem_cons.1 hl
        rw [List.foldlM_cons]
        by_cases hcall : M.isCall i = true
        · -- the infos of all callees are there, so the test does not fail
          have hmay := maynoret_eq (M := M) (s := s) (l := M.getCalledFunctions i)
            fun G hG hdecl => hi hcall G ⟨hG, hdecl⟩
          have htest : M.mayNotReturnAt s i = (M.getCalledFunctions i).any fun G =>
              !M.isDeclaration G && (s G).any fun noret => decide (noret ≠ ∅) := by
            rw [mayNotReturnAt, hcall, Bool.true_and]
          rw [if_pos hcall, hmay, ← htest, List.filter_cons]
          show l.foldlM _ (if M.mayNotReturnAt s i then acc ++ [i] else acc) = _
          rw [ih _ hl]
          split
          · rw [List.append_assoc, List.singleton_append]
          · rfl
        · have htest : ¬ M.mayNotReturnAt s i = true := by
            rw [mayNotReturnAt, Bool.eq_false_iff.2 hcall, Bool.false_and]
            exact Bool.false_ne_true
          rw [if_neg hcall, List.filter_cons, if_neg htest]
          exact ih acc hl
  exact hloop _ [] hknown

theorem computeBlkInfos_eq {s : FuncInfos Fn I} {F : Fn}
    (hknown : ∀ C, M.HasCall F C → ∀ G, M.CalledAt C G → (s G).isSome) :
    M.computeBlkInfos s F = some fun b =>
      if b ∈ M.blocks F then (M.instructions b).filter (M.mayNotReturnAt s) else [] := by
  have hloop : ∀ (l : List B) (m : B → List I), (∀ b ∈ l, b ∈ M.blocks F) →
      l.foldlM (fun m b => do
        let noret ← M.noretsOf s b
        some (Function.update m b noret)) m =
      some fun b => if b ∈ l then (M.instructions b).filter (M.mayNotReturnAt s) else m b := by
    intro l
    induction l with
    | nil => exact fun m _ => congrArg some (funext fun b => (if_neg List.not_mem_nil).symm)
    | cons b l ih =>
        intro m hl
        obtain ⟨hb, hl⟩ := List.forall_mem_cons.1 hl
        rw [List.foldlM_cons, noretsOf_eq fun i hi hcall => hknown i ⟨b, hb, hi, hcall⟩]
        show l.foldlM _ (Function.update m b _) = _
        rw [ih _ hl]
        refine congrArg some (funext fun c => ?_)
        by_cases hc : c ∈ l
        · rw [if_pos hc, if_pos (List.mem_cons_of_mem b hc)]
        · by_cases hcb : c = b
          · subst hcb
            rw [if_neg hc, if_pos List.mem_cons_self, Function.update_self]
          · rw [if_neg hc, if_neg fun h => (List.mem_cons.1 h).elim hcb hc,
              Function.update_of_ne hcb]
  exact hloop _ _ fun _ h => h

end Module

/-! ## From block to block -/

section Blocks

variable {blkInfos : B → List I}

theorem mem_mergePredecessor {b pred c : B} {cds : B → Finset I} {p : I} :
    p ∈ (mergePredecessor blkInfos b pred cds).1 c ↔
      p ∈ cds c ∨ (c = b ∧ (p ∈ cds pred ∨ p ∈ blkInfos pred)) := by
  show p ∈ Function.update cds b _ c ↔ _
  by_cases hc : c = b
  · subst hc
    rw [Function.update_self]
    simp
  · rw [Function.update_of_ne hc]
    exact (or_iff_left fun h => hc h.1).symm

theorem quiet_mergePredecessor (b pred : B) : Step.Quiet (mergePredecessor blkInfos b pred) := by
  intro cds hquiet
  have hsame := of_decide_eq_false hquiet
  push Not at hsame
  show Function.update cds b _ = cds
  rw [hsame, Function.update_eq_self]

/-- Only the sets grow. -/
abbrev Grow (cds cds' : B → Finset I) : Prop := ∀ b, cds b ⊆ cds' b

theorem grow_mergePredecessor (b pred : B) (cds : B → Finset I) :
    Grow cds (mergePredecessor blkInfos b pred cds).1 :=
  fun _ _ hp => mem_mergePredecessor.2 (.inl hp)

/-- The calls that may still be added. -/
def missing [Fintype B] [Fintype I] (cds : B → Finset I) : Nat :=
  ∑ b, (Finset.univ \ cds b).card

omit [DecidableEq B] in
theorem missing_le [Fintype B] [Fintype I] {cds cds' : B → Finset I} (h : Grow cds cds') :
    missing cds' ≤ missing cds :=
  Finset.sum_le_sum fun b _ => Finset.card_le_card (Finset.sdiff_subset_sdiff (Finset.Subset.refl _)
    (h b))

theorem missing_mergePredecessor [Fintype B] [Fintype I] {b pred : B} {cds : B → Finset I}
    (hchanged : (mergePredecessor blkInfos b pred cds).2 = true) :
    missing (mergePredecessor blkInfos b pred cds).1 < missing cds := by
  have hgrow : Grow cds (mergePredecessor blkInfos b pred cds).1 := grow_mergePredecessor b pred cds
  obtain ⟨p, hp, hnew⟩ : ∃ p ∈ (mergePredecessor blkInfos b pred cds).1 b, p ∉ cds b := by
    by_contra hall
    push Not at hall
    refine of_decide_eq_true hchanged (Finset.Subset.antisymm (fun p hp => hall p ?_) fun p hp => ?_)
    · show p ∈ Function.update cds b _ b
      rwa [Function.update_self]
    · exact Finset.mem_union_left _ (Finset.mem_union_left _ hp)
  refine Finset.sum_lt_sum (fun c _ => Finset.card_le_card (Finset.sdiff_subset_sdiff
    (Finset.Subset.refl _) (hgrow c))) ⟨b, Finset.mem_univ b, Finset.card_lt_card ?_⟩
  refine Finset.ssubset_iff_subset_ne.2 ⟨Finset.sdiff_subset_sdiff (Finset.Subset.refl _) (hgrow b),
    fun heq => ?_⟩
  have hmem : p ∈ Finset.univ \ (mergePredecessor blkInfos b pred cds).1 b := by
    rw [heq]
    exact Finset.mem_sdiff.2 ⟨Finset.mem_univ p, hnew⟩
  exact (Finset.mem_sdiff.1 hmem).2 hp

theorem mem_mergePredecessors {b c : B} {preds : List B} {cds : B → Finset I} {p : I}
    (hcb : c ≠ b) :
    p ∈ (Step.each (mergePredecessor blkInfos b) preds cds).1 c ↔ p ∈ cds c := by
  refine Step.each_keeps (P := fun cds' : B → Finset I => p ∈ cds' c ↔ p ∈ cds c)
    (fun pred _ cds' h => ?_) Iff.rfl
  rw [mem_mergePredecessor, h]
  exact or_iff_left fun h => hcb h.1

/-- After its turn a block has what comes from each predecessor. -/
theorem subset_mergePredecessors {b pred : B} {preds : List B} (hpred : pred ∈ preds)
    (cds : B → Finset I) : ∀ p, p ∈ cds pred ∨ p ∈ blkInfos pred →
      p ∈ (Step.each (mergePredecessor blkInfos b) preds cds).1 b := by
  refine Step.each_visits (fun _ _ => Finset.Subset.refl _)
    (fun h k b => Finset.Subset.trans (h b) (k b)) (grow_mergePredecessor b)
    (P := fun cds' => ∀ p, p ∈ cds pred ∨ p ∈ blkInfos pred → p ∈ cds' b)
    (fun hle hP p hp => hle b (hP p hp)) hpred fun cds' hle p hp => ?_
  refine mem_mergePredecessor.2 (.inr ⟨rfl, hp.imp (fun hp => hle pred hp) fun hp => hp⟩)

theorem missing_mergePredecessors [Fintype B] [Fintype I] {b : B} {preds : List B}
    {cds : B → Finset I}
    (hchanged : (Step.each (mergePredecessor blkInfos b) preds cds).2 = true) :
    missing (Step.each (mergePredecessor blkInfos b) preds cds).1 < missing cds := by
  have hR : Step.Composes fun (s t : B → Finset I) (c : Bool) =>
      Grow s t ∧ (c = true → missing t < missing s) := by
    refine ⟨fun s => ⟨fun _ => Finset.Subset.refl _, nofun⟩, fun h k => ⟨?_, fun hc => ?_⟩⟩
    · exact fun b => Finset.Subset.trans (h.1 b) (k.1 b)
    · obtain hc | hc := Bool.or_eq_true_iff.1 hc
      · exact (missing_le k.1).trans_lt (h.2 hc)
      · exact (k.2 hc).trans_le (missing_le h.1)
  exact (Step.Meets.each hR (fun pred _ s =>
    ⟨grow_mergePredecessor b pred s, missing_mergePredecessor⟩) cds).2 hchanged

end Blocks

namespace Cfg

variable (M : Cfg Fn B I)

/-- An edge between blocks. -/
abbrev Edge (b c : B) : Prop := c ∈ M.successors b

/-- Everything that comes from the predecessors is there. -/
def Settled (blkInfos : B → List I) (cds : B → Finset I) (b : B) : Prop :=
  ∀ pred, M.Edge pred b → ∀ p, p ∈ cds pred ∨ p ∈ blkInfos pred → p ∈ cds b

/-- While the work list is not empty. -/
structure Invariant (blkInfos : B → List I) (queue : List B) (cds : B → Finset I) : Prop where
  settled : ∀ b, b ∈ queue ∨ M.Settled blkInfos cds b
  sound : ∀ b, ∀ p ∈ cds b, ∃ c, p ∈ blkInfos c ∧ TransGen M.Edge c b

variable {M} {blkInfos : B → List I}

theorem Invariant.turn {b : B} {queue : List B} {cds : B → Finset I}
    (h : M.Invariant blkInfos (b :: queue) cds) :
    M.Invariant blkInfos
      (Requeue.requeue M.successors
        (Step.each (mergePredecessor blkInfos b) (M.predecessors b) cds).2 b queue)
      (Step.each (mergePredecessor blkInfos b) (M.predecessors b) cds).1 where
  settled c := by
    by_cases hc : c = b
    · subst hc
      refine .inr fun pred hpred p hp => ?_
      by_cases hpc : pred = c
      · subst hpc
        obtain hp | hp := hp
        · exact hp
        · exact subset_mergePredecessors ((M.mem_predecessors _ _).2 hpred) cds p (.inr hp)
      · refine subset_mergePredecessors ((M.mem_predecessors _ _).2 hpred) cds p (hp.imp_left ?_)
        exact (mem_mergePredecessors hpc).1
    · -- a block is settled, or on the queue: the successors of a block that changed are put there
      rw [Requeue.mem_requeue]
      obtain hmem | hsettled := h.settled c
      · exact .inl (.inr ((List.mem_cons.1 hmem).resolve_left hc))
      · cases hchanged : (Step.each (mergePredecessor blkInfos b) (M.predecessors b) cds).2 with
        | false =>
            have hsame := Step.quiet_each (fun pred _ => quiet_mergePredecessor b pred) cds hchanged
            rw [hsame]
            exact .inr hsettled
        | true =>
            by_cases hedge : M.Edge b c
            · exact .inl (.inl ⟨rfl, hedge⟩)
            · refine .inr fun pred hpred p hp => (mem_mergePredecessors hc).2 ?_
              have hpb : pred ≠ b := fun heq => hedge (heq ▸ hpred)
              exact hsettled pred hpred p (hp.imp_left (mem_mergePredecessors hpb).1)
  sound := by
    refine Step.each_keeps (P := fun cds' : B → Finset I =>
      ∀ c, ∀ p ∈ cds' c, ∃ d, p ∈ blkInfos d ∧ TransGen M.Edge d c) (fun pred hpred s hs => ?_) h.sound
    have hedge : M.Edge pred b := (M.mem_predecessors _ _).1 hpred
    intro c p hp
    obtain hp | ⟨rfl, hp | hp⟩ := mem_mergePredecessor.1 hp
    · exact hs c p hp
    · obtain ⟨d, hd, hway⟩ := hs pred p hp
      exact ⟨d, hd, hway.tail hedge⟩
    · exact ⟨pred, hp, .single hedge⟩

/-- The work ends, and every block has the calls from which a path leads to it. -/
theorem exists_cds [Fintype B] [Fintype I] {keys : List B}
    (hkeys : ∀ b, blkInfos b ≠ [] → b ∈ keys) : ∃ fuel cds,
      Requeue.run (fun b => Step.each (mergePredecessor blkInfos b) (M.predecessors b))
        M.successors fuel (M.initialQueue keys) (fun _ => ∅) = some cds ∧
      ∀ b p, p ∈ cds b ↔ ∃ c, p ∈ blkInfos c ∧ TransGen M.Edge c b := by
  obtain ⟨fuel, cds, hrun⟩ : ∃ fuel cds,
      Requeue.run (fun b => Step.each (mergePredecessor blkInfos b) (M.predecessors b))
        M.successors fuel (M.initialQueue keys) (fun _ => ∅) = some cds :=
    Requeue.exists_run missing (fun _ _ => missing_mergePredecessors)
      (fun b => Step.quiet_each fun pred _ => quiet_mergePredecessor b pred) _ _
  refine ⟨fuel, cds, hrun, ?_⟩
  have hstart : M.Invariant blkInfos (M.initialQueue keys) fun _ => ∅ := by
    refine ⟨fun b => ?_, fun b p hp => absurd hp (Finset.notMem_empty p)⟩
    by_cases hb : b ∈ M.initialQueue keys
    · exact .inl hb
    · refine .inr fun pred hpred p hp => ?_
      obtain hp | hp := hp
      · exact hp
      · refine absurd (List.mem_reverse.2 (List.mem_flatMap.2 ⟨pred, hkeys pred ?_, hpred⟩)) hb
        exact List.ne_nil_of_mem hp
  -- with the queue empty every block is settled
  have hend : M.Invariant blkInfos [] cds :=
    Requeue.run_induction (fun b queue s hs => hs.turn) hstart hrun
  have hsettled : ∀ b, M.Settled blkInfos cds b := fun b =>
    (hend.settled b).resolve_left List.not_mem_nil
  refine fun b p => ⟨hend.sound b p, ?_⟩
  rintro ⟨c, hp, hway⟩
  induction hway with
  | single hedge => exact hsettled _ c hedge p (.inr hp)
  | tail _ hedge ih => exact hsettled _ _ hedge p (.inl ih)

end Cfg

/-! ## Within a block -/

/-- The one stands before the other. -/
def Before (l : List I) (p i : I) : Prop := ∃ l₁ l₂, l = l₁ ++ i :: l₂ ∧ p ∈ l₁

omit [DecidableEq B] in
theorem mem_scanBlock {test : I → Bool} {instructions : List I} (hnodup : instructions.Nodup)
    {p j : I} : ∀ {l done : List I} {m : I → Finset I}, instructions = done ++ l →
      (p ∈ scanBlock (instructions.filter test) l (done.filter test).length m j ↔
        p ∈ m j ∨ (test p = true ∧ ∃ l₁ l₂, l = l₁ ++ j :: l₂ ∧ p ∈ done ++ l₁)) := by
  intro l
  induction l with
  | nil =>
      intro done m _
      refine (or_iff_left ?_).symm
      rintro ⟨-, l₁, l₂, hl, -⟩
      exact List.append_ne_nil_of_right_ne_nil l₁ (List.cons_ne_nil j l₂) hl.symm
  | cons i l ih =>
      intro done m hl
      have hi : i ∉ l := by
        have hright := (List.nodup_append.1 (hl ▸ hnodup)).2.1
        exact (List.nodup_cons.1 hright).1
      have hfilter : instructions.filter test = done.filter test ++ (i :: l).filter test := by
        rw [hl, List.filter_append]
      have htake : (instructions.filter test).take (done.filter test).length = done.filter test := by
        rw [hfilter, List.take_left]
      -- the index counts the tested instructions before this one
      have hnext : (if (instructions.filter test)[(done.filter test).length]? = some i
          then (done.filter test).length + 1 else (done.filter test).length) =
          ((done ++ [i]).filter test).length := by
        rw [hfilter, List.getElem?_append_right (Nat.le_refl _), Nat.sub_self, List.filter_append,
          List.length_append]
        by_cases htest : test i = true
        · rw [List.filter_cons_of_pos htest, List.filter_cons_of_pos htest]
          exact if_pos rfl
        · rw [List.filter_cons_of_neg htest, List.filter_cons_of_neg htest]
          refine if_neg fun h => hi ?_
          exact List.mem_of_mem_filter (List.mem_of_getElem? h)
      rw [scanBlock, hnext, htake, ih (by rw [hl, List.append_assoc, List.singleton_append])]
      by_cases hj : j = i
      · subst hj
        -- the instruction stands once in the block: here, and not in the rest
        have hfirst : (∃ l₁ l₂, j :: l = l₁ ++ j :: l₂ ∧ p ∈ done ++ l₁) ↔ p ∈ done := by
          refine ⟨?_, fun hp => ⟨[], l, rfl, List.mem_append_left _ hp⟩⟩
          rintro ⟨l₁, l₂, hsplit, hp⟩
          obtain ⟨rfl, -⟩ | ⟨l₁, rfl, rfl⟩ := List.cons_eq_append_iff.1 hsplit
          · rwa [List.append_nil] at hp
          · exact absurd (List.mem_append_right l₁ List.mem_cons_self) hi
        have hlater : ¬ ∃ l₁ l₂, l = l₁ ++ j :: l₂ ∧ p ∈ done ++ [j] ++ l₁ := by
          rintro ⟨l₁, l₂, rfl, -⟩
          exact hi (List.mem_append_right l₁ List.mem_cons_self)
        rw [hfirst, Function.update_self, Finset.mem_union, List.mem_toFinset, List.mem_filter]
        simp only [hlater, and_false, or_false]
        exact or_congr_right and_comm
      · have hrest : (∃ l₁ l₂, i :: l = l₁ ++ j :: l₂ ∧ p ∈ done ++ l₁) ↔
            ∃ l₁ l₂, l = l₁ ++ j :: l₂ ∧ p ∈ done ++ [i] ++ l₁ := by
          constructor
          · rintro ⟨l₁, l₂, hsplit, hp⟩
            obtain ⟨-, heq⟩ | ⟨l₁, rfl, rfl⟩ := List.cons_eq_append_iff.1 hsplit
            · exact absurd (List.cons.inj heq).1 hj
            · exact ⟨l₁, l₂, rfl, by rwa [List.append_assoc, List.singleton_append]⟩
          · rintro ⟨l₁, l₂, rfl, hp⟩
            exact ⟨i :: l₁, l₂, rfl, by rwa [List.append_assoc, List.singleton_append] at hp⟩
        rw [hrest, Function.update_of_ne hj]

namespace Cfg

variable {M : Cfg Fn B I}

/-- The instructions of all blocks with calls. -/
theorem mem_instrCD {blkInfos : B → List I} {test : I → Bool} {keys : List B}
    (hkeys : ∀ b ∈ keys, blkInfos b = (M.instructions b).filter test) {p j : I} :
    p ∈ keys.foldl (fun m b => scanBlock (blkInfos b) (M.instructions b) 0 m) (fun _ => ∅) j ↔
      M.parent j ∈ keys ∧ test p = true ∧ Before (M.instructions (M.parent j)) p j := by
  have hloop : ∀ (l : List B) (m : I → Finset I),
      (∀ b ∈ l, blkInfos b = (M.instructions b).filter test) →
      (p ∈ l.foldl (fun m b => scanBlock (blkInfos b) (M.instructions b) 0 m) m j ↔
        p ∈ m j ∨ (M.parent j ∈ l ∧ test p = true ∧
          Before (M.instructions (M.parent j)) p j)) := by
    intro l
    induction l with
    | nil => exact fun m _ => (or_iff_left fun h => absurd h.1 List.not_mem_nil).symm
    | cons b l ih =>
        intro m hl
        obtain ⟨hb, hl⟩ := List.forall_mem_cons.1 hl
        have hscan : p ∈ scanBlock ((M.instructions b).filter test) (M.instructions b) 0 m j ↔
            p ∈ m j ∨ (test p = true ∧ Before (M.instructions b) p j) :=
          mem_scanBlock (M.nodup_instructions b) (List.nil_append _).symm
        have hparent : (test p = true ∧ Before (M.instructions b) p j) ↔
            M.parent j = b ∧ test p = true ∧ Before (M.instructions (M.parent j)) p j := by
          refine ⟨fun h => ?_, fun h => h.1 ▸ h.2⟩
          obtain ⟨htest, l₁, l₂, hl, hp⟩ := h
          have hj : M.parent j = b :=
            M.parent_of_mem b j (hl ▸ List.mem_append_right l₁ List.mem_cons_self)
          exact ⟨hj, htest, hj.symm ▸ ⟨l₁, l₂, hl, hp⟩⟩
        rw [List.foldl_cons, ih _ hl, hb, hscan, hparent, List.mem_cons]
        tauto
  rw [hloop keys _ hkeys]
  exact or_iff_right (Finset.notMem_empty p)

variable (M)

/-- A call of the function that may not return: a called function has points of no return. -/
def NoretCall (s : FuncInfos Fn I) (F : Fn) (p : I) : Prop :=
  M.HasCall F p ∧ ∃ G, M.CalledAt p G ∧ ∃ noret ∈ s G, noret ≠ ∅

variable {M}

omit [DecidableEq B] in
theorem noretCall_iff {s : FuncInfos Fn I} {F : Fn} {p : I} : M.NoretCall s F p ↔
    M.parent p ∈ M.blocks F ∧ p ∈ M.instructions (M.parent p) ∧ M.mayNotReturnAt s p = true := by
  have htest : M.mayNotReturnAt s p = true ↔ M.isCall p = true ∧
      ∃ G, M.CalledAt p G ∧ ∃ noret ∈ s G, noret ≠ ∅ := by
    simp [Module.mayNotReturnAt, Module.CalledAt, and_assoc, Option.any_eq_true]
  rw [htest]
  constructor
  · rintro ⟨⟨b, hb, hp, hcall⟩, hG⟩
    obtain rfl := M.parent_of_mem b p hp
    exact ⟨hb, hp, hcall, hG⟩
  · rintro ⟨hb, hp, hcall, hG⟩
    exact ⟨⟨_, hb, hp, hcall⟩, hG⟩

/-- **An instruction depends on just the calls before it**, in its block or on a path to its block. -/
theorem mem_getDependencies_iff [Fintype B] [Fintype I] (M : Cfg Fn B I) (order : HashOrder B)
    (s : FuncInfos Fn I) (F : Fn)
    (hknown : ∀ C, M.HasCall F C → ∀ G, M.CalledAt C G → (s G).isSome) :
    ∃ fuel r, M.computeCD order fuel s F = some r ∧ ∀ i p, p ∈ M.getDependencies r i ↔
      M.NoretCall s F p ∧ (Before (M.instructions (M.parent i)) p i ∨
        TransGen M.Edge (M.parent p) (M.parent i)) := by
  have hinfos := Module.computeBlkInfos_eq hknown
  obtain ⟨blkInfos, hblk⟩ : ∃ blkInfos : B → List I, blkInfos = fun b =>
      if b ∈ M.blocks F then (M.instructions b).filter (M.mayNotReturnAt s) else [] := ⟨_, rfl⟩
  rw [← hblk] at hinfos
  have hmem : ∀ b p, p ∈ blkInfos b ↔
      b ∈ M.blocks F ∧ p ∈ M.instructions b ∧ M.mayNotReturnAt s p = true := by
    intro b p
    rw [hblk]
    by_cases hb : b ∈ M.blocks F
    · simp [hb, List.mem_filter]
    · simp [hb]
  have hkeys : ∀ b, b ∈ order.val ((M.blocks F).filter fun b => !(blkInfos b).isEmpty) ↔
      blkInfos b ≠ [] := by
    intro b
    rw [(order.property _).mem_iff, List.mem_filter]
    simp only [Bool.not_eq_true', List.isEmpty_eq_false_iff]
    refine and_iff_right_of_imp fun hne => ?_
    obtain ⟨p, hp⟩ := List.exists_mem_of_ne_nil _ hne
    exact ((hmem b p).1 hp).1
  obtain ⟨fuel, cds, hrun, hcds⟩ := exists_cds (M := M) fun b => (hkeys b).2
  refine ⟨fuel, _, Option.bind_eq_some_iff.2 ⟨blkInfos, hinfos,
    Option.bind_eq_some_iff.2 ⟨cds, hrun, rfl⟩⟩, fun i p => ?_⟩
  have hblock : p ∈ cds (M.parent i) ↔
      M.NoretCall s F p ∧ TransGen M.Edge (M.parent p) (M.parent i) := by
    rw [hcds, noretCall_iff]
    constructor
    · rintro ⟨c, hp, hway⟩
      have hc := (hmem c p).1 hp
      obtain rfl := M.parent_of_mem c p hc.2.1
      exact ⟨hc, hway⟩
    · rintro ⟨hp, hway⟩
      exact ⟨_, (hmem _ p).2 hp, hway⟩
  have hfilter : ∀ b ∈ order.val ((M.blocks F).filter fun b => !(blkInfos b).isEmpty),
      blkInfos b = (M.instructions b).filter (M.mayNotReturnAt s) := by
    intro b hb
    have hF : b ∈ M.blocks F := (List.mem_filter.1 ((order.property _).mem_iff.1 hb)).1
    rw [hblk]
    exact if_pos hF
  show p ∈ _ ∪ cds (M.parent i) ↔ _
  rw [Finset.mem_union, mem_instrCD hfilter, hblock, noretCall_iff, and_or_left]
  refine or_congr_left ⟨fun h => ?_, fun h => ⟨?_, h.1.2.2, h.2⟩⟩
  · obtain ⟨hi, htest, l₁, l₂, hl, hp⟩ := h
    -- the call is in the block of the instruction
    have hin : p ∈ M.instructions (M.parent i) := hl ▸ List.mem_append_left _ hp
    have hpar : M.parent p = M.parent i := M.parent_of_mem _ p hin
    have hF : M.parent i ∈ M.blocks F :=
      (List.mem_filter.1 ((order.property _).mem_iff.1 hi)).1
    exact ⟨⟨hpar ▸ hF, hpar.symm ▸ hin, htest⟩, l₁, l₂, hl, hp⟩
  · obtain ⟨⟨hF, hin, htest⟩, l₁, l₂, hl, hp⟩ := h
    have hpar : M.parent p = M.parent i := M.parent_of_mem _ p (hl ▸ List.mem_append_left _ hp)
    exact (hkeys _).2 (List.ne_nil_of_mem ((hmem _ p).2 ⟨hpar ▸ hF, hpar ▸ hin, htest⟩))

end Cfg

end

/-! ## A call in a loop -/

/-- A function (`false`) with the call 1 of another one (`true`) in a block that comes back to
itself, and a block that returns. -/
def loopedCall : Cfg Bool (Fin 2) (Fin 4) where
  isDeclaration _ := false
  blocks F := if F then [] else [0, 1]
  instructions := ![[0, 1, 2], [3]]
  terminator := ![2, 3]
  successors := ![[0, 1], []]
  isCall i := i = 1
  isReturn i := i = 3
  getCalledFunctions _ := [true]
  terminator_not_call := by decide
  predecessors := ![[0], [0]]
  parent := ![0, 0, 0, 1]
  mem_predecessors := by decide
  parent_of_mem := by decide
  nodup_instructions := by decide

theorem mem_getDependencies_loopedCall : ∃ fuel r,
    loopedCall.computeCD ⟨id, List.Perm.refl⟩ fuel (fun _ => some {3}) false = some r ∧
      ∀ i p, p ∈ loopedCall.getDependencies r i ↔
        loopedCall.NoretCall (fun _ => some {3}) false p ∧
          (Before (loopedCall.instructions (loopedCall.parent i)) p i ∨
            TransGen loopedCall.Edge (loopedCall.parent p) (loopedCall.parent i)) :=
  loopedCall.mem_getDependencies_iff ⟨id, List.Perm.refl⟩ (fun _ => some {3}) false
    fun _ _ _ _ => rfl

end Cape.ControlDependence.InterprocCD
