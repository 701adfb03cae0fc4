import Cape.PointerAnalysis.CallBuilding
import Mathlib.Data.Fintype.Card

/-!
# Calls connected with their functions, over whole runs

A run is the graph that `buildLLVMPointerGraph` makes, and then the function pointers that the
analysis resolves, in any order. `wired_of_run`: every call has its operands, when no call that is
built in advance is behind a cast, and no function that is built later has a RETURN at or after a
call that leads back to it. `Functions` has a call of each kind that misses operands.
-/

set_option autoImplicit false

namespace Cape.PointerAnalysis.Interprocedural

open Cape.Library Relation

universe u v

variable {Fn : Type u} {I : Type v} [DecidableEq Fn] [DecidableEq I]

namespace Module

variable (M : Module Fn I)

/-- Every call of a function has its arguments among the operands of the formal ones, and the RETURN
nodes among the operands and the returns of its CALL_RETURN node. -/
def CompletelyWired (s : State Fn I) : Prop :=
  ∀ i ∈ s.nodes, ∀ F, (M.callee i = some F ∨ F ∈ s.callees i) →
    (∀ k < M.formals F, M.TakesArgument s i F k) ∧ ∀ r ∈ s.returnNodes F, s.TakesReturn i r

/-- The analysis finds that the pointer of a call points to a function. -/
def Resolves (i : I) (F : Fn) (s s' : State Fn I) : Prop :=
  i ∈ s.nodes ∧ (∃ args, M.code i = .callPointer args ∧ M.formals F ≤ args.length) ∧
    ∃ depth, M.insertFunctionCall depth i F s = some s'

/-- The called functions are not behind casts. -/
def Uncasted (s : State Fn I) : Prop := ∀ i ∈ s.nodes, ∀ F args, M.code i ≠ .call F true args

variable {M}

omit [DecidableEq I] in
/-- The uses of a function are the calls without a cast. -/
theorem mem_users_iff {i : I} {F : Fn} :
    i ∈ M.users F ↔ i ∈ M.instructions ∧ ∃ args, M.code i = .call F false args := by
  rw [users, List.mem_filter]
  apply and_congr_right
  intro _
  cases M.code i with
  | call G casted args => cases casted <;> simp
  | _ => simp

omit [DecidableEq I] in
theorem mem_users {i : I} {F : Fn} (hplaced : M.Placed i) (hF : M.callee i = some F)
    (hcast : ∀ G args, M.code i ≠ .call G true args) : i ∈ M.users F := by
  rcases hplaced with ⟨G, hG⟩
  rw [mem_users_iff]
  refine ⟨M.mem_instructions G i hG, ?_⟩
  rw [callee] at hF
  split at hF
  · next G casted args hcode =>
      obtain rfl := Option.some.inj hF
      cases casted with
      | true => exact absurd hcode (hcast G args)
      | false => exact ⟨args, hcode⟩
  · exact absurd hF.symm (Option.some_ne_none F)

omit [DecidableEq I] in
theorem callee_of_mem_users {i : I} {F : Fn} (hi : i ∈ M.users F) : M.callee i = some F := by
  rcases mem_users_iff.1 hi with ⟨-, args, hcode⟩
  rw [callee, hcode]

theorem inv_empty : M.Inv [] (.empty : State Fn I) where
  placed i hi := absurd hi (Finset.notMem_empty i)
  settled i hi := absurd hi (Finset.notMem_empty i)
  called _ _ hF := absurd hF List.not_mem_nil
  direct i hi := absurd hi (Finset.notMem_empty i)
  isReturn _ _ hr := absurd hr List.not_mem_nil
  gathered _ hF := absurd hF List.not_mem_nil
  wired hadHoc := absurd hadHoc Bool.false_ne_true

/-- All RETURN nodes are gathered, when no function is under construction. -/
theorem Inv.complete {s : State Fn I} (h : M.Inv [] s) {F : Fn} (hF : F ∈ s.subgraphs) {r : I}
    (hr : M.IsReturn F r) : r ∈ s.returnNodes F := by
  obtain hr | ⟨f, hf, -⟩ := h.gathered F hF r hr
  · exact hr
  · exact absurd hf List.not_mem_nil

/-- The graph is connected in advance. -/
theorem Inv.start {s s' : State Fn I} (h : M.Inv [] s) (hadHoc : s.adHoc = false)
    (hcast : M.Uncasted s) (hs : M.addProgramStructure s = some s') :
    M.Inv [] { s' with adHoc := true } := by
  obtain ⟨hadds, hwired⟩ := addProgramStructure_spec hs
  refine ⟨fun i hi => ?_, fun i hi v hv => ?_, fun i F hF => ?_, fun i hi F hF => ?_,
    fun F r hr => ?_, fun F hF r hr => ?_, fun _ i F hF => ?_⟩
  · exact h.placed i (hadds.nodes ▸ hi)
  · obtain ⟨n, hn⟩ | hj := (h.settled i (hadds.nodes ▸ hi) v hv).grows hadds.grows
    · exact .inl ⟨n, hn⟩
    · exact .inr hj
  · obtain ⟨hi, hsub, -⟩ := h.called i F (hadds.callees ▸ hF)
    exact ⟨hadds.nodes.symm ▸ hi, hadds.subgraphs.symm ▸ hsub, nofun⟩
  · exact hadds.callees.symm ▸ h.direct i (hadds.nodes ▸ hi) F hF
  · exact h.isReturn F r (hadds.returnNodes ▸ hr)
  · exact .inl (hadds.returnNodes.symm ▸ h.complete (hadds.subgraphs ▸ hF) hr)
  · obtain ⟨hi, hsub, honly⟩ := h.called i F (hadds.callees ▸ hF)
    obtain ⟨hargs, hrets⟩ := hwired F hsub i (mem_users (h.placed i hi) (honly hadHoc) (hcast i hi))
    exact ⟨hargs, fun r hr => hrets hi r (h.complete hsub hr)⟩

theorem inv_built {depth : Nat} {entry : Fn} {s : State Fn I}
    (h : M.buildLLVMPointerGraph depth entry = some s) (hcast : M.Uncasted s) :
    M.Inv [] s ∧ s.adHoc = true := by
  obtain ⟨s₁, hs₁, h⟩ := Option.bind_eq_some_iff.1 h
  obtain ⟨s₂, hs₂, h⟩ := Option.bind_eq_some_iff.1 h
  obtain rfl := Option.some.inj h
  have hleads : M.Leads [] (.empty : State Fn I) entry :=
    ⟨fun f hf => absurd hf List.not_mem_nil, fun hadHoc => absurd hadHoc Bool.false_ne_true,
      fun hadHoc => absurd hadHoc Bool.false_ne_true⟩
  obtain ⟨hinv, hgrows, -⟩ := buildFunction_spec (createOrGetSubgraph_spec depth) inv_empty hleads
    List.not_mem_nil hs₁
  refine ⟨hinv.start hgrows.adHoc (fun i hi => hcast i ?_) hs₂, rfl⟩
  exact (addProgramStructure_spec hs₂).1.nodes.symm ▸ hi

/-- Resolving a function pointer keeps the invariant. -/
theorem Inv.resolve {i : I} {F : Fn} {s s' : State Fn I} (h : M.Inv [] s) (hadHoc : s.adHoc = true)
    (hearly : M.ReturnsEarly s F) (hs : M.Resolves i F s s') :
    M.Inv [] s' ∧ s'.adHoc = true := by
  obtain ⟨hi, ⟨args, hcode, -⟩, depth, hs⟩ := hs
  obtain ⟨s₁, hs₁, hs⟩ := Option.bind_eq_some_iff.1 hs
  have hleads : M.Leads [] s F :=
    ⟨fun f hf => absurd hf List.not_mem_nil, fun _ f hf => absurd hf List.not_mem_nil,
      fun _ => hearly⟩
  obtain ⟨hinv, hgrows, hbuilt⟩ := createOrGetSubgraph_spec depth [] F s s₁ h hleads hs₁
  obtain ⟨hadds, hargs, hrets⟩ := addInterproceduralOperands_spec hs
  have hadHoc₁ : s₁.adHoc = true := hgrows.adHoc.trans hadHoc
  have hi₁ : i ∈ s₁.nodes := hgrows.nodes hi
  have hnode : s'.addNode i = s' := by
    have hmem : i ∈ s'.nodes := hadds.nodes.symm ▸ hi₁
    rw [State.addNode, Finset.insert_eq_of_mem hmem]
  rw [← hnode]
  refine ⟨hinv.connect hbuilt (hinv.placed i hi₁) (hinv.settled i hi₁) (fun G hG => ?_)
    (fun hnot => absurd (hadHoc₁.symm.trans hnot) Bool.true_eq_false_eq_False) hadds fun _ => ?_,
    hadds.adHoc.trans hadHoc₁⟩
  · rw [callee, hcode] at hG
    exact absurd hG.symm (Option.some_ne_none G)
  · refine ⟨fun k hk => hargs k hk i List.mem_cons_self, fun r hr => ?_⟩
    exact hrets r (hinv.complete hbuilt hr) i List.mem_cons_self

theorem Inv.completelyWired {s : State Fn I} (h : M.Inv [] s) (hadHoc : s.adHoc = true) :
    M.CompletelyWired s := by
  intro i hi F hF
  have hcallee : F ∈ s.callees i := by
    obtain hF | hF := hF
    · exact h.direct i hi F hF
    · exact hF
  obtain ⟨hargs, hrets⟩ := h.wired hadHoc i F hcallee
  exact ⟨hargs, fun r hr => hrets r (h.isReturn F r hr)⟩

/-- **Calls are completely connected in every run**, when none that is built in advance is behind a
cast, and functions that are built later return early. -/
theorem wired_of_run {depth : Nat} {entry : Fn} {s₀ s : State Fn I}
    (hbuilt : M.buildLLVMPointerGraph depth entry = some s₀) (hcast : M.Uncasted s₀)
    (hrun : ReflTransGen (fun t t' => ∃ i F, M.Resolves i F t t' ∧ M.ReturnsEarly t F) s₀ s) :
    M.CompletelyWired s := by
  have hinv : M.Inv [] s ∧ s.adHoc = true := by
    induction hrun with
    | refl => exact inv_built hbuilt hcast
    | tail _ hstep ih =>
        obtain ⟨i, F, hs, hearly⟩ := hstep
        exact ih.1.resolve ih.2 hearly hs
  exact hinv.1.completelyWired hinv.2

/-! ## Building ends -/

variable (M)

/-- The calls have an actual argument for each formal one. -/
def EnoughArguments : Prop :=
  ∀ i F, M.callee i = some F → M.formals F ≤ (M.code i).args.length

variable {M}

theorem exists_addArgumentOperands {args : List (Value Fn I)} {idx : Nat}
    (hidx : idx < args.length) (arg : Node Fn I) (s : State Fn I) :
    ∃ s', M.addArgumentOperands args arg idx s = some s' := by
  have hv : args[idx]? = some args[idx] := List.getElem?_eq_getElem hidx
  cases hop : M.tryGetOperand s args[idx] with
  | none => exact ⟨s, Option.bind_eq_some_iff.2 ⟨args[idx], hv, by rw [hop]⟩⟩
  | some op =>
      exact ⟨s.addOperand arg op, Option.bind_eq_some_iff.2 ⟨args[idx], hv, by rw [hop]⟩⟩

theorem exists_addInterproceduralOperands (F : Fn) (call : Option I)
    (hargs : ∀ i ∈ call.elim (M.users F) fun i => [i], M.formals F ≤ (M.code i).args.length)
    (s : State Fn I) : ∃ s', M.addInterproceduralOperands F call s = some s' := by
  obtain ⟨s₁, hs₁, -⟩ : ∃ s', M.addArgumentsOperands F call s = some s' ∧ True := by
    refine FallibleLoop.exists_foldlM (fun k hk t _ => ?_) trivial
    refine FallibleLoop.exists_foldlM (fun i hi u _ => ?_) trivial
    obtain ⟨u', hu'⟩ := exists_addArgumentOperands (M := M)
      ((List.mem_range.1 hk).trans_le (hargs i hi)) (.argument F k) u
    exact ⟨u', hu', trivial⟩
  obtain ⟨s₂, hs₂, -⟩ : ∃ s', M.addVariadicArgumentOperands F call s₁ = some s' ∧ True := by
    refine FallibleLoop.exists_foldlM (fun i _ t _ => ?_) trivial
    refine FallibleLoop.exists_foldlM (fun k hk u _ => ?_) trivial
    have hlt : k < (M.code i).args.length := by
      rw [variadicIndices] at hk
      split at hk
      · exact absurd hk List.not_mem_nil
      · exact List.mem_range.1 (List.mem_filter.1 hk).1
    obtain ⟨u', hu'⟩ := exists_addArgumentOperands (M := M) hlt (.vararg F) u
    exact ⟨u', hu', trivial⟩
  have hvar : ∃ s₂, (if M.isVarArg F then M.addVariadicArgumentOperands F call s₁ else some s₁) =
      some s₂ := by
    split
    · exact ⟨s₂, hs₂⟩
    · exact ⟨s₁, rfl⟩
  obtain ⟨s₃, hs₃⟩ := hvar
  exact ⟨M.addReturnNodesOperands F call s₃, Option.bind_eq_some_iff.2
    ⟨s₁, hs₁, Option.bind_eq_some_iff.2 ⟨s₃, hs₃, rfl⟩⟩⟩

theorem exists_createCallToFunction (henough : M.EnoughArguments) {i : I} {G : Fn}
    (hG : M.callee i = some G) {s s₁ : State Fn I}
    {create : Fn → State Fn I → Option (State Fn I)} (hs₁ : create G s = some s₁) :
    ∃ s', M.createCallToFunction create i G s = some s' ∧ s₁.subgraphs ⊆ s'.subgraphs := by
  obtain ⟨s₂, hs₂⟩ := exists_addInterproceduralOperands (M := M) G (some i)
    (fun j hj => List.mem_singleton.1 hj ▸ henough i G hG) (s₁.connect i G)
  by_cases hadHoc : (s₁.connect i G).adHoc = true
  · refine ⟨s₂.addNode i, Option.bind_eq_some_iff.2 ⟨s₁, hs₁, Option.bind_eq_some_iff.2
      ⟨s₂, (if_pos hadHoc).trans hs₂, rfl⟩⟩, ?_⟩
    exact (addInterproceduralOperands_spec hs₂).1.grows.subgraphs
  · exact ⟨(s₁.connect i G).addNode i, Option.bind_eq_some_iff.2 ⟨s₁, hs₁, Option.bind_eq_some_iff.2
      ⟨s₁.connect i G, if_neg hadHoc, rfl⟩⟩, List.Subset.refl _⟩

/-- Building a function ends: there are fewer functions left at each call. -/
theorem exists_buildFunction (henough : M.EnoughArguments)
    {create : Fn → State Fn I → Option (State Fn I)} {F : Fn} {s : State Fn I}
    (hcreate : ∀ G (t : State Fn I), s.subgraphs ++ [F] ⊆ t.subgraphs →
      ∃ t', create G t = some t' ∧ t.subgraphs ⊆ t'.subgraphs) :
    ∃ s', M.buildFunction create F s = some s' ∧ s.subgraphs ++ [F] ⊆ s'.subgraphs := by
  refine FallibleLoop.exists_foldlM (I := fun t : State Fn I => s.subgraphs ++ [F] ⊆ t.subgraphs)
    (fun block _ t ht => ?_) (List.Subset.refl _)
  obtain ⟨t₁, ht₁, hsub⟩ : ∃ t', block.foldlM (M.buildInstruction create) t = some t' ∧
      s.subgraphs ++ [F] ⊆ t'.subgraphs := by
    refine FallibleLoop.exists_foldlM (I := fun t : State Fn I => s.subgraphs ++ [F] ⊆ t.subgraphs)
      (fun i _ u hu => ?_) ht
    cases hG : M.callee i with
    | none => exact ⟨u.addNode i, buildInstruction_other hG, hu⟩
    | some G =>
        obtain ⟨u₁, hu₁, hsub₁⟩ := hcreate G u hu
        obtain ⟨u', hu', hsub'⟩ := exists_createCallToFunction henough hG hu₁
        refine ⟨u', (buildInstruction_call hG).trans hu', ?_⟩
        exact List.Subset.trans hu (List.Subset.trans hsub₁ hsub')
  cases hend : M.endsWith block with
  | none => exact ⟨t₁, Option.bind_eq_some_iff.2 ⟨t₁, ht₁, by rw [hend]⟩, hsub⟩
  | some r =>
      refine ⟨{ t₁ with returnNodes := addTo t₁.returnNodes F r }, ?_, hsub⟩
      exact Option.bind_eq_some_iff.2 ⟨t₁, ht₁, by rw [hend]⟩

section

variable [Fintype Fn]

/-- The functions that are not built. -/
def unbuilt (s : State Fn I) : Finset Fn := Finset.univ.filter (· ∉ s.subgraphs)

omit [DecidableEq I] in
theorem unbuilt_subset {s s' : State Fn I} (h : s.subgraphs ⊆ s'.subgraphs) :
    unbuilt s' ⊆ unbuilt s := by
  intro F hF
  refine Finset.mem_filter.2 ⟨Finset.mem_univ F, fun hmem => ?_⟩
  exact (Finset.mem_filter.1 hF).2 (h hmem)

theorem exists_createOrGetSubgraph (henough : M.EnoughArguments) {depth : Nat} {F : Fn}
    {s : State Fn I} (hdepth : (unbuilt s).card < depth) :
    ∃ s', M.createOrGetSubgraph depth F s = some s' ∧ s.subgraphs ⊆ s'.subgraphs := by
  induction depth generalizing F s with
  | zero => exact absurd hdepth (Nat.not_lt_zero _)
  | succ depth ih =>
      rw [createOrGetSubgraph]
      split
      · exact ⟨s, rfl, List.Subset.refl _⟩
      · next hF =>
          have hcreate : ∀ G (t : State Fn I), s.subgraphs ++ [F] ⊆ t.subgraphs →
              ∃ t', M.createOrGetSubgraph depth G t = some t' ∧ t.subgraphs ⊆ t'.subgraphs := by
            intro G t ht
            have hsub : unbuilt t ⊆ unbuilt s :=
              unbuilt_subset (List.Subset.trans (List.subset_append_left _ _) ht)
            have hlt : unbuilt t ⊂ unbuilt s := by
              refine Finset.ssubset_iff_subset_ne.2 ⟨hsub, fun heq => ?_⟩
              have hmem : F ∈ unbuilt t := heq ▸ Finset.mem_filter.2 ⟨Finset.mem_univ F, hF⟩
              exact (Finset.mem_filter.1 hmem).2 (ht (List.mem_append_right _ List.mem_cons_self))
            exact ih ((Finset.card_lt_card hlt).trans_le (Nat.lt_succ_iff.1 hdepth))
          obtain ⟨s', hs', hsub⟩ := exists_buildFunction henough hcreate
          exact ⟨s', hs', List.Subset.trans (List.subset_append_left _ _) hsub⟩

/-- The graph is built with a depth for each function. -/
theorem exists_buildLLVMPointerGraph (henough : M.EnoughArguments) (entry : Fn) :
    ∃ s, M.buildLLVMPointerGraph (Fintype.card Fn + 1) entry = some s := by
  have hcreate : ∀ G (t : State Fn I), (State.empty : State Fn I).subgraphs ++ [entry] ⊆ t.subgraphs →
      ∃ t', M.createOrGetSubgraph (Fintype.card Fn + 1) G t = some t' ∧
        t.subgraphs ⊆ t'.subgraphs :=
    fun G t _ => exists_createOrGetSubgraph henough
      (Nat.lt_succ_of_le (Finset.card_le_univ (unbuilt t)))
  obtain ⟨s₁, hs₁, -⟩ := exists_buildFunction henough hcreate
  obtain ⟨s₂, hs₂, -⟩ : ∃ s', M.addProgramStructure s₁ = some s' ∧ True := by
    refine FallibleLoop.exists_foldlM (fun F _ t _ => ?_) trivial
    obtain ⟨t', ht'⟩ := exists_addInterproceduralOperands (M := M) F none
      (fun i hi => henough i F (callee_of_mem_users hi)) t
    exact ⟨t', ht', trivial⟩
  exact ⟨{ s₂ with adHoc := true }, Option.bind_eq_some_iff.2
    ⟨s₁, hs₁, Option.bind_eq_some_iff.2 ⟨s₂, hs₂, rfl⟩⟩⟩

/-- A function pointer can be resolved whenever the call has the arguments. -/
theorem exists_resolves (henough : M.EnoughArguments) {i : I} {F : Fn} {s : State Fn I}
    (hi : i ∈ s.nodes) {args : List (Value Fn I)} (hcode : M.code i = .callPointer args)
    (hargs : M.formals F ≤ args.length) : ∃ s', M.Resolves i F s s' := by
  obtain ⟨s₁, hs₁, -⟩ := exists_createOrGetSubgraph henough (F := F)
    (Nat.lt_succ_self (unbuilt s).card)
  have henough' : M.formals F ≤ (M.code i).args.length := by
    rw [hcode]
    exact hargs
  obtain ⟨s', hs'⟩ := exists_addInterproceduralOperands (M := M) F (some i)
    (fun j hj => List.mem_singleton.1 hj ▸ henough') (s₁.connect i F)
  exact ⟨s', hi, ⟨args, hcode, hargs⟩, _, Option.bind_eq_some_iff.2 ⟨s₁, hs₁, hs'⟩⟩

end

end Module

/-! ## Calls that miss operands -/

namespace Functions

inductive Name where
  | main
  | f
  | g
deriving DecidableEq

/-- `main` calls `f` (0) and a pointer (1); `g` has a call (4), in a block before its RETURN (5). -/
def code (casted : Bool) (last : Name) : Nat → Instruction Name Nat
  | 0 => .call .f casted [.constant 0]
  | 1 => .callPointer [.constant 1]
  | 4 => .call last false [.constant 2]
  | _ => .ret

theorem args_constant {casted : Bool} {last : Name} {v : Value Name Nat} :
    ∀ {i : Nat}, v ∈ (code casted last i).args → ∃ c, v = .constant c
  | 0, hv => ⟨0, List.mem_singleton.1 hv⟩
  | 1, hv => ⟨1, List.mem_singleton.1 hv⟩
  | 4, hv => ⟨2, List.mem_singleton.1 hv⟩
  | 2, hv | 3, hv | _ + 5, hv => absurd hv List.not_mem_nil

def sample (casted : Bool) (last : Name) : Module Name Nat where
  formals
    | .main => 0
    | _ => 1
  isVarArg _ := false
  blocks
    | .main => [[0, 1, 2]]
    | .f => [[3]]
    | .g => [[4], [5]]
  instructions := [0, 1, 2, 3, 4, 5]
  code := code casted last
  mem_instructions F := by cases F <;> decide
  dominated F l₁ i l₂ _ v hv := by
    obtain ⟨c, rfl⟩ := args_constant hv
    trivial

def built (casted : Bool) (last : Name) : State Name Nat :=
  ((sample casted last).buildLLVMPointerGraph 3 .main).getD .empty

def resolved (casted : Bool) (last : Name) : State Name Nat :=
  ((sample casted last).insertFunctionCall 3 1 .g (built casted last)).getD .empty

theorem built_eq (casted : Bool) (last : Name) :
    (sample casted last).buildLLVMPointerGraph 3 .main = some (built casted last) := by
  cases casted <;> cases last <;> rfl

theorem resolves (casted : Bool) (last : Name) :
    (sample casted last).Resolves 1 .g (built casted last) (resolved casted last) := by
  refine ⟨?_, ⟨[.constant 1], rfl, Nat.le_refl 1⟩, 3, ?_⟩
  · cases casted <;> cases last <;> decide
  · cases casted <;> cases last <;> rfl

/-- **A call behind a cast is not connected** when it is built in advance. -/
theorem not_wired_casted :
    (sample true .f).buildLLVMPointerGraph 3 .main = some (built true .f) ∧
      ¬ (sample true .f).CompletelyWired (built true .f) := by
  refine ⟨built_eq true .f, fun h => ?_⟩
  have hnot : 3 ∉ (built true .f).returns 0 := by decide
  exact hnot ((h 0 (by decide) .f (.inl rfl)).2 3 (by decide)).2

/-- **A recursive call misses the RETURN** that is built after it. -/
theorem not_wired_recursive :
    (sample false .g).buildLLVMPointerGraph 3 .main = some (built false .g) ∧
      (sample false .g).Resolves 1 .g (built false .g) (resolved false .g) ∧
        ¬ (sample false .g).CompletelyWired (resolved false .g) := by
  refine ⟨built_eq false .g, resolves false .g, fun h => ?_⟩
  have hnot : 5 ∉ (resolved false .g).returns 4 := by decide
  exact hnot ((h 4 (by decide) .g (.inl rfl)).2 5 (by decide)).2

theorem callee_eq : ∀ {i : Nat} {G : Name}, (sample false .f).callee i = some G → G = .f
  | 0, _, h | 4, _, h => (Option.some.inj h).symm
  | 1, G, h | 2, G, h | 3, G, h | _ + 5, G, h => absurd h.symm (Option.some_ne_none G)

theorem not_calls {G : Name} : ¬ (sample false .f).Calls .f G := by
  rintro ⟨i, hi, hG⟩
  obtain rfl : i = 3 := List.mem_singleton.1 hi
  exact absurd hG.symm (Option.some_ne_none G)

theorem not_lateReturn (F : Name) : ¬ (sample false .f).LateReturn F := by
  rintro ⟨l₁, block, l₂, hblocks, ⟨i, hi, G, hG, hback⟩, -⟩
  obtain rfl := callee_eq hG
  -- `f` has no call, so only `f` can be reached from it, and it would have this call
  obtain rfl | ⟨H, hH, -⟩ := hback.cases_head
  · refine not_calls ⟨i, List.mem_flatten.2 ⟨block, ?_, hi⟩, hG⟩
    exact hblocks ▸ List.mem_append_right l₁ List.mem_cons_self
  · exact not_calls hH

theorem uncasted : (sample false .f).Uncasted (built false .f) := by
  intro i _ F args hcode
  have hcast : ∀ {i : Nat}, code false .f i ≠ .call F true args
    | 0 | 1 | 4 | 2 | 3 | _ + 5 => nofun
  exact hcast hcode

/-- All calls are connected when `g` calls `f`. -/
theorem wired_resolved : (sample false .f).CompletelyWired (resolved false .f) := by
  refine Module.wired_of_run (built_eq false .f) uncasted (.single ⟨1, .g, resolves false .f, ?_⟩)
  exact fun G _ _ => not_lateReturn G

end Functions

end Cape.PointerAnalysis.Interprocedural
