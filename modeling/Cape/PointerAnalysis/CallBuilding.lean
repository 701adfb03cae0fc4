import Cape.PointerAnalysis.Wiring
import Mathlib.Logic.Relation

/-!
# What holds while functions are built

`Inv O s`: every call that has its callees is connected with each, when the analysis already runs.
`O` are the functions under construction, each with the blocks whose RETURN nodes are not gathered.
A call of such a function is connected with the RETURN nodes that are there by then; when a block
that leads back to the function comes before no RETURN, these are all (`Leads.complete`).
`createOrGetSubgraph_spec` shows that building keeps `Inv`.
-/

set_option autoImplicit false

namespace Cape.PointerAnalysis.Interprocedural

open Cape.Library Relation

universe u v

variable {Fn : Type u} {I : Type v} [DecidableEq Fn] [DecidableEq I]

/-- Nothing that a call takes gets lost. -/
structure Grows (s s' : State Fn I) : Prop where
  adHoc : s'.adHoc = s.adHoc
  subgraphs : s.subgraphs ⊆ s'.subgraphs
  nodes : s.nodes ⊆ s'.nodes
  operands : ∀ n, s.operands n ⊆ s'.operands n
  returns : ∀ i, s.returns i ⊆ s'.returns i

namespace Grows

omit [DecidableEq Fn] [DecidableEq I]

theorem refl (s : State Fn I) : Grows s s :=
  ⟨rfl, List.Subset.refl _, Finset.Subset.refl _, fun _ => List.Subset.refl _,
    fun _ => List.Subset.refl _⟩

theorem trans {s t u : State Fn I} (h : Grows s t) (k : Grows t u) : Grows s u where
  adHoc := k.adHoc.trans h.adHoc
  subgraphs := List.Subset.trans h.subgraphs k.subgraphs
  nodes := Finset.Subset.trans h.nodes k.nodes
  operands n := List.Subset.trans (h.operands n) (k.operands n)
  returns i := List.Subset.trans (h.returns i) (k.returns i)

end Grows

omit [DecidableEq Fn] [DecidableEq I] in
theorem Adds.grows {s s' : State Fn I} (h : Adds s s') : Grows s s' where
  adHoc := h.adHoc
  subgraphs := h.subgraphs ▸ List.Subset.refl _
  nodes := h.nodes ▸ Finset.Subset.refl _
  operands := h.operands
  returns := h.returns

omit [DecidableEq Fn] [DecidableEq I] in
theorem State.TakesReturn.grows {s s' : State Fn I} {i r : I} (h : s.TakesReturn i r)
    (hgrows : Grows s s') : s'.TakesReturn i r :=
  ⟨hgrows.operands _ h.1, hgrows.returns _ h.2⟩

omit [DecidableEq Fn] in
theorem State.grows_addNode (i : I) (s : State Fn I) : Grows s (s.addNode i) :=
  { Grows.refl s with nodes := Finset.subset_insert i s.nodes }

theorem State.grows_connect (i : I) (F : Fn) (s : State Fn I) : Grows s (s.connect i F) :=
  { Grows.refl s with }

namespace Module

variable (M : Module Fn I)

/-- The called function, with the casts stripped. -/
def callee (i : I) : Option Fn :=
  match M.code i with
  | .call F _ _ => some F
  | _ => none

/-- A function has a direct call of another. -/
def Calls (F G : Fn) : Prop := ∃ i ∈ (M.blocks F).flatten, M.callee i = some G

/-- The instruction gets a RETURN node of the function. -/
def IsReturn (F : Fn) (r : I) : Prop := ∃ block ∈ M.blocks F, M.endsWith block = some r

/-- A block with a call that leads back to the function is not after all that end in a RETURN. -/
def LateReturn (F : Fn) : Prop :=
  ∃ l₁ block l₂, M.blocks F = l₁ ++ block :: l₂ ∧
    (∃ i ∈ block, ∃ G, M.callee i = some G ∧ ReflTransGen M.Calls G F) ∧
      ∃ b ∈ block :: l₂, ∃ r, M.endsWith b = some r

/-- An argument has the node that it ever gets. -/
def Settled (s : State Fn I) (v : Value Fn I) : Prop :=
  (∃ n, M.tryGetOperand s v = some n) ∨ ∃ j, v = .instruction j ∧ ∀ F, j ∉ (M.blocks F).flatten

/-- Nodes are made for instructions of the blocks. -/
def Placed (i : I) : Prop := ∃ F, i ∈ (M.blocks F).flatten

variable {M}

theorem tryGetOperand_grows {s s' : State Fn I} (h : Grows s s') {v : Value Fn I} {n : Node Fn I}
    (hn : M.tryGetOperand s v = some n) : M.tryGetOperand s' v = some n := by
  cases v with
  | constant c => exact hn
  | argument F k =>
      obtain ⟨hF, hn⟩ := Option.ite_none_right_eq_some.1 hn
      exact Option.ite_none_right_eq_some.2 ⟨h.subgraphs hF, hn⟩
  | instruction i =>
      obtain ⟨hi, hn⟩ := Option.ite_none_right_eq_some.1 hn
      exact Option.ite_none_right_eq_some.2 ⟨h.nodes hi, hn⟩

theorem Settled.grows {s s' : State Fn I} {v : Value Fn I} (hv : M.Settled s v)
    (h : Grows s s') : M.Settled s' v := by
  obtain ⟨n, hn⟩ | hj := hv
  · exact .inl ⟨n, tryGetOperand_grows h hn⟩
  · exact .inr hj

theorem Settled.eq_some {s s' : State Fn I} {v : Value Fn I} {n : Node Fn I} (hv : M.Settled s v)
    (h : Grows s s') (hplaced : ∀ i ∈ s'.nodes, M.Placed i)
    (hn : M.tryGetOperand s' v = some n) : M.tryGetOperand s v = some n := by
  obtain ⟨m, hm⟩ | ⟨j, rfl, hj⟩ := hv
  · rw [hm, ← hn, tryGetOperand_grows h hm]
  · obtain ⟨hi, -⟩ := Option.ite_none_right_eq_some.1 hn
    obtain ⟨F, hF⟩ := hplaced j hi
    exact absurd hF (hj F)

theorem TakesArgument.grows {s s' : State Fn I} {i : I} {F : Fn} {k : Nat}
    (htakes : M.TakesArgument s i F k) (hsettled : ∀ v ∈ (M.code i).args, M.Settled s v)
    (h : Grows s s') (hplaced : ∀ i ∈ s'.nodes, M.Placed i) : M.TakesArgument s' i F k := by
  obtain ⟨v, hv, hop⟩ := htakes
  refine ⟨v, hv, fun n hn => h.operands _ (hop n ?_)⟩
  exact (hsettled v (List.mem_of_getElem? hv)).eq_some h hplaced hn

/-! ## The invariant -/

variable (M)

structure Inv (O : List (Fn × List (List I))) (s : State Fn I) : Prop where
  placed : ∀ i ∈ s.nodes, M.Placed i
  settled : ∀ i ∈ s.nodes, ∀ v ∈ (M.code i).args, M.Settled s v
  called : ∀ i, ∀ F ∈ s.callees i,
    i ∈ s.nodes ∧ F ∈ s.subgraphs ∧ (s.adHoc = false → M.callee i = some F)
  direct : ∀ i ∈ s.nodes, ∀ F, M.callee i = some F → F ∈ s.callees i
  isReturn : ∀ F, ∀ r ∈ s.returnNodes F, M.IsReturn F r
  gathered : ∀ F ∈ s.subgraphs, ∀ r, M.IsReturn F r → r ∈ s.returnNodes F ∨
    ∃ f ∈ O, f.1 = F ∧ ∃ block ∈ f.2, M.endsWith block = some r
  wired : s.adHoc = true → ∀ i, ∀ F ∈ s.callees i,
    (∀ k < M.formals F, M.TakesArgument s i F k) ∧ ∀ r, M.IsReturn F r → s.TakesReturn i r

variable {M}

namespace Inv

variable {O : List (Fn × List (List I))} {s : State Fn I}

/-- What is wired stays so. -/
theorem wired_grows (h : M.Inv O s) {s' : State Fn I} (hgrows : Grows s s')
    (hplaced : ∀ i ∈ s'.nodes, M.Placed i) (hadHoc : s'.adHoc = true) {i : I} {F : Fn}
    (hF : F ∈ s.callees i) :
    (∀ k < M.formals F, M.TakesArgument s' i F k) ∧ ∀ r, M.IsReturn F r → s'.TakesReturn i r := by
  obtain ⟨hargs, hrets⟩ := h.wired (hgrows.adHoc ▸ hadHoc) i F hF
  refine ⟨fun k hk => ?_, fun r hr => (hrets r hr).grows hgrows⟩
  exact (hargs k hk).grows (h.settled i (h.called i F hF).1) hgrows hplaced

/-- The function is recorded before it is built. -/
theorem enter (h : M.Inv O s) (F : Fn) :
    M.Inv ((F, M.blocks F) :: O) { s with subgraphs := s.subgraphs ++ [F] } := by
  have hgrows : Grows s { s with subgraphs := s.subgraphs ++ [F] } :=
    { Grows.refl s with subgraphs := List.subset_append_left _ _ }
  refine ⟨h.placed, fun i hi v hv => (h.settled i hi v hv).grows hgrows, fun i G hG => ?_, h.direct,
    h.isReturn, fun G hG r hr => ?_, fun hadHoc i G hG => ?_⟩
  · obtain ⟨hi, hsub, honly⟩ := h.called i G hG
    exact ⟨hi, List.mem_append_left _ hsub, honly⟩
  · obtain hG | hG := List.mem_append.1 hG
    · obtain hr | ⟨f, hf, hrest⟩ := h.gathered G hG r hr
      · exact .inl hr
      · exact .inr ⟨f, List.mem_cons_of_mem _ hf, hrest⟩
    · obtain rfl := List.mem_singleton.1 hG
      exact .inr ⟨_, List.mem_cons_self, rfl, hr⟩
  · exact h.wired_grows hgrows h.placed hadHoc hG

/-- Nothing is left to gather. -/
theorem leave {F : Fn} (h : M.Inv ((F, []) :: O) s) : M.Inv O s := by
  refine { h with gathered := fun G hG r hr => ?_ }
  obtain hr | ⟨f, hf, hfG, b, hb, hrest⟩ := h.gathered G hG r hr
  · exact .inl hr
  · obtain rfl | hf := List.mem_cons.1 hf
    · exact absurd hb List.not_mem_nil
    · exact .inr ⟨f, hf, hfG, b, hb, hrest⟩

/-- A node that is no call. -/
theorem addNode (h : M.Inv O s) {i : I} (hplaced : M.Placed i)
    (hsettled : ∀ v ∈ (M.code i).args, M.Settled s v) (hdirect : M.callee i = none) :
    M.Inv O (s.addNode i) := by
  have hgrows := s.grows_addNode i
  have hplaced' : ∀ j ∈ (s.addNode i).nodes, M.Placed j := by
    intro j hj
    obtain rfl | hj := Finset.mem_insert.1 hj
    · exact hplaced
    · exact h.placed j hj
  refine ⟨hplaced', fun j hj v hv => ?_, fun j G hG => ?_, fun j hj G hG => ?_, h.isReturn,
    h.gathered, fun hadHoc j G hG => h.wired_grows hgrows hplaced' hadHoc hG⟩
  · obtain rfl | hj := Finset.mem_insert.1 hj
    · exact (hsettled v hv).grows hgrows
    · exact (h.settled j hj v hv).grows hgrows
  · obtain ⟨hj, hrest⟩ := h.called j G hG
    exact ⟨hgrows.nodes hj, hrest⟩
  · obtain rfl | hj := Finset.mem_insert.1 hj
    · exact absurd (hdirect.symm.trans hG) (Option.some_ne_none G).symm
    · exact h.direct j hj G hG

/-- A call, when it is connected. -/
theorem connect (h : M.Inv O s) {s' : State Fn I} {i : I} {G : Fn} (hG : G ∈ s.subgraphs)
    (hplaced : M.Placed i) (hsettled : ∀ v ∈ (M.code i).args, M.Settled s v)
    (hdirect : ∀ H, M.callee i = some H → H ∈ (s.connect i G).callees i)
    (honly : s.adHoc = false → M.callee i = some G) (hadds : Adds (s.connect i G) s')
    (hwired : s.adHoc = true →
      (∀ k < M.formals G, M.TakesArgument s' i G k) ∧ ∀ r, M.IsReturn G r → s'.TakesReturn i r) :
    M.Inv O (s'.addNode i) := by
  have hgrows' := s'.grows_addNode i
  have hconnected : Grows s s' := (s.grows_connect i G).trans hadds.grows
  have hgrows := hconnected.trans hgrows'
  have hnodes : (s'.addNode i).nodes = insert i s.nodes := congrArg (insert i) hadds.nodes
  have hplaced' : ∀ j ∈ (s'.addNode i).nodes, M.Placed j := by
    intro j hj
    rw [hnodes] at hj
    obtain rfl | hj := Finset.mem_insert.1 hj
    · exact hplaced
    · exact h.placed j hj
  -- the one new callee; all that was wired before stays so in the state that has grown
  have hcallees : ∀ {j H}, H ∈ (s'.addNode i).callees j ↔ H ∈ s.callees j ∨ (j = i ∧ H = G) := by
    intro j H
    rw [State.addNode, hadds.callees]
    exact mem_addTo
  refine ⟨hplaced', fun j hj v hv => ?_, fun j H hH => ?_, fun j hj H hH => ?_, fun F r hr => ?_,
    fun F hF r hr => ?_, fun hadHoc j H hH => ?_⟩
  · rw [hnodes] at hj
    obtain rfl | hj := Finset.mem_insert.1 hj
    · exact (hsettled v hv).grows hgrows
    · exact (h.settled j hj v hv).grows hgrows
  · rw [hgrows.adHoc]
    obtain hH | ⟨rfl, rfl⟩ := hcallees.1 hH
    · obtain ⟨hj, hsub, hrest⟩ := h.called j H hH
      exact ⟨hgrows.nodes hj, hgrows.subgraphs hsub, hrest⟩
    · exact ⟨Finset.mem_insert_self j _, hgrows.subgraphs hG, honly⟩
  · rw [hnodes] at hj
    obtain rfl | hj := Finset.mem_insert.1 hj
    · exact hadds.callees ▸ hdirect H hH
    · exact hcallees.2 (.inl (h.direct j hj H hH))
  · exact h.isReturn F r (hadds.returnNodes ▸ hr)
  · rw [State.addNode, hadds.returnNodes]
    exact h.gathered F (hadds.subgraphs ▸ hF) r hr
  · obtain hH | ⟨rfl, rfl⟩ := hcallees.1 hH
    · exact h.wired_grows hgrows hplaced' hadHoc hH
    · obtain ⟨hargs, hrets⟩ := hwired (hgrows.adHoc ▸ hadHoc)
      refine ⟨fun k hk => (hargs k hk).grows ?_ hgrows' hplaced', fun r hr => ?_⟩
      · exact fun v hv => (hsettled v hv).grows hconnected
      · exact (hrets r hr).grows hgrows'

/-- The RETURN node of a block is gathered. -/
theorem gather {F : Fn} {block : List I} {l : List (List I)} {r : I}
    (h : M.Inv ((F, block :: l) :: O) s) (hblock : block ∈ M.blocks F)
    (hr : M.endsWith block = some r) :
    M.Inv ((F, l) :: O) { s with returnNodes := addTo s.returnNodes F r } := by
  have hgrows : Grows s { s with returnNodes := addTo s.returnNodes F r } := { Grows.refl s with }
  refine ⟨h.placed, fun i hi v hv => (h.settled i hi v hv).grows hgrows, h.called, h.direct,
    fun G x hx => ?_, fun G hG x hx => ?_,
    fun hadHoc i G hG => h.wired_grows hgrows h.placed hadHoc hG⟩
  · obtain hx | ⟨rfl, rfl⟩ := mem_addTo.1 hx
    · exact h.isReturn G x hx
    · exact ⟨block, hblock, hr⟩
  · obtain hx | ⟨f, hf, hfG, b, hb, hrest⟩ := h.gathered G hG x hx
    · exact .inl (mem_addTo.2 (.inl hx))
    · obtain rfl | hf := List.mem_cons.1 hf
      · obtain rfl | hb := List.mem_cons.1 hb
        · refine .inl (mem_addTo.2 (.inr ⟨hfG.symm, ?_⟩))
          exact Option.some.inj (hrest.symm.trans hr)
        · exact .inr ⟨_, List.mem_cons_self, hfG, b, hb, hrest⟩
      · exact .inr ⟨f, List.mem_cons_of_mem _ hf, hfG, b, hb, hrest⟩

/-- A block that does not end in a RETURN. -/
theorem skip {F : Fn} {block : List I} {l : List (List I)} (h : M.Inv ((F, block :: l) :: O) s)
    (hnone : M.endsWith block = none) : M.Inv ((F, l) :: O) s := by
  refine { h with gathered := fun G hG r hr => ?_ }
  obtain hr | ⟨f, hf, hfG, b, hb, hrest⟩ := h.gathered G hG r hr
  · exact .inl hr
  · obtain rfl | hf := List.mem_cons.1 hf
    · obtain rfl | hb := List.mem_cons.1 hb
      · exact absurd (hnone.symm.trans hrest) (Option.some_ne_none r).symm
      · exact .inr ⟨_, List.mem_cons_self, hfG, b, hb, hrest⟩
    · exact .inr ⟨f, List.mem_cons_of_mem _ hf, hfG, b, hb, hrest⟩

end Inv

/-! ## Calls of functions under construction -/

variable (M)

/-- Of the functions that are still to be built for a call, none has a late RETURN. -/
def ReturnsEarly (s : State Fn I) (F : Fn) : Prop :=
  ∀ G, ReflTransGen M.Calls F G → G ∉ s.subgraphs → ¬ M.LateReturn G

/-- The functions under construction are at a call that leads to `F`. -/
structure Leads (O : List (Fn × List (List I))) (s : State Fn I) (F : Fn) : Prop where
  at_call : ∀ f ∈ O, ∃ l₁ block l₂, M.blocks f.1 = l₁ ++ block :: l₂ ∧ f.2 = block :: l₂ ∧
    ∃ i ∈ block, ∃ G, M.callee i = some G ∧ ReflTransGen M.Calls G F
  not_late : s.adHoc = true → ∀ f ∈ O, ¬ M.LateReturn f.1
  early : s.adHoc = true → M.ReturnsEarly s F

variable {M}

omit [DecidableEq Fn] [DecidableEq I] in
theorem Leads.grows {O : List (Fn × List (List I))} {s t : State Fn I} {F : Fn}
    (h : M.Leads O s F) (hgrows : Grows s t) : M.Leads O t F where
  at_call := h.at_call
  not_late hadHoc := h.not_late (hgrows.adHoc ▸ hadHoc)
  early hadHoc G hG hnot :=
    h.early (hgrows.adHoc ▸ hadHoc) G hG fun hsub => hnot (hgrows.subgraphs hsub)

/-- All RETURN nodes are there when a function is called. -/
theorem Leads.complete {O : List (Fn × List (List I))} {s : State Fn I} {F : Fn}
    (h : M.Leads O s F) (hinv : M.Inv O s) (hadHoc : s.adHoc = true) (hF : F ∈ s.subgraphs) {r : I}
    (hr : M.IsReturn F r) : r ∈ s.returnNodes F := by
  obtain hr | ⟨f, hf, rfl, b, hb, hend⟩ := hinv.gathered F hF r hr
  · exact hr
  · obtain ⟨l₁, block, l₂, hblocks, hrest, i, hi, G, hG, hback⟩ := h.at_call f hf
    refine absurd ?_ (h.not_late hadHoc f hf)
    exact ⟨l₁, block, l₂, hblocks, ⟨i, hi, G, hG, hback⟩, b, hrest ▸ hb, r, hend⟩

omit [DecidableEq Fn] [DecidableEq I] in
/-- The step to a call in a function under construction. -/
theorem Leads.step {O : List (Fn × List (List I))} {s t : State Fn I} {F G : Fn}
    (h : M.Leads O s F) (hF : F ∉ s.subgraphs) (hgrows : Grows s t) {l₁ l₂ : List (List I)}
    {block : List I} (hblocks : M.blocks F = l₁ ++ block :: l₂) {i : I} (hi : i ∈ block)
    (hG : M.callee i = some G) : M.Leads ((F, block :: l₂) :: O) t G := by
  have hcalls : M.Calls F G := by
    refine ⟨i, List.mem_flatten.2 ⟨block, ?_, hi⟩, hG⟩
    exact hblocks ▸ List.mem_append_right l₁ List.mem_cons_self
  refine ⟨fun f hf => ?_, fun hadHoc f hf => ?_, fun hadHoc H hH hnot => ?_⟩
  · obtain rfl | hf := List.mem_cons.1 hf
    · exact ⟨l₁, block, l₂, hblocks, rfl, i, hi, G, hG, .refl⟩
    · obtain ⟨k₁, b, k₂, hb, hrest, j, hj, H, hH, hback⟩ := h.at_call f hf
      exact ⟨k₁, b, k₂, hb, hrest, j, hj, H, hH, hback.tail hcalls⟩
  · obtain rfl | hf := List.mem_cons.1 hf
    · exact h.early (hgrows.adHoc ▸ hadHoc) F .refl hF
    · exact (h.grows hgrows).not_late hadHoc f hf
  · exact (h.grows hgrows).early hadHoc H (.head hcalls hH) hnot

/-! ## Building -/

variable (M)

/-- What building a function, or finding it built, has to do. -/
def BuildsWell (create : Fn → State Fn I → Option (State Fn I)) : Prop :=
  ∀ O F s s', M.Inv O s → M.Leads O s F → create F s = some s' →
    M.Inv O s' ∧ Grows s s' ∧ F ∈ s'.subgraphs

variable {M}

variable {create : Fn → State Fn I → Option (State Fn I)}

theorem buildInstruction_call {i : I} {G : Fn} {s : State Fn I} (hG : M.callee i = some G) :
    M.buildInstruction create s i = M.createCallToFunction create i G s := by
  rw [callee] at hG
  split at hG
  · next F casted args hcode =>
      obtain rfl := Option.some.inj hG
      rw [buildInstruction, hcode]
  · exact absurd hG.symm (Option.some_ne_none G)

theorem buildInstruction_other {i : I} {s : State Fn I} (hG : M.callee i = none) :
    M.buildInstruction create s i = some (s.addNode i) := by
  rw [buildInstruction]
  split
  · next F casted args hcode =>
      rw [callee, hcode] at hG
      exact absurd hG (Option.some_ne_none F)
  · rfl

theorem createCallToFunction_spec (hcreate : M.BuildsWell create) {O : List (Fn × List (List I))}
    {i : I} {G : Fn} {s s' : State Fn I} (h : M.Inv O s) (hleads : M.Leads O s G)
    (hG : M.callee i = some G) (hplaced : M.Placed i)
    (hsettled : ∀ v ∈ (M.code i).args, M.Settled s v)
    (hs : M.createCallToFunction create i G s = some s') :
    M.Inv O s' ∧ Grows s s' ∧ i ∈ s'.nodes := by
  obtain ⟨s₁, hs₁, hs⟩ := Option.bind_eq_some_iff.1 hs
  obtain ⟨s₂, hs₂, hs⟩ := Option.bind_eq_some_iff.1 hs
  obtain rfl := Option.some.inj hs
  obtain ⟨hinv, hgrows, hbuilt⟩ := hcreate O G s s₁ h hleads hs₁
  have hadds : Adds (s₁.connect i G) s₂ := by
    split at hs₂
    · exact (addInterproceduralOperands_spec hs₂).1
    · obtain rfl := Option.some.inj hs₂
      exact .refl _
  refine ⟨hinv.connect hbuilt hplaced (fun v hv => (hsettled v hv).grows hgrows) (fun H hH => ?_)
    (fun _ => hG) hadds fun hadHoc => ?_, ?_, Finset.mem_insert_self i _⟩
  · obtain rfl := Option.some.inj (hG.symm.trans hH)
    exact mem_addTo.2 (.inr ⟨rfl, rfl⟩)
  · have hs₂ : M.addInterproceduralOperands G (some i) (s₁.connect i G) = some s₂ := by
      rwa [if_pos (show (s₁.connect i G).adHoc = true from hadHoc)] at hs₂
    obtain ⟨-, hargs, hrets⟩ := addInterproceduralOperands_spec hs₂
    refine ⟨fun k hk => hargs k hk i List.mem_cons_self, fun r hr => ?_⟩
    exact hrets r ((hleads.grows hgrows).complete hinv hadHoc hbuilt hr) i List.mem_cons_self
  · exact (hgrows.trans (s₁.grows_connect i G)).trans (hadds.grows.trans (s₂.grows_addNode i))

/-- While a block is built: what is before the next instruction has its nodes. -/
structure InBlock (M : Module Fn I) (O : List (Fn × List (List I))) (s : State Fn I) (F : Fn)
    (rest : List (List I)) (done : List I) (t : State Fn I) : Prop where
  inv : M.Inv ((F, rest) :: O) t
  grows : Grows s t
  built : F ∈ t.subgraphs
  done : ∀ i ∈ done, i ∈ t.nodes

theorem settled_of_done {F : Fn} {done l : List I} {i : I} {t : State Fn I}
    (hcode : (M.blocks F).flatten = done ++ i :: l) (hdone : ∀ j ∈ done, j ∈ t.nodes)
    (hF : F ∈ t.subgraphs) : ∀ v ∈ (M.code i).args, M.Settled t v := by
  intro v hv
  have hdominated := M.dominated F done i l hcode v hv
  cases v with
  | constant c => exact .inl ⟨_, rfl⟩
  | argument G k =>
      obtain rfl : G = F := hdominated
      exact .inl ⟨_, if_pos hF⟩
  | instruction j =>
      obtain hj | hj := hdominated
      · exact .inl ⟨_, if_pos (hdone j hj)⟩
      · exact .inr ⟨j, rfl, hj⟩

theorem buildInstruction_spec (hcreate : M.BuildsWell create) {O : List (Fn × List (List I))}
    {s t t' : State Fn I} {F : Fn} (hleads : M.Leads O s F) (hF : F ∉ s.subgraphs)
    {l₁ l₂ : List (List I)} {block p q : List I} (hblocks : M.blocks F = l₁ ++ block :: l₂) {i : I}
    (hblock : block = p ++ i :: q) (h : M.InBlock O s F (block :: l₂) (l₁.flatten ++ p) t)
    (ht : M.buildInstruction create t i = some t') :
    M.InBlock O s F (block :: l₂) (l₁.flatten ++ (p ++ [i])) t' := by
  have hcode : (M.blocks F).flatten = (l₁.flatten ++ p) ++ i :: (q ++ l₂.flatten) := by
    rw [hblocks, List.flatten_append, List.flatten_cons, hblock]
    simp only [List.append_assoc, List.cons_append]
  have hi : i ∈ block := hblock ▸ List.mem_append_right p List.mem_cons_self
  have hplaced : M.Placed i := ⟨F, hcode ▸ List.mem_append_right _ List.mem_cons_self⟩
  have hsettled := settled_of_done hcode h.done h.built
  -- whatever is built for the instruction, its node is there afterwards
  have hend : M.Inv ((F, block :: l₂) :: O) t' ∧ Grows t t' ∧ i ∈ t'.nodes := by
    cases hG : M.callee i with
    | some G =>
        rw [buildInstruction_call hG] at ht
        exact createCallToFunction_spec hcreate h.inv (hleads.step hF h.grows hblocks hi hG) hG
          hplaced hsettled ht
    | none =>
        rw [buildInstruction_other hG] at ht
        obtain rfl := Option.some.inj ht
        exact ⟨h.inv.addNode hplaced hsettled hG, t.grows_addNode i, Finset.mem_insert_self i _⟩
  obtain ⟨hinv, hgrows, hnode⟩ := hend
  refine ⟨hinv, h.grows.trans hgrows, hgrows.subgraphs h.built, fun j hj => ?_⟩
  rw [← List.append_assoc] at hj
  obtain hj | hj := List.mem_append.1 hj
  · exact hgrows.nodes (h.done j hj)
  · obtain rfl := List.mem_singleton.1 hj
    exact hnode

theorem buildBlock_spec (hcreate : M.BuildsWell create) {O : List (Fn × List (List I))}
    {s t t' : State Fn I} {F : Fn} (hleads : M.Leads O s F) (hF : F ∉ s.subgraphs)
    {l₁ l₂ : List (List I)} {block : List I} (hblocks : M.blocks F = l₁ ++ block :: l₂)
    (h : M.InBlock O s F (block :: l₂) l₁.flatten t)
    (ht : M.buildBlock create F t block = some t') :
    M.InBlock O s F l₂ (l₁ ++ [block]).flatten t' := by
  obtain ⟨t₁, ht₁, ht⟩ := Option.bind_eq_some_iff.1 ht
  have hbuilt : M.InBlock O s F (block :: l₂) (l₁.flatten ++ block) t₁ :=
    FallibleLoop.prefix_induction
      (I := fun p t => M.InBlock O s F (block :: l₂) (l₁.flatten ++ p) t)
      (fun p i q hblock u u' hu hu' =>
        buildInstruction_spec hcreate hleads hF hblocks hblock hu hu')
      ((List.append_nil l₁.flatten).symm ▸ h) ht₁
  have hflatten : (l₁ ++ [block]).flatten = l₁.flatten ++ block := by
    rw [List.flatten_append, List.flatten_singleton]
  rw [hflatten]
  split at ht
  · next r hr =>
      obtain rfl := Option.some.inj ht
      have hblock : block ∈ M.blocks F := hblocks ▸ List.mem_append_right l₁ List.mem_cons_self
      exact ⟨hbuilt.inv.gather hblock hr, hbuilt.grows.trans { Grows.refl t₁ with }, hbuilt.built,
        hbuilt.done⟩
  · next hnone =>
      obtain rfl := Option.some.inj ht
      exact ⟨hbuilt.inv.skip hnone, hbuilt.grows, hbuilt.built, hbuilt.done⟩

theorem buildFunction_spec (hcreate : M.BuildsWell create) {O : List (Fn × List (List I))}
    {s s' : State Fn I} {F : Fn} (h : M.Inv O s) (hleads : M.Leads O s F) (hF : F ∉ s.subgraphs)
    (hs : M.buildFunction create F s = some s') :
    M.Inv O s' ∧ Grows s s' ∧ F ∈ s'.subgraphs := by
  have hstart : M.InBlock O s F (M.blocks F) [] { s with subgraphs := s.subgraphs ++ [F] } :=
    ⟨h.enter F, { Grows.refl s with subgraphs := List.subset_append_left _ _ },
      List.mem_append_right _ List.mem_cons_self, fun i hi => absurd hi List.not_mem_nil⟩
  have hend : M.InBlock O s F ((M.blocks F).drop (M.blocks F).length) (M.blocks F).flatten s' := by
    refine FallibleLoop.prefix_induction
      (I := fun l t => M.InBlock O s F ((M.blocks F).drop l.length) l.flatten t)
      (fun l₁ block l₂ hblocks t t' ht ht' => ?_) hstart hs
    have hdrop : (M.blocks F).drop l₁.length = block :: l₂ := by
      rw [hblocks, List.drop_left]
    have hdrop' : (M.blocks F).drop (l₁ ++ [block]).length = l₂ := by
      rw [hblocks, List.append_cons l₁ block l₂, List.drop_left]
    rw [hdrop] at ht
    rw [hdrop']
    exact buildBlock_spec hcreate hleads hF hblocks ht ht'
  rw [List.drop_length] at hend
  exact ⟨hend.inv.leave, hend.grows, hend.built⟩

/-- Functions that are built on the way of a call keep the invariant. -/
theorem createOrGetSubgraph_spec (depth : Nat) : M.BuildsWell (M.createOrGetSubgraph depth) := by
  induction depth with
  | zero => exact fun O F s s' _ _ hs => absurd hs (Option.some_ne_none s').symm
  | succ depth ih =>
      intro O F s s' h hleads hs
      rw [createOrGetSubgraph] at hs
      split at hs
      · next hF =>
          obtain rfl := Option.some.inj hs
          exact ⟨h, .refl s, hF⟩
      · next hF => exact buildFunction_spec ih h hleads hF hs

end Module

end Cape.PointerAnalysis.Interprocedural
