import Cape.PointerAnalysis.Interprocedural

/-!
# What connecting a call adds

`addInterproceduralOperands_spec`: of a call that is connected, the argument nodes that there are go
to the formal arguments, and the RETURN nodes that are gathered by then to the CALL_RETURN node.
Nothing else changes. `addProgramStructure_spec` has this for the uses of all functions.
-/

set_option autoImplicit false

namespace Cape.PointerAnalysis.Interprocedural

open Cape.Library

universe u v

variable {Fn : Type u} {I : Type v} [DecidableEq Fn] [DecidableEq I]

theorem mem_addTo {α β : Type*} [DecidableEq α] [DecidableEq β] {g : α → List β} {a k : α}
    {b x : β} : x ∈ addTo g a b k ↔ x ∈ g k ∨ (k = a ∧ x = b) := by
  rw [addTo]
  split
  · next hb =>
      refine (or_iff_left_of_imp ?_).symm
      rintro ⟨rfl, rfl⟩
      exact hb
  · by_cases hk : k = a
    · subst hk
      rw [Function.update_self, List.mem_append, List.mem_singleton, and_iff_right rfl]
    · rw [Function.update_of_ne hk]
      exact (or_iff_left fun h => hk h.1).symm

theorem subset_addTo {α β : Type*} [DecidableEq α] [DecidableEq β] (g : α → List β) (a : α)
    (b : β) (k : α) : g k ⊆ addTo g a b k :=
  fun _ hx => mem_addTo.2 (.inl hx)

/-- Only operands and returns are added. -/
structure Adds (s s' : State Fn I) : Prop where
  adHoc : s'.adHoc = s.adHoc
  subgraphs : s'.subgraphs = s.subgraphs
  nodes : s'.nodes = s.nodes
  returnNodes : s'.returnNodes = s.returnNodes
  callees : s'.callees = s.callees
  operands : ∀ n, s.operands n ⊆ s'.operands n
  returns : ∀ i, s.returns i ⊆ s'.returns i

namespace Adds

omit [DecidableEq Fn] [DecidableEq I] in
theorem refl (s : State Fn I) : Adds s s :=
  ⟨rfl, rfl, rfl, rfl, rfl, fun _ => List.Subset.refl _, fun _ => List.Subset.refl _⟩

omit [DecidableEq Fn] [DecidableEq I] in
theorem trans {s t u : State Fn I} (h : Adds s t) (k : Adds t u) : Adds s u where
  adHoc := k.adHoc.trans h.adHoc
  subgraphs := k.subgraphs.trans h.subgraphs
  nodes := k.nodes.trans h.nodes
  returnNodes := k.returnNodes.trans h.returnNodes
  callees := k.callees.trans h.callees
  operands n := List.Subset.trans (h.operands n) (k.operands n)
  returns i := List.Subset.trans (h.returns i) (k.returns i)

theorem addOperand (n x : Node Fn I) (s : State Fn I) : Adds s (s.addOperand n x) :=
  { refl s with operands := subset_addTo _ _ _ }

end Adds

namespace Module

variable (M : Module Fn I)

/-- An actual argument of a call is an operand of the formal one, if it has a node. -/
def TakesArgument (s : State Fn I) (i : I) (F : Fn) (k : Nat) : Prop :=
  ∃ v, (M.code i).args[k]? = some v ∧
    ∀ n, M.tryGetOperand s v = some n → n ∈ s.operands (.argument F k)

variable {M}

theorem tryGetOperand_adds {s s' : State Fn I} (h : Adds s s') (v : Value Fn I) :
    M.tryGetOperand s' v = M.tryGetOperand s v := by
  cases v with
  | constant c => rfl
  | argument F k => rw [tryGetOperand, tryGetOperand, h.subgraphs]
  | instruction i => rw [tryGetOperand, tryGetOperand, h.nodes]

theorem TakesArgument.adds {s s' : State Fn I} {i : I} {F : Fn} {k : Nat}
    (h : M.TakesArgument s i F k) (hadds : Adds s s') : M.TakesArgument s' i F k := by
  obtain ⟨v, hv, hop⟩ := h
  refine ⟨v, hv, fun n hn => hadds.operands _ (hop n ?_)⟩
  rwa [tryGetOperand_adds hadds] at hn

end Module

/-- A RETURN node is an operand and a return of the CALL_RETURN node. -/
def State.TakesReturn (s : State Fn I) (i r : I) : Prop :=
  .ret r ∈ s.operands (.callReturn i) ∧ r ∈ s.returns i

omit [DecidableEq Fn] [DecidableEq I] in
theorem State.TakesReturn.adds {s s' : State Fn I} {i r : I} (h : s.TakesReturn i r)
    (hadds : Adds s s') : s'.TakesReturn i r :=
  ⟨hadds.operands _ h.1, hadds.returns _ h.2⟩

theorem addReturnNodeOperand_spec (r : I) (s : State Fn I) (i : I) :
    Adds s (Module.addReturnNodeOperand r s i) ∧
      (Module.addReturnNodeOperand r s i).TakesReturn i r := by
  refine ⟨?_, mem_addTo.2 (.inr ⟨rfl, rfl⟩), mem_addTo.2 (.inr ⟨rfl, rfl⟩)⟩
  exact { Adds.refl s with operands := subset_addTo _ _ _, returns := subset_addTo _ _ _ }

namespace Module

variable {M : Module Fn I}

theorem addArgumentOperands_adds {args : List (Value Fn I)} {arg : Node Fn I} {idx : Nat}
    {s s' : State Fn I} (h : M.addArgumentOperands args arg idx s = some s') : Adds s s' := by
  obtain ⟨v, hv, h⟩ := Option.bind_eq_some_iff.1 h
  split at h
  · obtain rfl := Option.some.inj h
    exact .addOperand _ _ s
  · obtain rfl := Option.some.inj h
    exact .refl s

theorem addArgumentOperands_spec {i : I} {F : Fn} {k : Nat} {s s' : State Fn I}
    (h : M.addArgumentOperands (M.code i).args (.argument F k) k s = some s') :
    Adds s s' ∧ M.TakesArgument s' i F k := by
  refine ⟨addArgumentOperands_adds h, ?_⟩
  obtain ⟨v, hv, hop⟩ := Option.bind_eq_some_iff.1 h
  refine ⟨v, hv, fun n hn => ?_⟩
  rw [tryGetOperand_adds (addArgumentOperands_adds h)] at hn
  rw [hn] at hop
  obtain rfl := Option.some.inj hop
  exact mem_addTo.2 (.inr ⟨rfl, rfl⟩)

theorem addArgumentsOperands_spec {F : Fn} {call : Option I} {s s' : State Fn I}
    (h : M.addArgumentsOperands F call s = some s') :
    Adds s s' ∧ ∀ k < M.formals F, ∀ i ∈ call.elim (M.users F) fun i => [i],
      M.TakesArgument s' i F k := by
  -- the outer loop is over the formal arguments, the inner one over the calls
  obtain ⟨hadds, hdone⟩ := FallibleLoop.each_done Adds.refl Adds.trans
    (P := fun k t => ∀ i ∈ call.elim (M.users F) fun i => [i], M.TakesArgument t i F k)
    (fun hle hP i hi => (hP i hi).adds hle)
    (fun k _ t t' _ ht => FallibleLoop.each_done Adds.refl Adds.trans
      (P := fun i u => M.TakesArgument u i F k) (fun hle hP => hP.adds hle)
      (fun i _ u u' _ hu => addArgumentOperands_spec hu) ht) h
  exact ⟨hadds, fun k hk => hdone k (List.mem_range.2 hk)⟩

theorem addVariadicArgumentOperands_adds {F : Fn} {call : Option I} {s s' : State Fn I}
    (h : M.addVariadicArgumentOperands F call s = some s') : Adds s s' := by
  refine FallibleLoop.keeps (I := Adds s) (fun i _ t t' hst ht => ?_) (.refl s) h
  exact FallibleLoop.keeps (I := Adds s)
    (fun k _ u u' hsu hu => hsu.trans (addArgumentOperands_adds hu)) hst ht

/-- The calls to which RETURN nodes are added. -/
def returnUsers (M : Module Fn I) (F : Fn) (call : Option I) (s : State Fn I) : List I :=
  call.elim ((M.users F).filter (· ∈ s.nodes)) fun i => [i]

theorem addReturnNodesOperands_spec (F : Fn) (call : Option I) (s : State Fn I) :
    Adds s (M.addReturnNodesOperands F call s) ∧
      ∀ r ∈ s.returnNodes F, ∀ i ∈ M.returnUsers F call s,
        (M.addReturnNodesOperands F call s).TakesReturn i r := by
  -- the nodes stay, so the inner loop is over the same calls each time
  have hkept : ∀ {t : State Fn I}, Adds s t →
      (call.elim ((M.users F).filter (· ∈ t.nodes)) fun i => [i]) = M.returnUsers F call s := by
    intro t hadds
    rw [returnUsers, hadds.nodes]
  refine FallibleLoop.each_done_foldl Adds.refl Adds.trans
    (P := fun r t => ∀ i ∈ M.returnUsers F call s, t.TakesReturn i r)
    (fun hle hP i hi => (hP i hi).adds hle) (fun r _ t hadds => ?_)
  rw [hkept hadds]
  exact FallibleLoop.each_done_foldl Adds.refl Adds.trans (P := fun i u => u.TakesReturn i r)
    (fun hle hP => hP.adds hle) (fun i _ u _ => addReturnNodeOperand_spec r u i)

/-- What connecting with a function adds. -/
theorem addInterproceduralOperands_spec {F : Fn} {call : Option I} {s s' : State Fn I}
    (h : M.addInterproceduralOperands F call s = some s') :
    Adds s s' ∧
      (∀ k < M.formals F, ∀ i ∈ call.elim (M.users F) fun i => [i], M.TakesArgument s' i F k) ∧
      ∀ r ∈ s.returnNodes F, ∀ i ∈ M.returnUsers F call s, s'.TakesReturn i r := by
  obtain ⟨s₁, hs₁, h⟩ := Option.bind_eq_some_iff.1 h
  obtain ⟨s₂, hs₂, h⟩ := Option.bind_eq_some_iff.1 h
  obtain rfl := Option.some.inj h
  obtain ⟨hadds₁, hargs⟩ := addArgumentsOperands_spec hs₁
  have hadds₂ : Adds s₁ s₂ := by
    split at hs₂
    · exact addVariadicArgumentOperands_adds hs₂
    · obtain rfl := Option.some.inj hs₂
      exact .refl s₁
  obtain ⟨hadds₃, hrets⟩ := addReturnNodesOperands_spec (M := M) F call s₂
  have hadds₁₂ := hadds₁.trans hadds₂
  refine ⟨hadds₁₂.trans hadds₃, fun k hk i hi => ?_, fun r hr i hi => hrets r ?_ i ?_⟩
  · exact (hargs k hk i hi).adds (hadds₂.trans hadds₃)
  · rwa [hadds₁₂.returnNodes]
  · rwa [returnUsers, hadds₁₂.nodes]

/-- The uses of all functions that are built are connected. -/
theorem addProgramStructure_spec {s s' : State Fn I} (h : M.addProgramStructure s = some s') :
    Adds s s' ∧ ∀ F ∈ s.subgraphs, ∀ i ∈ M.users F,
      (∀ k < M.formals F, M.TakesArgument s' i F k) ∧
        (i ∈ s.nodes → ∀ r ∈ s.returnNodes F, s'.TakesReturn i r) := by
  refine FallibleLoop.each_done Adds.refl Adds.trans
    (P := fun F t => ∀ i ∈ M.users F, (∀ k < M.formals F, M.TakesArgument t i F k) ∧
      (i ∈ s.nodes → ∀ r ∈ s.returnNodes F, t.TakesReturn i r))
    (fun hle hP i hi => ?_) (fun F _ t t' hst ht => ?_) h
  · obtain ⟨hargs, hrets⟩ := hP i hi
    exact ⟨fun k hk => (hargs k hk).adds hle, fun hn r hr => (hrets hn r hr).adds hle⟩
  · obtain ⟨hadds, hargs, hrets⟩ := addInterproceduralOperands_spec ht
    refine ⟨hadds, fun i hi => ⟨fun k hk => hargs k hk i hi, fun hn r hr => hrets r ?_ i ?_⟩⟩
    · rwa [hst.returnNodes]
    · refine List.mem_filter.2 ⟨hi, decide_eq_true ?_⟩
      rwa [hst.nodes]

end Module

end Cape.PointerAnalysis.Interprocedural
