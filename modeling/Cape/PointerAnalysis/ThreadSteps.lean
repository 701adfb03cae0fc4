import Cape.PointerAnalysis.ThreadMatching

/-!
# Steps that add

All that builds or processes nodes only adds to the graph (`Extends`), and a new fork or join comes
into its list with its call node (`Enters`). What a JOIN node compares is kept by further steps
(`Extends.keeps_match`).
-/

set_option autoImplicit false

namespace Cape.PointerAnalysis.Threads

open Cape.Library

namespace Builder

variable {b b' b'' : Builder}

/-- Nodes, operands and pointers may have come. -/
structure Extends (b b' : Builder) : Prop where
  size : b.size ≤ b'.size
  getOperand : ∀ x i y, b.getOperand x i = some y → b'.getOperand x i = some y
  pairedNode : ∀ n ∈ b.forkNodes ++ b.joinNodes, b'.pairedNode n = b.pairedNode n
  arguments : ∀ n ∈ b.forkNodes ++ b.joinNodes, b'.arguments n = b.arguments n
  pointsTo : ∀ x, ∀ p ∈ b.pointsTo x, ∃ q ∈ b'.pointsTo x, q.target = p.target
  forkNodes : b.forkNodes <+: b'.forkNodes
  joinNodes : b.joinNodes <+: b'.joinNodes

/-- The lists of the forks and joins are as they were. -/
structure SameLists (b b' : Builder) : Prop where
  pairedNode : b'.pairedNode = b.pairedNode
  arguments : b'.arguments = b.arguments
  forkNodes : b'.forkNodes = b.forkNodes
  joinNodes : b'.joinNodes = b.joinNodes
  forks : b'.forks = b.forks
  joins : b'.joins = b.joins
  joinFunctions : b'.joinFunctions = b.joinFunctions

/-- The node numbers in the lists are those of nodes. -/
def Placed (b : Builder) : Prop :=
  ∀ n ∈ b.forkNodes ++ b.joinNodes, n < b.size ∧ b.pairedNode n < b.size

namespace Extends

theorem refl (b : Builder) : Extends b b :=
  ⟨Nat.le_refl _, fun _ _ _ h => h, fun _ _ => rfl, fun _ _ => rfl, fun _ p hp => ⟨p, hp, rfl⟩,
    List.prefix_rfl, List.prefix_rfl⟩

theorem mem (h : Extends b b') {n : Nat} (hn : n ∈ b.forkNodes ++ b.joinNodes) :
    n ∈ b'.forkNodes ++ b'.joinNodes := by
  rw [List.mem_append] at hn ⊢
  exact hn.imp (fun hn => h.forkNodes.subset hn) fun hn => h.joinNodes.subset hn

theorem trans (h : Extends b b') (h' : Extends b' b'') : Extends b b'' where
  size := h.size.trans h'.size
  getOperand x i y hy := h'.getOperand x i y (h.getOperand x i y hy)
  pairedNode n hn := (h'.pairedNode n (h.mem hn)).trans (h.pairedNode n hn)
  arguments n hn := (h'.arguments n (h.mem hn)).trans (h.arguments n hn)
  pointsTo x p hp := by
    obtain ⟨q, hq, hqp⟩ := h.pointsTo x p hp
    obtain ⟨r, hr, hrq⟩ := h'.pointsTo x q hq
    exact ⟨r, hr, hrq.trans hqp⟩
  forkNodes := h.forkNodes.trans h'.forkNodes
  joinNodes := h.joinNodes.trans h'.joinNodes

/-- When the lists stay as they are. -/
theorem of_sameLists (h : SameLists b b') (hsize : b.size ≤ b'.size)
    (hoperand : ∀ x i y, b.getOperand x i = some y → b'.getOperand x i = some y)
    (hpointsTo : ∀ x, ∀ p ∈ b.pointsTo x, ∃ q ∈ b'.pointsTo x, q.target = p.target) :
    Extends b b' where
  size := hsize
  getOperand := hoperand
  pairedNode n _ := by rw [h.pairedNode]
  arguments n _ := by rw [h.arguments]
  pointsTo := hpointsTo
  forkNodes := by rw [h.forkNodes]
  joinNodes := by rw [h.joinNodes]

theorem callOperand (h : Extends b b') {n i : Nat} (hn : n ∈ b.forkNodes ++ b.joinNodes)
    {x : PSNode Nat} (hx : b.callOperand n i = some x) : b'.callOperand n i = some x := by
  rw [Builder.callOperand]
  rw [h.pairedNode n hn]
  exact h.getOperand _ _ _ hx

/-- A common target stays one. -/
theorem share (h : Extends b b') {x y x' y' : Option (PSNode Nat)}
    (hx : ∀ z, x = some z → x' = some z) (hy : ∀ z, y = some z → y' = some z)
    (hshare : b.Share x y) : b'.Share x' y' := by
  obtain ⟨z, w, hz, hw, p, hp, q, hq, heq⟩ := hshare
  obtain ⟨p', hp', hpp⟩ := h.pointsTo z p hp
  obtain ⟨q', hq', hqq⟩ := h.pointsTo w q hq
  exact ⟨z, w, hx z hz, hy w hw, p', hp', q', hq', hpp.trans (heq.trans hqq.symm)⟩

theorem keeps_match (h : Extends b b') {join fork : Nat} (hjoin : join ∈ b.joinNodes)
    (hfork : fork ∈ b.forkNodes) (hmatch : b.Matches join fork) : b'.Matches join fork := by
  refine h.share (fun z hz => ?_) (fun z hz => ?_) hmatch
  · exact h.callOperand (List.mem_append_left _ hfork) hz
  · obtain ⟨load, hload, hz⟩ := Option.bind_eq_some_iff.1 hz
    rw [h.callOperand (List.mem_append_right _ hjoin) hload]
    exact h.getOperand _ _ _ hz

end Extends

theorem Wires.extends (h : Wires b b') : Extends b b' := by
  refine ⟨h.operands.length_le, ?_, fun n _ => by rw [h.pairedNode], fun n _ => by rw [h.arguments],
    fun x p hp => ⟨p, by rwa [h.pointsTo], rfl⟩, by rw [h.forkNodes], by rw [h.joinNodes]⟩
  intro x i y hy
  cases x with
  | node n =>
      obtain ⟨ops, hops, -⟩ := Option.bind_eq_some_iff.1 hy
      rw [h.getOperand (List.getElem?_eq_some_iff.1 hops).1]
      exact hy
  | nullptr => cases hy
  | unknownMemory => cases hy
  | invalidated => cases hy

/-! ## The steps of the builder -/

/-- What adds nodes and operands only. -/
structure Adds (b b' : Builder) : Prop where
  lists : SameLists b b'
  ext : Extends b b'

namespace Adds

theorem refl (b : Builder) : Adds b b := ⟨⟨rfl, rfl, rfl, rfl, rfl, rfl, rfl⟩, .refl b⟩

theorem trans (h : Adds b b') (h' : Adds b' b'') : Adds b b'' where
  lists := ⟨h'.lists.pairedNode.trans h.lists.pairedNode,
    h'.lists.arguments.trans h.lists.arguments,
    h'.lists.forkNodes.trans h.lists.forkNodes, h'.lists.joinNodes.trans h.lists.joinNodes,
    h'.lists.forks.trans h.lists.forks, h'.lists.joins.trans h.lists.joins,
    h'.lists.joinFunctions.trans h.lists.joinFunctions⟩
  ext := h.ext.trans h'.ext

/-- The graph has only got edges or functions of forks. -/
theorem of_eq (hlists : SameLists b b') (hoperands : b'.operands = b.operands)
    (hpointsTo : b'.pointsTo = b.pointsTo) : Adds b b' := by
  refine ⟨hlists, .of_sameLists hlists ?_ ?_ ?_⟩
  · unfold size
    rw [hoperands]
  · intro x i y hy
    cases x <;> simp_all [getOperand]
  · intro x p hp
    exact ⟨p, by rwa [hpointsTo], rfl⟩

theorem create (ops : List (PSNode Nat)) (b : Builder) : Adds b (b.create ops) := by
  have hlists : SameLists b (b.create ops) := ⟨rfl, rfl, rfl, rfl, rfl, rfl, rfl⟩
  refine ⟨hlists, .of_sameLists hlists ?_ ?_ fun x p hp => ⟨p, hp, rfl⟩⟩
  · exact (List.prefix_append _ _).length_le
  · intro x i y hy
    cases x with
    | node n =>
        obtain ⟨ops', hops, hy⟩ := Option.bind_eq_some_iff.1 hy
        show (b.operands ++ [ops])[n]?.bind _ = _
        rw [List.getElem?_append_left (List.getElem?_eq_some_iff.1 hops).1, hops]
        exact hy
    | nullptr => cases hy
    | unknownMemory => cases hy
    | invalidated => cases hy

theorem addOperand (n : Nat) (x : PSNode Nat) (b : Builder) : Adds b (b.addOperand n x) := by
  have hlists : SameLists b (b.addOperand n x) := ⟨rfl, rfl, rfl, rfl, rfl, rfl, rfl⟩
  refine ⟨hlists, .of_sameLists hlists ?_ ?_ fun x p hp => ⟨p, hp, rfl⟩⟩
  · exact (List.length_modify _ _ _).ge
  · intro y i z hz
    cases y with
    | node m =>
        obtain ⟨ops, hops, hget⟩ := Option.bind_eq_some_iff.1 hz
        show (b.operands.modify n _)[m]?.bind _ = _
        by_cases hm : n = m
        · subst hm
          rw [List.getElem?_modify_eq, hops]
          exact (List.getElem?_append_left (List.getElem?_eq_some_iff.1 hget).1).trans hget
        · rw [List.getElem?_modify_ne _ _ hm, hops]
          exact hget
    | nullptr => cases hz
    | unknownMemory => cases hz
    | invalidated => cases hz

theorem addSuccessor (n succ : Nat) (b : Builder) : Adds b (b.addSuccessor n succ) :=
  .of_eq ⟨rfl, rfl, rfl, rfl, rfl, rfl, rfl⟩ rfl rfl

theorem addArgumentOperands (args : List (Option (PSNode Nat))) (n : Nat) (b : Builder) :
    Adds b (b.addArgumentOperands args n) := by
  induction args generalizing b with
  | nil => exact .refl b
  | cons arg args ih =>
      cases arg with
      | none => exact ih b
      | some x =>
          show Adds b (Builder.addArgumentOperands args n
            (if b.hasOperand n x then b else b.addOperand n x))
          split
          · exact ih b
          · exact (addOperand n x b).trans (ih _)

theorem addArgumentsOperands {args : List (Option (PSNode Nat))} {phis : List Nat} {index : Nat}
    (h : Builder.addArgumentsOperands args index phis b = some b') : Adds b b' := by
  induction phis generalizing index b with
  | nil =>
      obtain rfl := Option.some.inj h
      exact .refl b
  | cons phi phis ih =>
      obtain ⟨arg, -, h⟩ := Option.bind_eq_some_iff.1 h
      exact (addArgumentOperands [arg] phi b).trans (ih h)

theorem addFunctionToFork {F fork : Nat} {built : PointerSubgraph}
    (h : b.addFunctionToFork F fork built = some b') : Adds b b' := by
  obtain ⟨b₁, hb₁, h⟩ := Option.bind_eq_some_iff.1 h
  obtain rfl := Option.some.inj h
  have hsubgraph : Adds b (b.createOrGetSubgraph F built).2 := by
    rw [createOrGetSubgraph]
    split
    · exact .refl b
    · exact .of_eq ⟨rfl, rfl, rfl, rfl, rfl, rfl, rfl⟩ rfl rfl
  refine (hsubgraph.trans (addArgumentsOperands hb₁)).trans ?_
  exact .of_eq ⟨rfl, rfl, rfl, rfl, rfl, rfl, rfl⟩ rfl rfl

end Adds

/-- The first `k` arguments have nodes, all different. -/
def Tidy (k : Nat) (args : List (Option (PSNode Nat))) : Prop :=
  ∃ (xs : List (PSNode Nat)) (rest : List (Option (PSNode Nat))),
    args = xs.map some ++ rest ∧ xs.Nodup ∧ k ≤ xs.length

theorem operands_addArgumentOperands {call : Nat} (xs : List (PSNode Nat)) :
    ∀ {b : Builder} {ops : List (PSNode Nat)}, b.operands[call]? = some ops → (ops ++ xs).Nodup →
      (b.addArgumentOperands (xs.map some) call).operands[call]? = some (ops ++ xs) := by
  induction xs with
  | nil =>
      intro b ops hops _
      rw [List.append_nil]
      exact hops
  | cons x xs ih =>
      intro b ops hops hnodup
      have hx : x ∉ ops := fun hmem =>
        (List.nodup_append.1 hnodup).2.2 x hmem x List.mem_cons_self rfl
      have hnew : b.hasOperand call x = false := by
        rw [hasOperand]
        rw [hops]
        simpa using hx
      have hadd : (b.addOperand call x).operands[call]? = some (ops ++ [x]) := by
        show (b.operands.modify call _)[call]? = _
        rw [List.getElem?_modify_eq, hops]
        rfl
      have heq : ops ++ x :: xs = ops ++ [x] ++ xs := by simp
      have hrest := ih hadd (heq ▸ hnodup)
      rw [heq, ← hrest]
      show (Builder.addArgumentOperands (xs.map some) call
        (if b.hasOperand call x then b else b.addOperand call x)).operands[call]? = _
      rw [hnew]
      rfl

/-- **The operands of a call node of its own** are the nodes of the arguments. -/
theorem getOperand_addArgumentOperands {k : Nat} {args : List (Option (PSNode Nat))}
    (htidy : Tidy k args) {call : Nat} (hcall : b.operands[call]? = some []) {i : Nat}
    (hi : i < k) :
    ∃ x, (args[i]?).join = some x ∧
      (b.addArgumentOperands args call).getOperand (.node call) i = some x := by
  obtain ⟨xs, rest, rfl, hnodup, hk⟩ := htidy
  have hlt : i < xs.length := by omega
  have hfirst := operands_addArgumentOperands xs hcall hnodup
  have hadds : Adds (b.addArgumentOperands (xs.map some) call)
      (b.addArgumentOperands (xs.map some ++ rest) call) := by
    unfold addArgumentOperands
    rw [List.foldl_append]
    exact Adds.addArgumentOperands rest call _
  refine ⟨xs[i], ?_, hadds.ext.getOperand _ _ _ ?_⟩
  · rw [List.getElem?_append_left (by simpa using hlt)]
    simp [hlt]
  · show Option.bind _ _ = _
    rw [hfirst]
    exact List.getElem?_eq_getElem hlt

/-- A node has come into the lists. -/
structure Enters (b b' : Builder) (n call : Nat) (args : List (Option (PSNode Nat))) : Prop where
  ext : Extends b b'
  new : b.size ≤ n
  lt : n < b'.size
  call_lt : call < b'.size
  pairedNode : b'.pairedNode n = call
  arguments : b'.arguments n = args
  forks : b'.forks = b.forks
  joins : b'.joins = b.joins
  joinFunctions : b'.joinFunctions = b.joinFunctions

theorem Enters.adds {n call : Nat} {args : List (Option (PSNode Nat))}
    (h : Enters b b' n call args) (h' : Adds b' b'') : Enters b b'' n call args where
  ext := h.ext.trans h'.ext
  new := h.new
  lt := h.lt.trans_le h'.ext.size
  call_lt := h.call_lt.trans_le h'.ext.size
  pairedNode := by rw [h'.lists.pairedNode, h.pairedNode]
  arguments := by rw [h'.lists.arguments, h.arguments]
  forks := h'.lists.forks.trans h.forks
  joins := h'.lists.joins.trans h.joins
  joinFunctions := h'.lists.joinFunctions.trans h.joinFunctions

theorem Enters.of_adds {n call : Nat} {args : List (Option (PSNode Nat))} (h : Adds b b')
    (h' : Enters b' b'' n call args) : Enters b b'' n call args where
  ext := h.ext.trans h'.ext
  new := h.ext.size.trans h'.new
  lt := h'.lt
  call_lt := h'.call_lt
  pairedNode := h'.pairedNode
  arguments := h'.arguments
  forks := h'.forks.trans h.lists.forks
  joins := h'.joins.trans h.lists.joins
  joinFunctions := h'.joinFunctions.trans h.lists.joinFunctions

/-- The entry of a fork or join made for a call node, where its list is known. -/
theorem enters (hplaced : b.Placed) {call : Nat} (hcall : call < b.size)
    (hnot : call ∉ b.forkNodes ++ b.joinNodes) (ops : List (PSNode Nat))
    (args : List (Option (PSNode Nat))) {forkNodes joinNodes : List Nat}
    (hforks : b.forkNodes <+: forkNodes) (hjoins : b.joinNodes <+: joinNodes) :
    Enters b { b.create ops with
      pairedNode := Function.update (Function.update b.pairedNode call b.size) b.size call
      arguments := Function.update b.arguments b.size args
      forkNodes := forkNodes
      joinNodes := joinNodes } b.size call args := by
  have hcreate := (Adds.create ops b).ext
  have hsize : b.size < (b.create ops).size := by
    show _ < (b.operands ++ [ops]).length
    rw [List.length_append]
    exact Nat.lt_succ_self _
  refine ⟨⟨hcreate.size, hcreate.getOperand, fun n hn => ?_, fun n hn => ?_, hcreate.pointsTo,
    hforks, hjoins⟩, Nat.le_refl _, hsize, hcall.trans hsize, ?_, ?_, rfl, rfl, rfl⟩
  · have hne : n ≠ call := fun heq => hnot (heq ▸ hn)
    show Function.update _ _ _ n = _
    rw [Function.update_of_ne (hplaced n hn).1.ne, Function.update_of_ne hne]
  · exact Function.update_of_ne (hplaced n hn).1.ne _ _
  · exact Function.update_self _ _ _
  · exact Function.update_self _ _ _

/-- The operands of its call node, when this is new. -/
theorem Enters.callOperand {n call k : Nat} {args : List (Option (PSNode Nat))}
    (h : Enters b b' n call args) (hempty : b'.operands[call]? = some []) (htidy : Tidy k args)
    (hadds : Adds (b'.addArgumentOperands args call) b'') {i : Nat} (hi : i < k) :
    ∃ x, (args[i]?).join = some x ∧ b''.callOperand n i = some x := by
  obtain ⟨x, hx, hget⟩ := getOperand_addArgumentOperands htidy hempty hi
  have hall := (h.adds (.addArgumentOperands args call b')).adds hadds
  refine ⟨x, hx, ?_⟩
  rw [Builder.callOperand]
  rw [hall.pairedNode]
  exact hadds.ext.getOperand _ _ _ hget

theorem createForkNode_spec (hplaced : b.Placed) {call fork : Nat} (hcall : call < b.size)
    (hnot : call ∉ b.forkNodes ++ b.joinNodes) {args : List (Option (PSNode Nat))}
    {spawned : Option (Nat × PointerSubgraph)}
    (h : b.createForkNode call args spawned = some (fork, b')) :
    Enters b b' fork call args ∧ b'.forkNodes = b.forkNodes ++ [fork] ∧ b'.joinNodes = b.joinNodes ∧
      (b.operands[call]? = some [] → Tidy 3 args →
        ∀ i < 3, ∃ x, (args[i]?).join = some x ∧ b'.callOperand fork i = some x) := by
  obtain ⟨routine, -, h⟩ := Option.bind_eq_some_iff.1 h
  have henters : Enters b ((b.create [routine]).enterFork call b.size args) b.size call args :=
    enters hplaced hcall hnot [routine] args (List.prefix_append b.forkNodes [b.size])
      (List.prefix_rfl (l := b.joinNodes))
  have hspawned : fork = b.size ∧ Adds (((b.create [routine]).enterFork call b.size
      args).addArgumentOperands args call) b' := by
    cases spawned with
    | none =>
        obtain ⟨rfl, rfl⟩ := Prod.mk.inj (Option.some.inj h)
        exact ⟨rfl, .refl _⟩
    | some F =>
        obtain ⟨b₁, hb₁, heq⟩ := Option.map_eq_some_iff.1 h
        obtain ⟨rfl, rfl⟩ := Prod.mk.inj heq
        exact ⟨rfl, .addFunctionToFork hb₁⟩
  obtain ⟨rfl, hadds⟩ := hspawned
  have hargs := Adds.addArgumentOperands args call ((b.create [routine]).enterFork call b.size args)
  refine ⟨(henters.adds hargs).adds hadds, hadds.lists.forkNodes.trans hargs.lists.forkNodes,
    hadds.lists.joinNodes.trans hargs.lists.joinNodes, fun hempty htidy i hi => ?_⟩
  exact henters.callOperand ((List.getElem?_append_left hcall).trans hempty) htidy hadds hi

theorem createJoinNode_spec (hplaced : b.Placed) {call : Nat} (hcall : call < b.size)
    (hnot : call ∉ b.forkNodes ++ b.joinNodes) (args : List (Option (PSNode Nat))) :
    Enters b (b.createJoinNode call args).2 b.size call args ∧
      (b.createJoinNode call args).2.forkNodes = b.forkNodes ∧
      (b.createJoinNode call args).2.joinNodes = b.joinNodes ++ [b.size] ∧
      (b.operands[call]? = some [] → Tidy 1 args → ∃ x, (args[0]?).join = some x ∧
        (b.createJoinNode call args).2.callOperand b.size 0 = some x) := by
  have henters : Enters b ((b.create []).enterJoin call b.size args) b.size call args :=
    enters hplaced hcall hnot [] args (List.prefix_rfl (l := b.forkNodes))
      (List.prefix_append b.joinNodes [b.size])
  have hargs := Adds.addArgumentOperands args call ((b.create []).enterJoin call b.size args)
  refine ⟨henters.adds hargs, hargs.lists.forkNodes, hargs.lists.joinNodes, fun hempty htidy => ?_⟩
  exact henters.callOperand ((List.getElem?_append_left hcall).trans hempty) htidy (.refl _)
    Nat.zero_lt_one

theorem Adds.addPointsTo (n : PSNode Nat) (p : Pointer Nat) (b : Builder) :
    Adds b (b.addPointsTo n p).1 := by
  have hlists : SameLists b (b.addPointsTo n p).1 := ⟨rfl, rfl, rfl, rfl, rfl, rfl, rfl⟩
  refine ⟨hlists, .of_sameLists hlists (Nat.le_refl _) (fun x i y hy => ?_) fun x q hq => ?_⟩
  · cases x <;> exact hy
  · show ∃ r ∈ Function.update b.pointsTo n _ x, _
    by_cases hx : x = n
    · subst hx
      rw [Function.update_self]
      obtain hmem | ⟨hmem, -⟩ := PointsToSet.grows_add p _ q hq
      · exact ⟨q, hmem, rfl⟩
      · exact ⟨q.widen, hmem, rfl⟩
    · rw [Function.update_of_ne hx]
      exact ⟨q, hq, rfl⟩

theorem Adds.processForkPointer {invalidateNodes : Bool} {built : Nat → PointerSubgraph}
    {fork : Nat} {s s' : Builder × Bool} {p : Pointer Nat}
    (h : Builder.processForkPointer invalidateNodes built fork s p = some s') : Adds s.1 s'.1 := by
  rw [Builder.processForkPointer] at h
  have hset := Adds.addPointsTo (.node fork) p s.1
  split at h
  · obtain rfl := Option.some.inj h
    exact .refl _
  · dsimp only at h
    split at h
    · split at h
      · split at h
        · obtain ⟨b₁, hb₁, rfl⟩ := Option.map_eq_some_iff.1 h
          exact hset.trans (.addFunctionToFork hb₁)
        · cases h
      · obtain rfl := Option.some.inj h
        exact hset
    · obtain rfl := Option.some.inj h
      exact hset

theorem Adds.processFork {invalidateNodes : Bool} {built : Nat → PointerSubgraph} {fork : Nat}
    {changed : Bool} (h : b.processFork invalidateNodes built fork = some (b', changed)) :
    Adds b b' := by
  obtain ⟨routine, -, h⟩ := Option.bind_eq_some_iff.1 h
  have hloop : ∀ {l : List (Pointer Nat)} {s s' : Builder × Bool},
      l.foldlM (Builder.processForkPointer invalidateNodes built fork) s = some s' →
        Adds s.1 s'.1 := by
    intro l
    induction l with
    | nil =>
        intro s s' h
        obtain rfl := Option.some.inj h
        exact .refl _
    | cons p l ih =>
        intro s s' h
        rw [List.foldlM_cons] at h
        obtain ⟨s₁, hs₁, h⟩ := Option.bind_eq_some_iff.1 h
        exact (processForkPointer hs₁).trans (ih h)
  exact hloop h

end Builder

end Cape.PointerAnalysis.Threads
