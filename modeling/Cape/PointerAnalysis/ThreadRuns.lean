import Cape.PointerAnalysis.ThreadSteps

/-!
# Runs with forks and joins

A run creates forks and joins, processes FORK and JOIN nodes and does anything else that only adds,
in any order. `Run.spec` says what the joins have after it, by the states in which JOIN nodes were
processed.

`matched_of_run`: forks and joins are matched after a run in which the calls are direct and no fork
comes too late for a join. A fork comes too late when all functions that it may start were found for
the join before, through another fork: it is not registered then (`TwoThreads.not_matched`).
-/

set_option autoImplicit false

namespace Cape.PointerAnalysis.Threads

open Cape.Library

open Builder

/-! ## Runs -/

/-- What a step does. Calls of `pthread_create` and `pthread_join` come with their arguments. -/
inductive Event where
  | createFork (args : List (Option (PSNode Nat)))
  | createForkByPtr (args : List (Option (PSNode Nat)))
  | createJoin (args : List (Option (PSNode Nat)))
  | createJoinByPtr (args : List (Option (PSNode Nat)))
  | processFork (fork : Nat)
  | processJoin (join : Nat)
  | other

/-- One step, with all else that builds or processes nodes under `other`. -/
inductive Step : Event → Builder → Builder → Prop
  | createFork {b b' : Builder} {args : List (Option (PSNode Nat))}
      (spawned : Option (Nat × PointerSubgraph))
      (h : b.createPthreadCreate args spawned = some b') : Step (.createFork args) b b'
  | createForkByPtr {b b' : Builder} {args : List (Option (PSNode Nat))} {callsite : Nat}
      (hcall : callsite < b.size) (hnot : callsite ∉ b.forkNodes ++ b.joinNodes)
      (spawned : Option (Nat × PointerSubgraph))
      (h : b.insertPthreadCreateByPtrCall callsite args spawned = some b') :
      Step (.createForkByPtr args) b b'
  | createJoin {b : Builder} {args : List (Option (PSNode Nat))} :
      Step (.createJoin args) b (b.createPthreadJoin args)
  | createJoinByPtr {b : Builder} {args : List (Option (PSNode Nat))} {callsite : Nat}
      (hcall : callsite < b.size) (hnot : callsite ∉ b.forkNodes ++ b.joinNodes) :
      Step (.createJoinByPtr args) b (b.insertPthreadJoinByPtrCall callsite args)
  | processFork {b b' : Builder} {fork : Nat} {changed : Bool} (hmem : fork ∈ b.forkNodes)
      (invalidateNodes : Bool) (built : Nat → PointerSubgraph)
      (h : b.processFork invalidateNodes built fork = some (b', changed)) :
      Step (.processFork fork) b b'
  | processJoin {b b' : Builder} {join : Nat} {changed : Bool} (hmem : join ∈ b.joinNodes)
      (h : b.matchJoinToRightCreate join = some (b', changed)) : Step (.processJoin join) b b'
  | other {b b' : Builder} (hext : Extends b b') (hforks : b'.forkNodes = b.forkNodes)
      (hjoins : b'.joinNodes = b.joinNodes) (hsame : SameJoins b b') : Step .other b b'

/-- A run from a graph without forks and joins: the steps, the last one first, each with the state
before it, and the state after them. -/
inductive Run : List (Event × Builder) → Builder → Prop
  | start {b : Builder} (hforkNodes : b.forkNodes = []) (hjoinNodes : b.joinNodes = [])
      (hforks : ∀ n, b.forks n = ∅) (hjoins : ∀ n, b.joins n = ∅)
      (hfunctions : ∀ n, b.joinFunctions n = ∅) : Run [] b
  | step {trace : List (Event × Builder)} {e : Event} {b b' : Builder} (hrun : Run trace b)
      (hstep : Step e b b') : Run ((e, b) :: trace) b'

variable {b b' : Builder} {e : Event} {trace : List (Event × Builder)}

/-- The new call node and what comes for it. -/
theorem createFork_spec {args : List (Option (PSNode Nat))}
    {spawned : Option (Nat × PointerSubgraph)} (hplaced : b.Placed)
    (h : b.createPthreadCreate args spawned = some b') :
    ∃ fork, Enters b b' fork b.size args ∧ b'.forkNodes = b.forkNodes ++ [fork] ∧
      b'.joinNodes = b.joinNodes ∧ (Tidy 3 args →
        ∀ i < 3, ∃ x, (args[i]?).join = some x ∧ b'.callOperand fork i = some x) := by
  obtain ⟨⟨fork, b₁⟩, hb₁, h⟩ := Option.bind_eq_some_iff.1 h
  obtain rfl := Option.some.inj h
  have hcreate := Adds.create [] b
  have hlt : b.size < (b.create []).size := by
    show _ < (b.operands ++ [[]]).length
    rw [List.length_append]
    exact Nat.lt_succ_self _
  have hplaced₁ : (b.create []).Placed := fun n hn =>
    ⟨(hplaced n hn).1.trans hlt, (hplaced n hn).2.trans hlt⟩
  obtain ⟨henters, hforks, hjoins, hoperand⟩ := createForkNode_spec hplaced₁ hlt
    (fun hmem => lt_irrefl _ (hplaced _ hmem).1) hb₁
  have hedge := Adds.addSuccessor b.size fork b₁
  refine ⟨fork, (henters.adds hedge).of_adds hcreate, hforks, hjoins, fun htidy => ?_⟩
  exact hoperand (List.getElem?_concat_length) htidy

theorem createJoin_spec {args : List (Option (PSNode Nat))} (hplaced : b.Placed) :
    ∃ join, Enters b (b.createPthreadJoin args) join b.size args ∧
      (b.createPthreadJoin args).forkNodes = b.forkNodes ∧
      (b.createPthreadJoin args).joinNodes = b.joinNodes ++ [join] ∧ (Tidy 1 args →
        ∃ x, (args[0]?).join = some x ∧
          (b.createPthreadJoin args).callOperand join 0 = some x) := by
  have hcreate := Adds.create [] b
  have hlt : b.size < (b.create []).size := by
    show _ < (b.operands ++ [[]]).length
    rw [List.length_append]
    exact Nat.lt_succ_self _
  have hplaced₁ : (b.create []).Placed := fun n hn =>
    ⟨(hplaced n hn).1.trans hlt, (hplaced n hn).2.trans hlt⟩
  obtain ⟨henters, hforks, hjoins, hoperand⟩ := createJoinNode_spec hplaced₁ hlt
    (fun hmem => lt_irrefl _ (hplaced _ hmem).1) args
  exact ⟨_, henters.of_adds hcreate, hforks, hjoins,
    fun htidy => hoperand (List.getElem?_concat_length) htidy⟩

/-- A new node in the lists is placed, and the old ones stay so. -/
theorem Builder.Enters.placed {n call : Nat} {args : List (Option (PSNode Nat))}
    (h : Enters b b' n call args) (hplaced : b.Placed)
    (hmem : ∀ m ∈ b'.forkNodes ++ b'.joinNodes, m ∈ b.forkNodes ++ b.joinNodes ∨ m = n) :
    b'.Placed := by
  intro m hm
  obtain hm | rfl := hmem m hm
  · obtain ⟨hlt, hpaired⟩ := hplaced m hm
    rw [h.ext.pairedNode m hm]
    exact ⟨hlt.trans_le h.ext.size, hpaired.trans_le h.ext.size⟩
  · rw [h.pairedNode]
    exact ⟨h.lt, h.call_lt⟩

theorem Builder.Extends.placed (h : Extends b b') (hplaced : b.Placed)
    (hforks : b'.forkNodes = b.forkNodes) (hjoins : b'.joinNodes = b.joinNodes) : b'.Placed := by
  intro n hn
  rw [hforks, hjoins] at hn
  obtain ⟨hlt, hpaired⟩ := hplaced n hn
  rw [h.pairedNode n hn]
  exact ⟨hlt.trans_le h.size, hpaired.trans_le h.size⟩

/-- **What a step does** to the nodes, the lists and the joins. -/
theorem Step.spec (h : Step e b b') (hplaced : b.Placed) :
    b'.Placed ∧ Extends b b' ∧ ((∀ j, e ≠ .processJoin j) → SameJoins b b') := by
  -- the four steps that make a node differ in the list it is put on
  have hnew : ∀ {n call : Nat} {args : List (Option (PSNode Nat))}, Enters b b' n call args →
      (∀ m ∈ b'.forkNodes ++ b'.joinNodes, m ∈ b.forkNodes ++ b.joinNodes ∨ m = n) →
      b'.Placed ∧ Extends b b' ∧ ((∀ j, e ≠ .processJoin j) → SameJoins b b') :=
    fun henters hmem => ⟨henters.placed hplaced hmem, henters.ext,
      fun _ => ⟨henters.forks, henters.joins, henters.joinFunctions⟩⟩
  have hfork : ∀ {n : Nat}, b'.forkNodes = b.forkNodes ++ [n] → b'.joinNodes = b.joinNodes →
      ∀ m ∈ b'.forkNodes ++ b'.joinNodes, m ∈ b.forkNodes ++ b.joinNodes ∨ m = n := by
    intro n hforks hjoins m hm
    rw [hforks, hjoins] at hm
    simp only [List.mem_append, List.mem_singleton] at hm ⊢
    tauto
  have hjoin : ∀ {n : Nat}, b'.forkNodes = b.forkNodes → b'.joinNodes = b.joinNodes ++ [n] →
      ∀ m ∈ b'.forkNodes ++ b'.joinNodes, m ∈ b.forkNodes ++ b.joinNodes ∨ m = n := by
    intro n hforks hjoins m hm
    rw [hforks, hjoins] at hm
    simp only [List.mem_append, List.mem_singleton] at hm ⊢
    tauto
  cases h with
  | createFork spawned h =>
      obtain ⟨fork, henters, hforks, hjoins, -⟩ := createFork_spec hplaced h
      exact hnew henters (hfork hforks hjoins)
  | createForkByPtr hcall hnot spawned h =>
      obtain ⟨⟨fork, b₁⟩, hb₁, h⟩ := Option.bind_eq_some_iff.1 h
      obtain rfl := Option.some.inj h
      obtain ⟨henters, hforks, hjoins, -⟩ := createForkNode_spec hplaced hcall hnot hb₁
      exact hnew (henters.adds (.addSuccessor _ _ _)) (hfork hforks hjoins)
  | createJoin =>
      obtain ⟨join, henters, hforks, hjoins, -⟩ := createJoin_spec hplaced
      exact hnew henters (hjoin hforks hjoins)
  | @createJoinByPtr _ args callsite hcall hnot =>
      obtain ⟨henters, hforks, hjoins, -⟩ := createJoinNode_spec hplaced hcall hnot args
      have hedge : Adds (b.createJoinNode callsite args).2
          (b.insertPthreadJoinByPtrCall callsite args) :=
        .of_eq ⟨rfl, rfl, rfl, rfl, rfl, rfl, rfl⟩ rfl rfl
      exact hnew (henters.adds hedge) (hjoin hforks hjoins)
  | processFork hmem invalidateNodes built h =>
      have hadds := Adds.processFork h
      exact ⟨hadds.ext.placed hplaced hadds.lists.forkNodes hadds.lists.joinNodes, hadds.ext,
        fun _ => ⟨hadds.lists.forks, hadds.lists.joins, hadds.lists.joinFunctions⟩⟩
  | @processJoin _ _ join changed hmem h =>
      obtain ⟨hwires, -⟩ := matchJoinToRightCreate_spec
        (fun f hf => (hplaced f (List.mem_append_left _ hf)).2) h
      exact ⟨hwires.extends.placed hplaced hwires.forkNodes hwires.joinNodes, hwires.extends,
        fun hne => absurd rfl (hne join)⟩
  | other hext hforks hjoins hsame =>
      exact ⟨hext.placed hplaced hforks hjoins, hext, fun _ => hsame⟩

theorem Run.placed (h : Run trace b) : b.Placed := by
  induction h with
  | start hforkNodes hjoinNodes =>
      intro n hn
      rw [hforkNodes, hjoinNodes] at hn
      cases hn
  | step _ hstep ih => exact (hstep.spec ih).1

/-- What was there at a step is there at the end. -/
theorem Run.extends (h : Run trace b) {b₀ : Builder} (hmem : (e, b₀) ∈ trace) : Extends b₀ b := by
  induction h with
  | start => cases hmem
  | step hrun hstep ih =>
      have hext := (hstep.spec hrun.placed).2.1
      obtain heq | hmem := List.mem_cons.1 hmem
      · obtain ⟨rfl, rfl⟩ := Prod.mk.inj heq
        exact hext
      · exact (ih hmem).trans hext

/-- A fork stays registered. -/
theorem Step.forks_subset (h : Step e b b') (hplaced : b.Placed) (join : Nat) :
    b.forks join ⊆ b'.forks join := by
  by_cases he : ∃ j, e = .processJoin j
  · obtain ⟨j, rfl⟩ := he
    cases h with
    | processJoin hmem h =>
        obtain ⟨-, -, -, hforks, -⟩ := matchJoinToRightCreate_spec
          (fun f hf => (hplaced f (List.mem_append_left _ hf)).2) h
        exact fun f hf => (hforks join f).2 (Or.inl hf)
  · rw [((h.spec hplaced).2.2 fun j hj => he ⟨j, hj⟩).forks]

theorem Run.forks_subset (h : Run trace b) {b₀ : Builder} (hmem : (e, b₀) ∈ trace) (join : Nat) :
    b₀.forks join ⊆ b.forks join := by
  induction h with
  | start => cases hmem
  | step hrun hstep ih =>
      have hsubset := hstep.forks_subset hrun.placed join
      obtain heq | hmem := List.mem_cons.1 hmem
      · obtain ⟨rfl, rfl⟩ := Prod.mk.inj heq
        exact hsubset
      · exact (ih hmem).trans hsubset

/-- Only JOIN nodes in the list are processed. -/
theorem Run.mem_joinNodes (h : Run trace b) {join : Nat} {b₀ : Builder}
    (hmem : (.processJoin join, b₀) ∈ trace) : join ∈ b₀.joinNodes := by
  induction h with
  | start => cases hmem
  | step hrun hstep ih =>
      obtain heq | hmem := List.mem_cons.1 hmem
      · obtain ⟨rfl, rfl⟩ := Prod.mk.inj heq
        cases hstep with
        | processJoin hjoin => exact hjoin
      · exact ih hmem

/-- **The joins after a run**: the forks that were registered and the functions that were found when
the JOIN node was processed. -/
theorem Run.spec (h : Run trace b) :
    (∀ join fork, fork ∈ b.forks join ↔
      ∃ b₀, (.processJoin join, b₀) ∈ trace ∧ b₀.Registers join fork) ∧
    (∀ join F, F ∈ b.joinFunctions join ↔ ∃ b₀, (.processJoin join, b₀) ∈ trace ∧
      ∃ g ∈ b₀.forkNodes, b₀.Matches join g ∧ F ∈ b₀.functionsOf (b₀.callOperand g 2)) ∧
    b.Mirrored := by
  induction h with
  | start hforkNodes hjoinNodes hforks hjoins hfunctions =>
      refine ⟨fun join fork => ?_, fun join F => ?_, fun join fork => ?_⟩
      · rw [hforks]
        simp
      · rw [hfunctions]
        simp
      · rw [hforks, hjoins]
        simp
  | @step trace e b b' hrun hstep ih =>
      obtain ⟨ihforks, ihfunctions, ihmirrored⟩ := ih
      -- only the processing of a JOIN node writes to the joins
      by_cases he : ∃ j, e = .processJoin j
      · obtain ⟨j, rfl⟩ := he
        cases hstep with
        | processJoin hmem h =>
            obtain ⟨hwires, hfunctions, -, hforks, hmirrored⟩ := matchJoinToRightCreate_spec
              (fun f hf => (hrun.placed f (List.mem_append_left _ hf)).2) h
            refine ⟨fun join fork => ?_, fun join F => ?_, hmirrored ihmirrored⟩
            · rw [hforks, ihforks]
              simp only [List.mem_cons, Prod.mk.injEq, Event.processJoin.injEq]
              constructor
              · rintro (⟨b₀, hmem, hreg⟩ | ⟨rfl, hreg⟩)
                · exact ⟨b₀, Or.inr hmem, hreg⟩
                · exact ⟨b, Or.inl ⟨rfl, rfl⟩, hreg⟩
              · rintro ⟨b₀, ⟨rfl, rfl⟩ | hmem, hreg⟩
                · exact Or.inr ⟨rfl, hreg⟩
                · exact Or.inl ⟨b₀, hmem, hreg⟩
            · rw [hfunctions, ihfunctions]
              simp only [List.mem_cons, Prod.mk.injEq, Event.processJoin.injEq]
              constructor
              · rintro (⟨b₀, hmem, hfound⟩ | ⟨rfl, hfound⟩)
                · exact ⟨b₀, Or.inr hmem, hfound⟩
                · exact ⟨b, Or.inl ⟨rfl, rfl⟩, hfound⟩
              · rintro ⟨b₀, ⟨rfl, rfl⟩ | hmem, hfound⟩
                · exact Or.inr ⟨rfl, hfound⟩
                · exact Or.inl ⟨b₀, hmem, hfound⟩
      · have hne : ∀ j, e ≠ .processJoin j := fun j hj => he ⟨j, hj⟩
        have hsame := (hstep.spec hrun.placed).2.2 hne
        have hmem : ∀ join b₀, (.processJoin join, b₀) ∈ (e, b) :: trace ↔
            (.processJoin join, b₀) ∈ trace := by
          intro join b₀
          rw [List.mem_cons]
          exact or_iff_right fun heq => hne join (Prod.mk.inj heq).1.symm
        refine ⟨fun join fork => ?_, fun join F => ?_, fun join fork => ?_⟩
        · rw [hsame.forks, ihforks]
          simp only [hmem]
        · rw [hsame.joinFunctions, ihfunctions]
          simp only [hmem]
        · rw [hsame.forks, hsame.joins]
          exact ihmirrored join fork

/-! ## When the matching is right -/

namespace Builder

/-- The node of an argument of the call of a fork or join. -/
def argument (b : Builder) (n i : Nat) : Option (PSNode Nat) := ((b.arguments n)[i]?).join

/-- The thread handles have a common target: the pointer that the fork's call gets, and the one that
the join's thread is loaded from. -/
def CommonTarget (b : Builder) (join fork : Nat) : Prop :=
  b.Share (b.argument fork 0) ((b.argument join 0).bind fun load => b.getOperand load 0)

/-- The functions that a fork may start. -/
def mayStart (b : Builder) (fork : Nat) : List Nat := b.functionsOf (b.argument fork 2)

/-- **Forks and joins are matched**: a fork is with the joins that have a handle target in common
with it, and these have all defined functions that it may start. -/
structure Matched (b : Builder) : Prop where
  forks : ∀ join ∈ b.joinNodes, ∀ fork,
    fork ∈ b.forks join ↔ fork ∈ b.forkNodes ∧ b.CommonTarget join fork
  functions : ∀ join ∈ b.joinNodes, ∀ fork ∈ b.forks join, ∀ F ∈ b.mayStart fork,
    b.isDefined F = true → F ∈ b.joinFunctions join

/-- The forks that match are there already, or are registered now. -/
def Timely (b : Builder) (join : Nat) : Prop :=
  ∀ fork ∈ b.forkNodes, b.Matches join fork → fork ∈ b.forks join ∨ b.Registers join fork

/-- What a join reads has not changed. -/
def Unaltered (b b' : Builder) (join : Nat) : Prop :=
  ∀ fork ∈ b'.forkNodes, fork ∈ b.forkNodes ∧ (b'.Matches join fork → b.Matches join fork) ∧
    ∀ F ∈ b'.functionsOf (b'.callOperand fork 2), F ∈ b.functionsOf (b.callOperand fork 2)

/-- The operands that the code reads are the arguments. -/
def Direct (b : Builder) : Prop :=
  (∀ fork ∈ b.forkNodes, ∀ i < 3, ∃ x, b.argument fork i = some x ∧ b.callOperand fork i = some x) ∧
    ∀ join ∈ b.joinNodes, ∃ x, b.argument join 0 = some x ∧ b.callOperand join 0 = some x

theorem Extends.argument (h : Extends b b') {n i : Nat} (hn : n ∈ b.forkNodes ++ b.joinNodes) :
    b'.argument n i = b.argument n i := by
  unfold Builder.argument
  rw [h.arguments n hn]

theorem Direct.matches_iff (h : b.Direct) {join fork : Nat} (hjoin : join ∈ b.joinNodes)
    (hfork : fork ∈ b.forkNodes) : b.Matches join fork ↔ b.CommonTarget join fork := by
  obtain ⟨x, hx, hx'⟩ := h.1 fork hfork 0 (by omega)
  obtain ⟨y, hy, hy'⟩ := h.2 join hjoin
  rw [Matches, CommonTarget]
  rw [hx, hx', hy, hy']

theorem Direct.mayStart_eq (h : b.Direct) {fork : Nat} (hfork : fork ∈ b.forkNodes) :
    b.mayStart fork = b.functionsOf (b.callOperand fork 2) := by
  obtain ⟨x, hx, hx'⟩ := h.1 fork hfork 2 (by omega)
  rw [mayStart]
  rw [hx, hx']

end Builder

/-- The step is no call through a pointer, the arguments of a call have nodes, all different, and a
JOIN node is processed when no fork comes too late for it. -/
def Event.Regular : Event → Builder → Prop
  | .createFork args, _ => Tidy 3 args
  | .createForkByPtr _, _ => False
  | .createJoin args, _ => Tidy 1 args
  | .createJoinByPtr _, _ => False
  | .processJoin join, b => b.Timely join
  | _, _ => True

/-- The analysis has ended: each JOIN node was processed after the last change of what it reads. -/
def Ended (trace : List (Event × Builder)) (b : Builder) : Prop :=
  ∀ join ∈ b.joinNodes, ∃ b₀, (.processJoin join, b₀) ∈ trace ∧ b₀.Unaltered b join

/-- Nodes that were there keep their operands. -/
theorem Step.direct_old (hext : Extends b b') (h : b.Direct) :
    (∀ fork ∈ b.forkNodes, ∀ i < 3, ∃ x, b'.argument fork i = some x ∧
      b'.callOperand fork i = some x) ∧
    ∀ join ∈ b.joinNodes, ∃ x, b'.argument join 0 = some x ∧ b'.callOperand join 0 = some x := by
  constructor
  · intro fork hfork i hi
    have hmem := List.mem_append_left b.joinNodes hfork
    obtain ⟨x, hx, hx'⟩ := h.1 fork hfork i hi
    exact ⟨x, (hext.argument hmem).trans hx, hext.callOperand hmem hx'⟩
  · intro join hjoin
    have hmem := List.mem_append_right b.forkNodes hjoin
    obtain ⟨x, hx, hx'⟩ := h.2 join hjoin
    exact ⟨x, (hext.argument hmem).trans hx, hext.callOperand hmem hx'⟩

theorem Step.direct (h : Step e b b') (hplaced : b.Placed) (hregular : e.Regular b)
    (hdirect : b.Direct) : b'.Direct := by
  -- old nodes keep their operands, so only a new node is to be looked at
  have hold := Step.direct_old (h.spec hplaced).2.1 hdirect
  cases h with
  | createFork spawned h =>
      obtain ⟨fork, henters, hforks, hjoins, hoperand⟩ := createFork_spec hplaced h
      constructor
      · intro f hf i hi
        rw [hforks] at hf
        obtain hf | hf := List.mem_append.1 hf
        · exact hold.1 f hf i hi
        · obtain rfl := List.mem_singleton.1 hf
          obtain ⟨x, hx, hx'⟩ := hoperand hregular i hi
          refine ⟨x, ?_, hx'⟩
          rw [argument]
          rw [henters.arguments]
          exact hx
      · rw [hjoins]
        exact hold.2
  | createForkByPtr => exact hregular.elim
  | createJoin =>
      obtain ⟨join, henters, hforks, hjoins, hoperand⟩ := createJoin_spec hplaced
      constructor
      · rw [hforks]
        exact hold.1
      · intro j hj
        rw [hjoins] at hj
        obtain hj | hj := List.mem_append.1 hj
        · exact hold.2 j hj
        · obtain rfl := List.mem_singleton.1 hj
          obtain ⟨x, hx, hx'⟩ := hoperand hregular
          refine ⟨x, ?_, hx'⟩
          rw [argument]
          rw [henters.arguments]
          exact hx
  | createJoinByPtr => exact hregular.elim
  | processFork hmem invalidateNodes built h =>
      have hlists := (Adds.processFork h).lists
      rw [Direct]
      rw [hlists.forkNodes, hlists.joinNodes]
      exact hold
  | processJoin hmem h =>
      obtain ⟨hwires, -⟩ := matchJoinToRightCreate_spec
        (fun f hf => (hplaced f (List.mem_append_left _ hf)).2) h
      rw [Direct]
      rw [hwires.forkNodes, hwires.joinNodes]
      exact hold
  | other hext hforks hjoins hsame =>
      rw [Direct]
      rw [hforks, hjoins]
      exact hold

theorem Run.direct (h : Run trace b) (hregular : ∀ s ∈ trace, s.1.Regular s.2) : b.Direct := by
  induction h with
  | start hforkNodes hjoinNodes =>
      constructor
      · intro f hf
        rw [hforkNodes] at hf
        cases hf
      · intro j hj
        rw [hjoinNodes] at hj
        cases hj
  | step hrun hstep ih =>
      obtain ⟨hnow, hbefore⟩ := List.forall_mem_cons.1 hregular
      exact hstep.direct hrun.placed hnow (ih hbefore)

/-- **In a regular run that has ended forks and joins are matched.** -/
theorem matched_of_run (h : Run trace b) (hregular : ∀ s ∈ trace, s.1.Regular s.2)
    (hended : Ended trace b) : b.Matched := by
  obtain ⟨hforks, hfunctions, -⟩ := h.spec
  have hdirect := h.direct hregular
  have hsound : ∀ join ∈ b.joinNodes, ∀ fork ∈ b.forks join,
      fork ∈ b.forkNodes ∧ b.Matches join fork := by
    intro join hjoin fork hmem
    obtain ⟨b₀, hb₀, hmatch, l₁, l₂, hlist, -⟩ := (hforks join fork).1 hmem
    have hfork : fork ∈ b₀.forkNodes := by
      rw [hlist]
      exact List.mem_append_right _ List.mem_cons_self
    have hext := h.extends hb₀
    exact ⟨hext.forkNodes.subset hfork, hext.keeps_match (h.mem_joinNodes hb₀) hfork hmatch⟩
  constructor
  · intro join hjoin fork
    constructor
    · intro hmem
      obtain ⟨hfork, hmatch⟩ := hsound join hjoin fork hmem
      exact ⟨hfork, (hdirect.matches_iff hjoin hfork).1 hmatch⟩
    · rintro ⟨hfork, hcommon⟩
      obtain ⟨b₀, hb₀, hsame⟩ := hended join hjoin
      obtain ⟨hfork₀, hback, -⟩ := hsame fork hfork
      have hmatch := hback ((hdirect.matches_iff hjoin hfork).2 hcommon)
      -- when the join was last processed the fork was registered, if not before
      have htimely : b₀.Timely join := hregular _ hb₀
      obtain hmem | hreg := htimely fork hfork₀ hmatch
      · exact h.forks_subset hb₀ join hmem
      · exact (hforks join fork).2 ⟨b₀, hb₀, hreg⟩
  · intro join hjoin fork hmem F hF _
    obtain ⟨hfork, hmatch⟩ := hsound join hjoin fork hmem
    obtain ⟨b₀, hb₀, hsame⟩ := hended join hjoin
    obtain ⟨hfork₀, hback, hfunctions₀⟩ := hsame fork hfork
    rw [hdirect.mayStart_eq hfork] at hF
    exact (hfunctions join F).2 ⟨b₀, hb₀, fork, hfork₀, hback hmatch, hfunctions₀ F hF⟩

/-- A JOIN node has seen everything that it reads right after it was processed. -/
theorem Builder.unaltered_of_processJoin (hplaced : b.Placed) {join : Nat} {changed : Bool}
    (h : b.matchJoinToRightCreate join = some (b', changed)) (hjoin : join ∈ b.joinNodes) :
    b.Unaltered b' join := by
  have hforks : ∀ f ∈ b.forkNodes, b.pairedNode f < b.size :=
    fun f hf => (hplaced f (List.mem_append_left _ hf)).2
  obtain ⟨hwires, -⟩ := matchJoinToRightCreate_spec hforks h
  obtain ⟨load, hload, h⟩ := Option.bind_eq_some_iff.1 h
  obtain ⟨y, hy, -⟩ := Option.bind_eq_some_iff.1 h
  have hload : b.callOperand join 0 = some load := hload
  have hcall : b'.callOperand join 0 = b.callOperand join 0 :=
    hwires.callOperand (hplaced join (List.mem_append_right _ hjoin)).2 0
  have hhandle : b'.getOperand load 0 = b.getOperand load 0 := by
    rw [hy]
    exact hwires.extends.getOperand _ _ _ hy
  intro fork hfork
  rw [hwires.forkNodes] at hfork
  refine ⟨hfork, fun hmatch => ?_, fun F hF => ?_⟩
  · unfold Matches Share at hmatch ⊢
    rw [hwires.callOperand (hforks fork hfork), hcall, hload, Option.bind_some, hhandle,
      hwires.pointsTo] at hmatch
    rw [hload]
    exact hmatch
  · rwa [hwires.functionsOf, hwires.callOperand (hforks fork hfork)] at hF

/-- When all forks are registered in the end, none was late. -/
theorem Builder.timely_of_forks (hplaced : b.Placed) {join : Nat} {changed : Bool}
    (h : b.matchJoinToRightCreate join = some (b', changed))
    (hall : ∀ fork ∈ b.forkNodes, fork ∈ b'.forks join) : b.Timely join := by
  obtain ⟨-, -, -, hforks, -⟩ := matchJoinToRightCreate_spec
    (fun f hf => (hplaced f (List.mem_append_left _ hf)).2) h
  intro fork hfork _
  obtain hmem | ⟨-, hreg⟩ := (hforks join fork).1 (hall fork hfork)
  · exact Or.inl hmem
  · exact Or.inr hreg

/-! ## Two threads with one start routine -/

namespace TwoThreads

/-- The handles 0 and 1, the function 2 with entry 5, argument 6 and RETURN node 7, and a pointer 3
to a handle, whose thread is loaded at 4. -/
def graph : Builder where
  operands := [[], [], [], [.node 8], [.node 3], [], [], [], []]
  successors := fun _ => []
  pairedNode := fun n => n
  value := fun n => if n = 2 then some (.function 2 true) else some (.other (.node n))
  pointsTo := fun x => if x = .node 3 then .singleton ⟨.node 0, 0⟩ else .singleton ⟨x, 0⟩
  subgraph := fun _ => none
  arguments := fun _ => []
  forkNodes := []
  joinNodes := []
  forks := fun _ => ∅
  joins := fun _ => ∅
  forkFunctions := fun _ => ∅
  joinFunctions := fun _ => ∅

/-- `pthread_create` for a handle, and `pthread_join` for the loaded thread. -/
def createArgs (handle : Nat) : List (Option (PSNode Nat)) :=
  [some (.node handle), some .nullptr, some (.node 2), some .nullptr]

def joinArgs : List (Option (PSNode Nat)) := [some (.node 4), some .nullptr]

def body : PointerSubgraph := ⟨5, [6], [7]⟩

/-- The call 9 with the fork 10. -/
def oneFork : Builder :=
  (graph.createPthreadCreate (createArgs 0) (some (2, body))).get (by decide)

/-- The call 11 with the join 12. -/
def oneJoin : Builder := oneFork.createPthreadJoin joinArgs

def oneMatched : Builder × Bool := (oneJoin.matchJoinToRightCreate 12).get (by decide)

theorem start : Run [] graph :=
  .start rfl rfl (fun _ => rfl) (fun _ => rfl) (fun _ => rfl)

theorem tidy_createArgs (handle : Nat) (h : handle ≠ 2) : Tidy 3 (createArgs handle) :=
  ⟨[.node handle, .nullptr, .node 2], [some .nullptr], rfl, by simp [h], Nat.le_refl 3⟩

theorem tidy_joinArgs : Tidy 1 joinArgs :=
  ⟨[.node 4], [some .nullptr], rfl, List.nodup_singleton _, Nat.le_refl 1⟩

theorem run_oneFork : Run [(.createFork (createArgs 0), graph)] oneFork :=
  .step start (.createFork (some (2, body)) (Option.some_get _).symm)

theorem run_oneJoin :
    Run [(.createJoin joinArgs, oneFork), (.createFork (createArgs 0), graph)] oneJoin :=
  .step run_oneFork .createJoin

theorem processed_oneJoin : oneJoin.matchJoinToRightCreate 12 = some oneMatched :=
  (Option.some_get _).symm

/-- One thread is matched. -/
theorem matched_of_run_oneMatched : oneMatched.1.Matched := by
  have hmem : 12 ∈ oneJoin.joinNodes := by decide
  refine matched_of_run (.step run_oneJoin (.processJoin hmem processed_oneJoin)) ?_ ?_
  · intro s hs
    simp only [List.mem_cons, List.not_mem_nil, or_false] at hs
    obtain rfl | rfl | rfl := hs
    · exact timely_of_forks run_oneJoin.placed processed_oneJoin (by decide)
    · exact tidy_joinArgs
    · exact tidy_createArgs 0 (by decide)
  · intro join hjoin
    obtain rfl : join = 12 := by
      have hlist : oneMatched.1.joinNodes = [12] := by decide
      rw [hlist] at hjoin
      exact List.mem_singleton.1 hjoin
    exact ⟨oneJoin, List.mem_cons_self, unaltered_of_processJoin run_oneJoin.placed
      processed_oneJoin hmem⟩

/-- A second thread, with the fork 12, before the join 14. -/
def twoForks : Builder :=
  (oneFork.createPthreadCreate (createArgs 1) (some (2, body))).get (by decide)

def twoJoin : Builder := twoForks.createPthreadJoin joinArgs

def first : Builder × Bool := (twoJoin.matchJoinToRightCreate 14).get (by decide)

/-- The joined thread may also be the second one. -/
def grown : Builder := (first.1.addPointsTo (.node 3) ⟨.node 1, 0⟩).1

def second : Builder × Bool := (grown.matchJoinToRightCreate 14).get (by decide)

def steps : List (Event × Builder) :=
  [(.processJoin 14, grown), (.other, first.1), (.processJoin 14, twoJoin),
    (.createJoin joinArgs, twoForks), (.createFork (createArgs 1), oneFork),
    (.createFork (createArgs 0), graph)]

theorem processed_twoJoin : twoJoin.matchJoinToRightCreate 14 = some first :=
  (Option.some_get _).symm

theorem processed_grown : grown.matchJoinToRightCreate 14 = some second :=
  (Option.some_get _).symm

theorem run_grown : Run steps.tail grown := by
  have hfork : Run _ twoForks :=
    .step run_oneFork (.createFork (some (2, body)) (Option.some_get _).symm)
  have hfirst : Run _ first.1 :=
    .step (.step hfork .createJoin) (.processJoin (by decide) processed_twoJoin)
  have hadds := Adds.addPointsTo (.node 3) ⟨.node 1, 0⟩ first.1
  exact .step hfirst (.other hadds.ext rfl rfl ⟨rfl, rfl, rfl⟩)

/-- **The second fork is not registered**: its function was known from the first one. -/
theorem not_matched : Run steps second.1 ∧ Ended steps second.1 ∧ ¬ second.1.Matched := by
  have hmem : 14 ∈ grown.joinNodes := by decide
  refine ⟨.step run_grown (.processJoin hmem processed_grown), fun join hjoin => ?_, fun h => ?_⟩
  · obtain rfl : join = 14 := by
      have hlist : second.1.joinNodes = [14] := by decide
      rw [hlist] at hjoin
      exact List.mem_singleton.1 hjoin
    exact ⟨grown, List.mem_cons_self,
      unaltered_of_processJoin run_grown.placed processed_grown hmem⟩
  · have hnot : 12 ∉ second.1.forks 14 := by decide
    apply hnot ∘ (h.forks 14 (by decide) 12).2
    refine ⟨by decide, .node 1, .node 3, by decide, by decide, ?_⟩
    exact ⟨⟨.node 1, 0⟩, by decide, ⟨.node 1, 0⟩, by decide, rfl⟩

/-- The graph with a call 9 of the function pointer 10. -/
def pointerGraph : Builder := { graph with operands := graph.operands ++ [[.node 10], []] }

/-- The fork 11 of the call through the pointer. -/
def pointerFork : Builder :=
  (pointerGraph.insertPthreadCreateByPtrCall 9 (createArgs 0) (some (2, body))).get (by decide)

/-- The call 12 with the join 13. -/
def pointerJoin : Builder := pointerFork.createPthreadJoin joinArgs

def pointerMatched : Builder × Bool := (pointerJoin.matchJoinToRightCreate 13).get (by decide)

theorem processed_pointerJoin : pointerJoin.matchJoinToRightCreate 13 = some pointerMatched :=
  (Option.some_get _).symm

theorem run_pointerJoin : Run [(.createJoin joinArgs, pointerFork),
    (.createForkByPtr (createArgs 0), pointerGraph)] pointerJoin := by
  have hstart : Run [] pointerGraph := .start rfl rfl (fun _ => rfl) (fun _ => rfl) (fun _ => rfl)
  have hnot : 9 ∉ pointerGraph.forkNodes ++ pointerGraph.joinNodes := by decide
  exact .step (.step hstart (.createForkByPtr (by decide) hnot (some (2, body))
    (Option.some_get _).symm)) .createJoin

/-- **A thread created through a function pointer is not found**: the called pointer is taken for
the handle. -/
theorem not_matched_pointer : ¬ pointerMatched.1.Matched ∧
    ∃ steps, Run steps pointerMatched.1 ∧ Ended steps pointerMatched.1 := by
  have hmem : 13 ∈ pointerJoin.joinNodes := by decide
  refine ⟨fun h => ?_, _, .step run_pointerJoin (.processJoin hmem processed_pointerJoin),
    fun join hjoin => ?_⟩
  · have hnot : 11 ∉ pointerMatched.1.forks 13 := by decide
    apply hnot ∘ (h.forks 13 (by decide) 11).2
    refine ⟨by decide, .node 0, .node 3, by decide, by decide, ?_⟩
    exact ⟨⟨.node 0, 0⟩, by decide, ⟨.node 0, 0⟩, by decide, rfl⟩
  · obtain rfl : join = 13 := by
      have hlist : pointerMatched.1.joinNodes = [13] := by decide
      rw [hlist] at hjoin
      exact List.mem_singleton.1 hjoin
    exact ⟨pointerJoin, List.mem_cons_self, unaltered_of_processJoin run_pointerJoin.placed
      processed_pointerJoin hmem⟩

end TwoThreads

end Cape.PointerAnalysis.Threads
