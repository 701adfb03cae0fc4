import Cape.Library.UpdatedSets
import Cape.PointerAnalysis.Threads

/-!
# Forks and joins matched

`matchJoinToRightCreate_spec` says what one processing of a JOIN node adds: the functions of all
forks that match, and the forks at which some function was new.
-/

set_option autoImplicit false

namespace Cape.PointerAnalysis.Threads

open Cape.Library

namespace Builder

variable {b b' b'' : Builder}

/-! ## What one processing of a JOIN node compares -/

/-- An operand of the call node of a fork or join. -/
def callOperand (b : Builder) (n i : Nat) : Option (PSNode Nat) :=
  b.getOperand (.node (b.pairedNode n)) i

/-- Two nodes point to a common target. -/
def Share (b : Builder) (x y : Option (PSNode Nat)) : Prop :=
  ∃ x' y', x = some x' ∧ y = some y' ∧
    ∃ p ∈ b.pointsTo x', ∃ q ∈ b.pointsTo y', p.target = q.target

/-- The functions that a node points to. -/
def functionsOf (b : Builder) (x : Option (PSNode Nat)) : List Nat :=
  (x.bind b.getUserData).elim [] b.getPointsToFunctions

/-- The code finds a common target of the handles. -/
def Matches (b : Builder) (join fork : Nat) : Prop :=
  b.Share (b.callOperand fork 0) ((b.callOperand join 0).bind fun load => b.getOperand load 0)

/-- The fork matches and has a function that the join has not. -/
def Brings (b : Builder) (join fork : Nat) : Prop :=
  b.Matches join fork ∧ ∃ F ∈ b.functionsOf (b.callOperand fork 2), F ∉ b.joinFunctions join

/-- The fork matches, and it or one before it brings a function. -/
def Registers (b : Builder) (join fork : Nat) : Prop :=
  b.Matches join fork ∧
    ∃ l₁ l₂, b.forkNodes = l₁ ++ fork :: l₂ ∧ ∃ g ∈ l₁ ++ [fork], b.Brings join g

/-- The forks of the joins and the joins of the forks say the same. -/
def Mirrored (b : Builder) : Prop :=
  ∀ join fork, fork ∈ b.forks join ↔ join ∈ b.joins fork

theorem threadHandleIntersection_ne_empty {S T : PointsToSet Nat} :
    threadHandleIntersection S T ≠ ∅ ↔ ∃ p ∈ S, ∃ q ∈ T, p.target = q.target := by
  rw [← Finset.nonempty_iff_ne_empty]
  constructor
  · rintro ⟨x, hx⟩
    obtain ⟨hS, hT⟩ := Finset.mem_inter.1 hx
    obtain ⟨p, hp, hpx⟩ := List.mem_map.1 (List.mem_toFinset.1 hS)
    obtain ⟨q, hq, hqx⟩ := List.mem_map.1 (List.mem_toFinset.1 hT)
    exact ⟨p, hp, q, hq, hpx.trans hqx.symm⟩
  · rintro ⟨p, hp, q, hq, heq⟩
    refine ⟨p.target, Finset.mem_inter.2 ⟨?_, ?_⟩⟩
    · exact List.mem_toFinset.2 (List.mem_map_of_mem hp)
    · rw [heq]
      exact List.mem_toFinset.2 (List.mem_map_of_mem hq)

/-- What the loop leaves as it is. -/
structure Wires (b b' : Builder) : Prop where
  operands : b.operands <+: b'.operands
  pairedNode : b'.pairedNode = b.pairedNode
  value : b'.value = b.value
  pointsTo : b'.pointsTo = b.pointsTo
  subgraph : b'.subgraph = b.subgraph
  arguments : b'.arguments = b.arguments
  forkNodes : b'.forkNodes = b.forkNodes
  joinNodes : b'.joinNodes = b.joinNodes
  forkFunctions : b'.forkFunctions = b.forkFunctions

namespace Wires

theorem refl (b : Builder) : Wires b b :=
  ⟨List.prefix_rfl, rfl, rfl, rfl, rfl, rfl, rfl, rfl, rfl⟩

theorem trans (h : Wires b b') (h' : Wires b' b'') : Wires b b'' :=
  ⟨h.operands.trans h'.operands, h'.pairedNode.trans h.pairedNode, h'.value.trans h.value,
    h'.pointsTo.trans h.pointsTo, h'.subgraph.trans h.subgraph, h'.arguments.trans h.arguments,
    h'.forkNodes.trans h.forkNodes, h'.joinNodes.trans h.joinNodes,
    h'.forkFunctions.trans h.forkFunctions⟩

/-- The operands of the nodes that were there. -/
theorem getOperand (h : Wires b b') {n : Nat} (hn : n < b.size) (i : Nat) :
    b'.getOperand (.node n) i = b.getOperand (.node n) i := by
  obtain ⟨t, ht⟩ := h.operands
  simp only [Builder.getOperand, ← ht, List.getElem?_append_left hn]

theorem callOperand (h : Wires b b') {f : Nat} (hf : b.pairedNode f < b.size) (i : Nat) :
    b'.callOperand f i = b.callOperand f i := by
  rw [Builder.callOperand]
  rw [h.pairedNode]
  exact h.getOperand hf i

theorem getPointsToFunctions (h : Wires b b') (V : Value) :
    b'.getPointsToFunctions V = b.getPointsToFunctions V := by
  cases V with
  | function n d => rfl
  | other x =>
      have hfunction : b'.isFunction = b.isFunction := by
        funext x
        cases x <;> simp only [isFunction, h.value]
      simp only [Builder.getPointsToFunctions, h.pointsTo, hfunction]

theorem functionsOf (h : Wires b b') (x : Option (PSNode Nat)) :
    b'.functionsOf x = b.functionsOf x := by
  have hdata : b'.getUserData = b.getUserData := by
    funext x
    cases x <;> simp only [getUserData, h.value]
  rw [Builder.functionsOf]
  rw [hdata]
  congr 1
  funext V
  exact h.getPointsToFunctions V

end Wires

/-- An operand for a later node. -/
theorem prefix_addOperand {l : List (List (PSNode Nat))} {n : Nat} (x : PSNode Nat)
    (h : l <+: b.operands) (hn : l.length ≤ n) : l <+: (b.addOperand n x).operands := by
  rw [List.prefix_iff_getElem?] at h ⊢
  intro i hi
  have hne : n ≠ i := by omega
  show (b.operands.modify n _)[i]? = _
  exact (List.getElem?_modify_ne _ _ hne).trans (h i hi)

/-- What the loop over the RETURN nodes leaves as it is. -/
theorem wires_foldl {f : Builder → Nat → Builder} {c : Builder} (hf : ∀ b' n, Wires c b' →
    Wires c (f b' n)) (l : List Nat) : ∀ b', Wires c b' → Wires c (l.foldl f b') := by
  induction l with
  | nil => exact fun _ h => h
  | cons n l ih => exact fun b' h => ih _ (hf b' n h)

/-- The lists of the joins are not changed by the wiring either. -/
structure SameJoins (b b' : Builder) : Prop where
  forks : b'.forks = b.forks
  joins : b'.joins = b.joins
  joinFunctions : b'.joinFunctions = b.joinFunctions

theorem SameJoins.foldl {f : Builder → Nat → Builder} (hf : ∀ b n, SameJoins b (f b n))
    (l : List Nat) : ∀ b, SameJoins b (l.foldl f b) := by
  induction l with
  | nil => exact fun b => ⟨rfl, rfl, rfl⟩
  | cons n l ih =>
      intro b
      have hn := hf b n
      have hl := ih (f b n)
      exact ⟨hl.forks.trans hn.forks, hl.joins.trans hn.joins,
        hl.joinFunctions.trans hn.joinFunctions⟩

/-- **`addFunctionToJoin`** adds the function, and only wires further nodes otherwise. -/
theorem addFunctionToJoin_spec {F join : Nat} (h : b.addFunctionToJoin F join = some b') :
    Wires b b' ∧ b'.forks = b.forks ∧ b'.joins = b.joins ∧
      b'.joinFunctions =
        Function.update b.joinFunctions join (insert F (b.joinFunctions join)) := by
  simp only [addFunctionToJoin] at h
  split at h
  · obtain ⟨subg, hsubg, h⟩ := Option.bind_eq_some_iff.1 h
    obtain ⟨retval, hretval, h⟩ := Option.bind_eq_some_iff.1 h
    split at h
    · obtain rfl := Option.some.inj h
      have hsame := SameJoins.foldl (f := fun b ret => b.addSuccessor ret join)
        (fun b n => ⟨rfl, rfl, rfl⟩) subg.returnNodes
      refine ⟨wires_foldl (fun b' n hb => ?_) _ _ ?_, (hsame _).forks, (hsame _).joins,
        (hsame _).joinFunctions⟩
      · exact hb.trans ⟨List.prefix_rfl, rfl, rfl, rfl, rfl, rfl, rfl, rfl, rfl⟩
      · exact ⟨List.prefix_rfl, rfl, rfl, rfl, rfl, rfl, rfl, rfl, rfl⟩
    · obtain rfl := Option.some.inj h
      have hsame := SameJoins.foldl (f := fun b' ret =>
          (b'.addSuccessor ret b.size).addOperand b.size (.node ret))
        (fun b n => ⟨rfl, rfl, rfl⟩) subg.returnNodes
      refine ⟨wires_foldl (fun b' n hb => ?_) _ _ ?_, (hsame _).forks, (hsame _).joins,
        (hsame _).joinFunctions⟩
      · -- the new PHI node is behind the nodes that were there
        exact ⟨prefix_addOperand _ hb.operands (Nat.le_refl _), hb.pairedNode, hb.value,
          hb.pointsTo, hb.subgraph, hb.arguments, hb.forkNodes, hb.joinNodes, hb.forkFunctions⟩
      · exact ⟨(List.prefix_append _ _).trans (List.prefix_append _ _), rfl, rfl, rfl, rfl, rfl,
          rfl, rfl, rfl⟩
  · obtain rfl := Option.some.inj h
    exact ⟨⟨List.prefix_rfl, rfl, rfl, rfl, rfl, rfl, rfl, rfl, rfl⟩, rfl, rfl, rfl⟩

/-- The new functions of one fork. -/
theorem addFunctions_spec {join : Nat} {l : List Nat} {s s' : Builder × Bool}
    (h : l.foldlM (fun s F => if F ∈ s.1.joinFunctions join then some s
      else (s.1.addFunctionToJoin F join).map (·, true)) s = some s') :
    Wires s.1 s'.1 ∧ s'.1.forks = s.1.forks ∧ s'.1.joins = s.1.joins ∧
      (∀ k F, F ∈ s'.1.joinFunctions k ↔ F ∈ s.1.joinFunctions k ∨ (k = join ∧ F ∈ l)) ∧
      (s'.2 = true ↔ s.2 = true ∨ ∃ F ∈ l, F ∉ s.1.joinFunctions join) := by
  induction l generalizing s with
  | nil =>
      obtain rfl := Option.some.inj h
      exact ⟨.refl _, rfl, rfl, fun k F => by simp, by simp⟩
  | cons F l ih =>
      rw [List.foldlM_cons] at h
      obtain ⟨s₁, hs₁, h⟩ := Option.bind_eq_some_iff.1 h
      obtain ⟨hwires, hforks, hjoins, hfunctions, hflag⟩ := ih h
      split at hs₁
      · next hknown =>
          obtain rfl := Option.some.inj hs₁
          refine ⟨hwires, hforks, hjoins, fun k G => ?_, ?_⟩
          · rw [hfunctions, List.mem_cons]
            constructor
            · rintro (hG | ⟨hk, hG⟩)
              · exact Or.inl hG
              · exact Or.inr ⟨hk, Or.inr hG⟩
            · rintro (hG | ⟨rfl, rfl | hG⟩)
              · exact Or.inl hG
              · exact Or.inl hknown
              · exact Or.inr ⟨rfl, hG⟩
          · rw [hflag, List.exists_mem_cons_iff]
            exact or_congr_right (or_iff_right fun hnot => hnot hknown).symm
      · next hnew =>
          obtain ⟨b₁, hb₁, rfl⟩ := Option.map_eq_some_iff.1 hs₁
          obtain ⟨hwires₁, hforks₁, hjoins₁, hfunctions₁⟩ := addFunctionToJoin_spec hb₁
          -- the function is new at this join and the sets of the others stay
          have hmem : ∀ k G, G ∈ b₁.joinFunctions k ↔
              G ∈ s.1.joinFunctions k ∨ (k = join ∧ G = F) := by
            intro k G
            rw [hfunctions₁, mem_update_insert, or_comm]
          refine ⟨hwires₁.trans hwires, hforks.trans hforks₁, hjoins.trans hjoins₁,
            fun k G => ?_, ?_⟩
          · rw [hfunctions, hmem, List.mem_cons, and_or_left, or_assoc]
          · rw [hflag]
            exact iff_of_true (Or.inl rfl) (Or.inr ⟨F, List.mem_cons_self, hnew⟩)

/-- **One fork**: it matches or not as at the start of the loop. -/
theorem matchFork_spec {join fork : Nat} {y : PSNode Nat} {s s' : Builder × Bool}
    (hwires : Wires b s.1) (hplaced : b.pairedNode fork < b.size)
    (hy : ((b.callOperand join 0).bind fun load => b.getOperand load 0) = some y)
    (h : matchFork join y s fork = some s') :
    Wires b s'.1 ∧
      (∀ k F, F ∈ s'.1.joinFunctions k ↔ F ∈ s.1.joinFunctions k ∨
        (k = join ∧ b.Matches join fork ∧ F ∈ b.functionsOf (b.callOperand fork 2))) ∧
      (s'.2 = true ↔ s.2 = true ∨ (b.Matches join fork ∧
        ∃ F ∈ b.functionsOf (b.callOperand fork 2), F ∉ s.1.joinFunctions join)) ∧
      (∀ k f, f ∈ s'.1.forks k ↔ f ∈ s.1.forks k ∨
        (k = join ∧ f = fork ∧ b.Matches join fork ∧ s'.2 = true)) ∧
      (s.1.Mirrored → s'.1.Mirrored) := by
  rw [matchFork] at h
  obtain ⟨x, hx, h⟩ := Option.bind_eq_some_iff.1 h
  have hx' : b.callOperand fork 0 = some x := (hwires.callOperand hplaced 0).symm.trans hx
  -- the loop does not change what the handles point to: it is read off the start
  have hmatches : b.Matches join fork ↔
      threadHandleIntersection (s.1.pointsTo x) (s.1.pointsTo y) ≠ ∅ := by
    rw [threadHandleIntersection_ne_empty, hwires.pointsTo]
    rw [Matches, Share]
    rw [hx', hy]
    constructor
    · rintro ⟨x', y', hxx, hyy, hshare⟩
      obtain rfl := Option.some.inj hxx
      obtain rfl := Option.some.inj hyy
      exact hshare
    · exact fun hshare => ⟨x, y, rfl, rfl, hshare⟩
  split at h
  · next hempty =>
      obtain rfl := Option.some.inj h
      have hnot : ¬ b.Matches join fork := fun hm => hmatches.1 hm hempty
      refine ⟨hwires, fun k F => ?_, ?_, fun k f => ?_, id⟩
      · exact (or_iff_left fun h => hnot h.2.1).symm
      · exact (or_iff_left fun h => hnot h.1).symm
      · exact (or_iff_left fun h => hnot h.2.2.1).symm
  · next hne =>
      have hmatch := hmatches.2 hne
      obtain ⟨func, hfunc, h⟩ := Option.bind_eq_some_iff.1 h
      obtain ⟨V, hV, h⟩ := Option.bind_eq_some_iff.1 h
      obtain ⟨s₁, hs₁, h⟩ := Option.bind_eq_some_iff.1 h
      obtain ⟨hwires₁, hforks₁, hjoins₁, hfunctions₁, hflag₁⟩ := addFunctions_spec hs₁
      -- nor the functions that the fork may start
      have hlist : s.1.getPointsToFunctions V = b.functionsOf (b.callOperand fork 2) := by
        rw [← hwires.functionsOf, ← hwires.callOperand hplaced]
        have hfunc' : s.1.callOperand fork 2 = some func := hfunc
        rw [functionsOf]
        rw [hfunc', Option.bind_some, hV]
        rfl
      rw [hlist] at hfunctions₁ hflag₁
      have hfunctions : ∀ k F, F ∈ s₁.1.joinFunctions k ↔ F ∈ s.1.joinFunctions k ∨
          (k = join ∧ b.Matches join fork ∧ F ∈ b.functionsOf (b.callOperand fork 2)) := by
        intro k F
        rw [hfunctions₁, and_iff_right hmatch]
      have hflag : s₁.2 = true ↔ s.2 = true ∨ (b.Matches join fork ∧
          ∃ F ∈ b.functionsOf (b.callOperand fork 2), F ∉ s.1.joinFunctions join) := by
        rw [hflag₁, and_iff_right hmatch]
      split at h
      · next hset =>
          obtain rfl := Option.some.inj h
          refine ⟨?_, hfunctions, by rw [← hflag]; exact iff_of_true rfl hset, fun k f => ?_,
            fun hmirrored k f => ?_⟩
          · have hall := hwires.trans hwires₁
            exact ⟨hall.operands, hall.pairedNode, hall.value, hall.pointsTo, hall.subgraph,
              hall.arguments, hall.forkNodes, hall.joinNodes, hall.forkFunctions⟩
          · show f ∈ Function.update s₁.1.forks join (insert fork (s₁.1.forks join)) k ↔ _
            rw [mem_update_insert, hforks₁, or_comm]
            simp [hmatch]
          · show f ∈ Function.update s₁.1.forks join (insert fork (s₁.1.forks join)) k ↔
              k ∈ Function.update s₁.1.joins fork (insert join (s₁.1.joins fork)) f
            rw [mem_update_insert, mem_update_insert, hforks₁, hjoins₁, hmirrored, and_comm]
      · next hset =>
          obtain rfl := Option.some.inj h
          refine ⟨hwires.trans hwires₁, hfunctions, hflag, fun k f => ?_, fun hmirrored k f => ?_⟩
          · rw [hforks₁]
            exact (or_iff_left fun h => hset h.2.2.2).symm
          · rw [hforks₁, hjoins₁]
            exact hmirrored k f

/-- **The loop over the forks.** A fork is registered when the flag is set by then. -/
theorem matchForks_spec {join : Nat} {y : PSNode Nat}
    (hy : ((b.callOperand join 0).bind fun load => b.getOperand load 0) = some y)
    {l : List Nat} (hplaced : ∀ f ∈ l, b.pairedNode f < b.size) {s s' : Builder × Bool}
    (hwires : Wires b s.1) (h : l.foldlM (matchFork join y) s = some s') :
    Wires b s'.1 ∧
      (∀ k F, F ∈ s'.1.joinFunctions k ↔ F ∈ s.1.joinFunctions k ∨
        (k = join ∧ ∃ g ∈ l, b.Matches join g ∧ F ∈ b.functionsOf (b.callOperand g 2))) ∧
      (s'.2 = true ↔ s.2 = true ∨ ∃ g ∈ l, b.Matches join g ∧
        ∃ F ∈ b.functionsOf (b.callOperand g 2), F ∉ s.1.joinFunctions join) ∧
      (∀ k f, f ∈ s'.1.forks k ↔ f ∈ s.1.forks k ∨ (k = join ∧ b.Matches join f ∧
        ∃ l₁ l₂, l = l₁ ++ f :: l₂ ∧ (s.2 = true ∨ ∃ g ∈ l₁ ++ [f], b.Matches join g ∧
          ∃ F ∈ b.functionsOf (b.callOperand g 2), F ∉ s.1.joinFunctions join))) ∧
      (s.1.Mirrored → s'.1.Mirrored) := by
  induction l generalizing s with
  | nil =>
      obtain rfl := Option.some.inj h
      exact ⟨hwires, fun k F => by simp, by simp, fun k f => by simp, id⟩
  | cons fork l ih =>
      rw [List.foldlM_cons] at h
      obtain ⟨s₁, hs₁, h⟩ := Option.bind_eq_some_iff.1 h
      obtain ⟨hfork, hplaced⟩ := List.forall_mem_cons.1 hplaced
      obtain ⟨hwires₁, hfunctions₁, hflag₁, hforks₁, hmirrored₁⟩ :=
        matchFork_spec hwires hfork hy hs₁
      obtain ⟨hwires', hfunctions, hflag, hforks, hmirrored⟩ := ih hplaced hwires₁ h
      -- what is new after this fork was new before, or this fork brings it
      have hnew : ∀ g, (b.Matches join g ∧ ∃ F ∈ b.functionsOf (b.callOperand g 2),
          F ∉ s₁.1.joinFunctions join) → b.Matches join g ∧
            ∃ F ∈ b.functionsOf (b.callOperand g 2), F ∉ s.1.joinFunctions join := by
        rintro g ⟨hg, F, hF, hnot⟩
        exact ⟨hg, F, hF, fun hmem => hnot ((hfunctions₁ join F).2 (Or.inl hmem))⟩
      have hold : ∀ g, (b.Matches join g ∧ ∃ F ∈ b.functionsOf (b.callOperand g 2),
          F ∉ s.1.joinFunctions join) → s₁.2 = true ∨ (b.Matches join g ∧
            ∃ F ∈ b.functionsOf (b.callOperand g 2), F ∉ s₁.1.joinFunctions join) := by
        rintro g ⟨hg, F, hF, hnot⟩
        by_cases hmem : F ∈ s₁.1.joinFunctions join
        · obtain hmem | ⟨-, hmatch, hF⟩ := (hfunctions₁ join F).1 hmem
          · exact absurd hmem hnot
          · exact Or.inl (hflag₁.2 (Or.inr ⟨hmatch, F, hF, hnot⟩))
        · exact Or.inr ⟨hg, F, hF, hmem⟩
      refine ⟨hwires', fun k F => ?_, ?_, fun k f => ?_, fun h => hmirrored (hmirrored₁ h)⟩
      · rw [hfunctions, hfunctions₁, or_assoc, List.exists_mem_cons_iff, and_or_left]
      · rw [hflag, hflag₁, or_assoc, List.exists_mem_cons_iff]
        constructor
        · rintro (hs | hg | ⟨g, hmem, hg⟩)
          · exact Or.inl hs
          · exact Or.inr (Or.inl hg)
          · exact Or.inr (Or.inr ⟨g, hmem, hnew g hg⟩)
        · rintro (hs | hg | ⟨g, hmem, hg⟩)
          · exact Or.inl hs
          · exact Or.inr (Or.inl hg)
          · obtain hset | hg := hold g hg
            · obtain hset | hset := hflag₁.1 hset
              · exact Or.inl hset
              · exact Or.inr (Or.inl hset)
            · exact Or.inr (Or.inr ⟨g, hmem, hg⟩)
      · rw [hforks, hforks₁, or_assoc]
        refine or_congr_right ?_
        constructor
        · rintro (⟨rfl, rfl, hmatch, hset⟩ | ⟨rfl, hmatch, l₁, l₂, rfl, hset⟩)
          · refine ⟨rfl, hmatch, [], l, rfl, ?_⟩
            obtain hset | hset := hflag₁.1 hset
            · exact Or.inl hset
            · exact Or.inr ⟨f, List.mem_singleton_self f, hset⟩
          · refine ⟨rfl, hmatch, fork :: l₁, l₂, rfl, ?_⟩
            obtain hset | ⟨g, hmem, hg⟩ := hset
            · obtain hset | hset := hflag₁.1 hset
              · exact Or.inl hset
              · exact Or.inr ⟨fork, List.mem_cons_self, hset⟩
            · exact Or.inr ⟨g, List.mem_cons_of_mem fork hmem, hnew g hg⟩
        · rintro ⟨rfl, hmatch, l₁, l₂, hl, hset⟩
          cases l₁ with
          | nil =>
              obtain ⟨rfl, rfl⟩ := List.cons.inj hl
              refine Or.inl ⟨rfl, rfl, hmatch, hflag₁.2 ?_⟩
              obtain hset | ⟨g, hmem, hg⟩ := hset
              · exact Or.inl hset
              · exact Or.inr (List.mem_singleton.1 hmem ▸ hg)
          | cons head l₁ =>
              obtain ⟨rfl, rfl⟩ := List.cons.inj hl
              refine Or.inr ⟨rfl, hmatch, l₁, l₂, rfl, ?_⟩
              obtain hset | ⟨g, hmem, hg⟩ := hset
              · exact Or.inl (hflag₁.2 (Or.inl hset))
              · obtain rfl | hmem := List.mem_cons.1 hmem
                · exact Or.inl (hflag₁.2 (Or.inr hg))
                · obtain hset | hg := hold g hg
                  · exact Or.inl hset
                  · exact Or.inr ⟨g, hmem, hg⟩

/-- **One processing of a JOIN node** adds the functions of all forks that match, and registers the
forks at which the flag is set. -/
theorem matchJoinToRightCreate_spec {join : Nat} {changed : Bool}
    (hplaced : ∀ f ∈ b.forkNodes, b.pairedNode f < b.size)
    (h : b.matchJoinToRightCreate join = some (b', changed)) :
    Wires b b' ∧
      (∀ k F, F ∈ b'.joinFunctions k ↔ F ∈ b.joinFunctions k ∨ (k = join ∧
        ∃ g ∈ b.forkNodes, b.Matches join g ∧ F ∈ b.functionsOf (b.callOperand g 2))) ∧
      (changed = true ↔ ∃ g ∈ b.forkNodes, b.Brings join g) ∧
      (∀ k f, f ∈ b'.forks k ↔ f ∈ b.forks k ∨ (k = join ∧ b.Registers join f)) ∧
      (b.Mirrored → b'.Mirrored) := by
  rw [matchJoinToRightCreate] at h
  obtain ⟨load, hload, h⟩ := Option.bind_eq_some_iff.1 h
  obtain ⟨y, hy, h⟩ := Option.bind_eq_some_iff.1 h
  have hhandle : ((b.callOperand join 0).bind fun load => b.getOperand load 0) = some y := by
    have hload' : b.callOperand join 0 = some load := hload
    rw [hload']
    exact hy
  obtain ⟨hwires, hfunctions, hflag, hforks, hmirrored⟩ :=
    matchForks_spec hhandle hplaced (.refl b) h
  refine ⟨hwires, hfunctions, ?_, fun k f => ?_, hmirrored⟩
  · simpa [Brings] using hflag
  · rw [hforks]
    simp [Registers, Brings]

end Builder

end Cape.PointerAnalysis.Threads
