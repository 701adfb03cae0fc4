import Cape.PointerAnalysis.EncodedRuns

/-!
# Unknown offsets in points-to sets

With the unknown offset of a target in a set, its known offsets say nothing more. Additions keep the
sets in the form without them, and the union puts the pointers of two sets together as they are.
`normalRuns_iff` says in which runs every set is the normal form of what came into it.
-/

set_option autoImplicit false

namespace Cape.PointerAnalysis

open Cape.Library

universe u

variable {N K : Type u} [DecidableEq N]

/-- A set does not hold the unknown offset of a target and a known one. -/
def NormalForm (C : Pointer N → Prop) : Prop :=
  ∀ p, C p → C p.widen → p.offset = .unknown

/-- The pointers without the known offsets of targets whose unknown offset is there. -/
def normalized (H : Pointer N → Prop) (p : Pointer N) : Prop :=
  H p ∧ (H p.widen → p.offset = .unknown)

/-- The pointers that have come into the sets. -/
def addedStep (H : Nat → Pointer N → Prop) : SetOp N → Nat → Pointer N → Prop
  | .add i p => Function.update H i fun q => H i q ∨ q = p
  | .union i j => Function.update H i fun q => H i q ∨ H j q
  | .pointsTo _ _ => H
  | .mayPointTo _ _ => H
  | .pointsToTarget _ _ => H

def added (ops : List (SetOp N)) : Nat → Pointer N → Prop := ops.foldl addedStep fun _ _ => False

/-- In each state of the run, each set is in the normal form, and its pointers are the normal form of
those that have come into it, in whatever order. -/
def NormalRun (contents : List (SetOp N) → Nat → Pointer N → Prop) (ops : List (SetOp N)) : Prop :=
  ∀ pre, pre <+: ops → ∀ i, NormalForm (contents pre i) ∧
    ∀ p, contents pre i p ↔ normalized (added pre i) p

/-- The pointers of a plain set. -/
def simpleContents (ops : List (SetOp N)) (i : Nat) (p : Pointer N) : Prop :=
  p ∈ SimplePointsToSet.run ops i

/-- The pointers of an encoded set: those for which `pointsTo` answers yes. -/
def encodedContents [DecidableEq K] (E : Encoding N K) (ops : List (SetOp N)) (i : Nat)
    (p : Pointer N) : Prop :=
  (E.pointsTo ((Sets.run E ops).sets i) p (Sets.run E ops).ids).1 = true

/-- **Where unions are right**: for no target has one of the sets the unknown offset and the other one
a known offset. -/
def Unmixed (S T : PointsToSet N) : Prop :=
  ∀ p ∈ S, ∀ q ∈ T, p.target = q.target → (p.offset = .unknown ↔ q.offset = .unknown)

def UnmixedRun (ops : List (SetOp N)) : Prop :=
  ∀ pre i j, pre ++ [SetOp.union i j] <+: ops →
    Unmixed (SimplePointsToSet.run pre i) (SimplePointsToSet.run pre j)

/-! ## Normal forms -/

omit [DecidableEq N] in
theorem normalForm_normalized (H : Pointer N → Prop) : NormalForm (normalized H) :=
  fun _ hp hwide => hp.2 hwide.1

omit [DecidableEq N] in
/-- At the unknown offset nothing is left out. -/
theorem normalized_of_unknown {H : Pointer N → Prop} {p : Pointer N} (h : p.offset = .unknown) :
    normalized H p ↔ H p := and_iff_left fun _ => h

omit [DecidableEq N] in
/-- A pointer that is covered adds nothing. -/
theorem normalized_add_of_covered {H : Pointer N → Prop} {p : Pointer N} (h : H p ∨ H p.widen)
    (q : Pointer N) : normalized (fun q => H q ∨ q = p) q ↔ normalized H q := by
  by_cases hp : H p
  · have hsame : ∀ q, H q ∨ q = p ↔ H q := fun q => or_iff_left_of_imp fun heq => heq ▸ hp
    simp only [normalized, hsame]
  · -- the unknown offset of its target is there already
    have hwide := h.resolve_left hp
    have hne : p.offset ≠ .unknown := fun hoff => hp (Pointer.widen_eq_self hoff ▸ hwide)
    constructor
    · rintro ⟨hq | rfl, hunknown⟩
      · exact ⟨hq, fun hq' => hunknown (Or.inl hq')⟩
      · exact absurd (hunknown (Or.inl hwide)) hne
    · rintro ⟨hq, hunknown⟩
      refine ⟨Or.inl hq, ?_⟩
      rintro (hq' | heq)
      · exact hunknown hq'
      · exact absurd (congrArg Pointer.offset heq).symm hne

/-- **Additions keep the normal form.** -/
theorem mem_add_iff_normalized {T : PointsToSet N} {H : Pointer N → Prop}
    (h : ∀ q, q ∈ T ↔ normalized H q) (p q : Pointer N) :
    q ∈ (PointsToSet.add p T).1 ↔ normalized (fun q => H q ∨ q = p) q := by
  have hwide : p.widen ∈ T ↔ H p.widen := (h _).trans (normalized_of_unknown rfl)
  rcases PointsToSet.add_cases p T with ⟨heq, hcov⟩ | ⟨-, hself, hnot, hpointers⟩ |
    ⟨-, hne, hnot, hnotwide, hpointers⟩
  · rw [heq, h q]
    exact (normalized_add_of_covered (hcov.imp (fun hp => ((h p).1 hp).1) hwide.1) q).symm
  · -- the unknown offset takes the place of the known ones
    have hoff : p.offset = .unknown := by
      rw [← hself]
      rfl
    have hmem : q ∈ (PointsToSet.add p T).1 ↔ (q ∈ T ∧ q.target ≠ p.target) ∨ q = p := by
      show q ∈ (PointsToSet.add p T).1.pointers ↔ _
      rw [hpointers, List.mem_append, List.mem_singleton]
      exact or_congr_left (T.mem_removeAny p.target q)
    rw [hmem, h q]
    constructor
    · rintro (⟨⟨hq, hunknown⟩, ht⟩ | rfl)
      · refine ⟨Or.inl hq, ?_⟩
        rintro (hq' | heq)
        · exact hunknown hq'
        · exact absurd (congrArg Pointer.target heq) ht
      · exact ⟨Or.inr rfl, fun _ => hoff⟩
    · rintro ⟨hq | rfl, hunknown⟩
      · by_cases ht : q.target = p.target
        · have hqwide : q.widen = p := by
            rw [← hself, Pointer.widen, Pointer.widen, ht]
          have hqoff := hunknown (Or.inr hqwide)
          exact Or.inr ((Pointer.widen_eq_self hqoff).symm.trans hqwide)
        · exact Or.inl ⟨⟨hq, fun hq' => hunknown (Or.inl hq')⟩, ht⟩
      · exact Or.inr rfl
  · have hmem : q ∈ (PointsToSet.add p T).1 ↔ q ∈ T ∨ q = p := by
      show q ∈ (PointsToSet.add p T).1.pointers ↔ _
      rw [hpointers, List.mem_append, List.mem_singleton]
      exact Iff.rfl
    have hqwide : q.widen ≠ p := fun heq => hne (congrArg Pointer.offset heq).symm
    rw [hmem, h q]
    constructor
    · rintro (⟨hq, hunknown⟩ | rfl)
      · exact ⟨Or.inl hq, fun hq' => hunknown (hq'.resolve_right hqwide)⟩
      · exact ⟨Or.inr rfl, fun hq' => absurd (hwide.2 (hq'.resolve_right hqwide)) hnotwide⟩
    · rintro ⟨hq | rfl, hunknown⟩
      · exact Or.inl ⟨hq, fun hq' => hunknown (Or.inl hq')⟩
      · exact Or.inr rfl

/-- **Unions keep the normal form** if and only if the sets are not mixed. -/
theorem union_normal_iff {S T : PointsToSet N} {H H' : Pointer N → Prop}
    (hS : ∀ q, q ∈ S ↔ normalized H q) (hT : ∀ q, q ∈ T ↔ normalized H' q) :
    (NormalForm (fun q => q ∈ (PointsToSet.union T S).1) ∧
      ∀ q, q ∈ (PointsToSet.union T S).1 ↔ normalized (fun q => H q ∨ H' q) q) ↔ Unmixed S T := by
  have hwideS : ∀ q : Pointer N, q.widen ∈ S ↔ H q.widen := fun q =>
    (hS _).trans (normalized_of_unknown rfl)
  have hwideT : ∀ q : Pointer N, q.widen ∈ T ↔ H' q.widen := fun q =>
    (hT _).trans (normalized_of_unknown rfl)
  have hsame : ∀ {p q : Pointer N}, p.target = q.target → q.offset = .unknown → p.widen = q := by
    intro p q ht hq
    rw [← Pointer.widen_eq_self hq, Pointer.widen, Pointer.widen, ht]
  constructor
  · rintro ⟨hnormal, -⟩ p hp q hq ht
    -- both are in the union, and if one of them is unknown, the other one is
    have hp' := (PointsToSet.mem_union S T p).2 (Or.inl hp)
    have hq' := (PointsToSet.mem_union S T q).2 (Or.inr hq)
    constructor
    · intro hoff
      refine hnormal q hq' ?_
      rw [hsame ht.symm hoff]
      exact hp'
    · intro hoff
      refine hnormal p hp' ?_
      rw [hsame ht hoff]
      exact hq'
  · intro hunmixed
    have hmem : ∀ q, q ∈ (PointsToSet.union T S).1 ↔ normalized (fun q => H q ∨ H' q) q := by
      intro q
      rw [PointsToSet.mem_union]
      constructor
      · rintro (hq | hq)
        · have hq' := (hS q).1 hq
          refine ⟨Or.inl hq'.1, ?_⟩
          -- the unknown offset may be in the same set or in the other one
          rintro (hwide | hwide)
          · exact hq'.2 hwide
          · exact (hunmixed q hq _ ((hwideT q).2 hwide) rfl).2 rfl
        · have hq' := (hT q).1 hq
          refine ⟨Or.inr hq'.1, ?_⟩
          rintro (hwide | hwide)
          · exact (hunmixed _ ((hwideS q).2 hwide) q hq rfl).1 rfl
          · exact hq'.2 hwide
      · rintro ⟨hq | hq, hunknown⟩
        · exact Or.inl ((hS q).2 ⟨hq, fun hwide => hunknown (Or.inl hwide)⟩)
        · exact Or.inr ((hT q).2 ⟨hq, fun hwide => hunknown (Or.inr hwide)⟩)
    refine ⟨?_, hmem⟩
    intro p hp hwide
    exact normalForm_normalized _ p ((hmem p).1 hp) ((hmem _).1 hwide)

/-! ## Runs -/

omit [DecidableEq N] in
theorem added_concat (ops : List (SetOp N)) (op : SetOp N) :
    added (ops ++ [op]) = addedStep (added ops) op := by
  rw [added, List.foldl_append]
  rfl

theorem simpleRun_concat (ops : List (SetOp N)) (op : SetOp N) :
    SimplePointsToSet.run (ops ++ [op]) = SimplePointsToSet.step (SimplePointsToSet.run ops) op := by
  rw [SimplePointsToSet.run, List.foldl_append]
  rfl

/-- One operation keeps all sets in the normal form of what has come into them. -/
theorem normalized_step {ops : List (SetOp N)}
    (h : ∀ i q, q ∈ SimplePointsToSet.run ops i ↔ normalized (added ops i) q) (op : SetOp N)
    (hunmixed : ∀ i j, op = .union i j →
      Unmixed (SimplePointsToSet.run ops i) (SimplePointsToSet.run ops j)) (i : Nat)
    (q : Pointer N) :
    q ∈ SimplePointsToSet.run (ops ++ [op]) i ↔ normalized (added (ops ++ [op]) i) q := by
  rw [added_concat, simpleRun_concat]
  cases op with
  | add j p =>
      rw [SimplePointsToSet.step, addedStep]
      by_cases hi : i = j
      · subst hi
        rw [Function.update_self, Function.update_self, SimplePointsToSet.add_eq]
        exact mem_add_iff_normalized (h i) p q
      · rw [Function.update_of_ne hi, Function.update_of_ne hi]
        exact h i q
  | union j k =>
      rw [SimplePointsToSet.step, addedStep]
      by_cases hi : i = j
      · subst hi
        rw [Function.update_self, Function.update_self]
        exact ((union_normal_iff (h i) (h k)).2 (hunmixed i k rfl)).2 q
      · rw [Function.update_of_ne hi, Function.update_of_ne hi]
        exact h i q
  | pointsTo j p => exact h i q
  | mayPointTo j p => exact h i q
  | pointsToTarget j t => exact h i q

/-- **The runs in which the plain sets are in the normal form** are those whose unions are unmixed. -/
theorem normalRun_simple_iff (ops : List (SetOp N)) :
    NormalRun simpleContents ops ↔ UnmixedRun ops := by
  constructor
  · intro h pre i j hpre
    -- the states before and after the union
    have hbefore := h pre ((List.prefix_append pre _).trans hpre)
    have hafter := h _ hpre i
    rw [added_concat, addedStep, Function.update_self] at hafter
    have hcontents : simpleContents (pre ++ [.union i j]) i = fun q =>
        q ∈ (PointsToSet.union (SimplePointsToSet.run pre j) (SimplePointsToSet.run pre i)).1 := by
      funext q
      rw [simpleContents, simpleRun_concat, SimplePointsToSet.step, Function.update_self]
      rfl
    rw [hcontents] at hafter
    exact (union_normal_iff (hbefore i).2 (hbefore j).2).1 hafter
  · intro h pre hpre i
    have hmem : ∀ i q, q ∈ SimplePointsToSet.run pre i ↔ normalized (added pre i) q := by
      induction pre using List.reverseRecOn with
      | nil =>
          intro i q
          refine iff_of_false (PointsToSet.mem_empty q) ?_
          exact fun hq => hq.1
      | append_singleton pre op ih =>
          apply normalized_step (ih ((List.prefix_append pre [op]).trans hpre))
          rintro i j rfl
          exact h pre i j hpre
    refine ⟨?_, hmem i⟩
    intro p hp hwide
    exact normalForm_normalized _ p ((hmem i p).1 hp) ((hmem i _).1 hwide)

/-- The encoded sets have the same pointers. -/
theorem normalRun_encoded_iff [DecidableEq K] (E : Encoding N K) (ops : List (SetOp N)) :
    NormalRun (encodedContents E) ops ↔ UnmixedRun ops := by
  have hsame : (encodedContents E : List (SetOp N) → Nat → Pointer N → Prop) = simpleContents := by
    funext ops i p
    rw [encodedContents, (refinesSimple E ops i).pointsTo p]
    exact propext decide_eq_true_iff
  rw [hsame, normalRun_simple_iff]

/-- **Where the sets stay in the normal form**, of each class: in the runs whose unions are unmixed. -/
theorem normalRuns_iff (ops : List (SetOp N)) :
    (NormalRun simpleContents ops ↔ UnmixedRun ops) ∧
    (NormalRun (encodedContents pointerIdPointsToSet) ops ↔ UnmixedRun ops) ∧
    (NormalRun (encodedContents smallOffsetsPointsToSet) ops ↔ UnmixedRun ops) ∧
    (NormalRun (encodedContents alignedSmallOffsetsPointsToSet) ops ↔ UnmixedRun ops) ∧
    (NormalRun (encodedContents alignedPointerIdPointsToSet) ops ↔ UnmixedRun ops) :=
  ⟨normalRun_simple_iff ops, normalRun_encoded_iff _ ops, normalRun_encoded_iff _ ops,
    normalRun_encoded_iff _ ops, normalRun_encoded_iff _ ops⟩

/-- A set with the unknown offset, and one with a known offset of the same target. -/
def mixedUnion : List (SetOp Nat) :=
  [.add 0 ⟨.node 1, .unknown⟩, .add 1 ⟨.node 1, 0⟩, .union 0 1]

/-- Their union holds both pointers. -/
theorem union_holds_both : ¬ NormalRun simpleContents mixedUnion ∧
    ¬ NormalRun (encodedContents pointerIdPointsToSet) mixedUnion := by
  constructor
  · intro h
    have hnormal := (h mixedUnion List.prefix_rfl 0).1 ⟨.node 1, 0⟩ (by
      show (⟨.node 1, 0⟩ : Pointer Nat) ∈ (SimplePointsToSet.run mixedUnion 0).pointers
      decide) (by
      show (⟨.node 1, .unknown⟩ : Pointer Nat) ∈ (SimplePointsToSet.run mixedUnion 0).pointers
      decide)
    exact absurd hnormal (by decide)
  · intro h
    have hnormal := (h mixedUnion List.prefix_rfl 0).1 ⟨.node 1, 0⟩ (by
      rw [encodedContents]
      decide) (by
      rw [encodedContents]
      decide)
    exact absurd hnormal (by decide)

end Cape.PointerAnalysis
