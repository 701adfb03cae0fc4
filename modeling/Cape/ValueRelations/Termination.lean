import Cape.Library.FinLiterals
import Cape.Library.Repetition
import Cape.ValueRelations.Analysis
import Cape.ValueRelations.Saturation

/-!
# When the analysis ends

Equalities and relations only become more at a location, and so do the pointers with a read. What a
pointer reads is overwritten, though: `collect` writes the reads that an instruction generates, and
after them the reads of the source that are not killed, which may have another value for the same
pointer.

`Overwrites` is the condition on the state before a step that this happens. A step for which it does
not hold reports a change only if something became known, so a run goes on without end exactly when
its rounds overwrite a read again and again (`run_ends_iff`).
-/

set_option autoImplicit false

namespace Cape.ValueRelations

open Cape.Library Attempt Facts

variable {V : Type}

/-- What may be known at a location: that two values are equal, a relation, that the value read from
a pointer is known. -/
abbrev Known (V : Type) := (V × V) ⊕ VRRelation V ⊕ V

instance : Finite VRRelationType := by
  apply Finite.of_injective (fun t : VRRelationType => (⟨t.index, by cases t <;> decide⟩ : Fin 7))
  intro t t' h
  cases t <;> cases t' <;> simp [VRRelationType.index] at h ⊢

instance [Finite V] : Finite (VRRelation V) := by
  apply Finite.of_injective (fun r : VRRelation V => (r.relation, r.lhs, r.rhs))
  rintro ⟨t, a, b⟩ ⟨t', a', b'⟩ h
  simpa using h

def known [LinearOrder V] (facts : Facts V) : Set (Known V)
  | .inl pair => facts.equalities.Same pair.1 pair.2
  | .inr (.inl rel) => rel ∈ facts.relations.relations
  | .inr (.inr p) => (facts.reads.get p).isSome = true

/-- The location has no other value for these reads. -/
def Agrees [LinearOrder V] (reads : List (V × V)) (facts : Facts V) : Prop :=
  ∀ read ∈ reads, ∀ u, facts.reads.get read.1 = some u → u = read.2

/-- What is asked of the additions to the facts of a location, of a read where it is `allowed`. -/
structure Admits [LinearOrder V] (P : Facts V → Prop) (R : Facts V → Facts V → Bool → Prop)
    (allowed : V × V → Facts V → Prop) : Prop where
  composes : Composes R
  equality : ∀ a b, Meets P R (addEquality a b)
  relation : ∀ rel, Meets P R (addRelation rel)
  read : ∀ p v facts, P facts → allowed (p, v) facts →
    ∃ facts' b, addRead p v facts = some (facts', b) ∧ P facts' ∧ R facts facts' b

section Additions

variable [LinearOrder V]

theorem grows_addEquality (facts : Facts V) (a b : V) :
    Grows known facts { facts with equalities := (facts.equalities.add a b).1 }
      (facts.equalities.add a b).2 := by
  refine ⟨?_, fun hchanged hback => ?_⟩
  · rintro (⟨x, y⟩ | r | p) hx
    · exact EqualityMap.Same.add hx a b
    · exact hx
    · exact hx
  · have hmem : (Sum.inl (a, b) : Known V) ∈ known facts := hback (EqualityMap.same_add_self _ a b)
    exact (EqualityMap.add_snd _ a b).1 hchanged hmem

theorem grows_addRelation (facts : Facts V) (rel : VRRelation V) :
    Grows known facts { facts with relations := (facts.relations.insert rel).1 }
      (facts.relations.insert rel).2 := by
  refine ⟨?_, fun hchanged hback => ?_⟩
  · rintro (⟨x, y⟩ | r | p) hx
    · exact hx
    · exact RelationsMap.mem_insert.2 (Or.inr hx)
    · exact hx
  · have hmem : (Sum.inr (Sum.inl rel) : Known V) ∈ known facts :=
      hback (RelationsMap.mem_insert.2 (Or.inl rfl))
    simp only [RelationsMap.insert] at hchanged
    rw [if_pos (show rel ∈ facts.relations.relations from hmem)] at hchanged
    exact Bool.noConfusion hchanged

/-- A read is added where the location has no other value. -/
theorem grows_addRead {facts : Facts V} {p v : V}
    (h : ∀ u, facts.reads.get p = some u → u = v) :
    Grows known facts { facts with reads := (facts.reads.add p v).1 } (facts.reads.add p v).2 := by
  constructor
  · rintro (⟨x, y⟩ | r | q) hx
    · exact hx
    · exact hx
    · show ((facts.reads.add p v).1.get q).isSome = true
      rw [ReadsMap.get_add]
      split
      · rfl
      · exact hx
  · intro hchanged hback
    have hself : (Sum.inr (Sum.inr p) : Known V) ∈
        known { facts with reads := (facts.reads.add p v).1 } := by
      show ((facts.reads.add p v).1.get p).isSome = true
      rw [ReadsMap.get_add, if_pos rfl]
      rfl
    obtain ⟨u, hu⟩ := Option.isSome_iff_exists.1 (hback hself)
    exact (ReadsMap.add_snd _ p v).1 hchanged (h u hu ▸ hu)

/-- Reads of which no two have other values for a pointer, passed to a location that has none. -/
theorem admits_agrees {reads : List (V × V)}
    (h : ∀ p u v, (p, u) ∈ reads → (p, v) ∈ reads → u = v) :
    Admits (Agrees reads) (Grows known) fun read _ => read ∈ reads where
  composes := composes_grows
  equality a b facts hfacts := ⟨_, _, rfl, hfacts, grows_addEquality facts a b⟩
  relation rel facts hfacts := ⟨_, _, rfl, hfacts, grows_addRelation facts rel⟩
  read p v facts hfacts hmem := by
    refine ⟨_, _, rfl, fun read hread u hu => ?_, grows_addRead fun u hu => hfacts _ hmem u hu⟩
    simp only [ReadsMap.get_add] at hu
    split at hu
    · next heq =>
        obtain rfl := Option.some.inj hu
        exact h p v read.2 hmem (heq ▸ hread)
    · exact hfacts read hread u hu

/-- Reads for pointers that have none. -/
theorem admits_new : Admits (V := V) (fun _ => True) (Grows known)
    fun read facts => facts.reads.get read.1 = none where
  composes := composes_grows
  equality a b facts _ := ⟨_, _, rfl, trivial, grows_addEquality facts a b⟩
  relation rel facts _ := ⟨_, _, rfl, trivial, grows_addRelation facts rel⟩
  read p v facts _ hnone := by
    refine ⟨_, _, rfl, trivial, grows_addRead fun u hu => ?_⟩
    rw [show facts.reads.get p = none from hnone] at hu
    exact absurd hu.symm (Option.some_ne_none u)

/-- All of them report what they change. -/
theorem admits_reported : Admits (V := V) (fun _ => True) Reported fun _ _ => True where
  composes := composes_reported
  equality a b facts _ := by
    refine ⟨_, _, rfl, trivial, fun hfalse => ?_⟩
    rcases facts.equalities.add_cases a b with ⟨_, hadd⟩ | ⟨_, _, _, hadd, _⟩
    · rw [hadd]
    · rw [hadd] at hfalse
      exact Bool.noConfusion hfalse
  relation rel facts _ := by
    refine ⟨_, _, rfl, trivial, fun hfalse => ?_⟩
    rw [(RelationsMap.insert_eq_false hfalse).2]
  read p v facts _ _ := by
    refine ⟨_, _, rfl, trivial, fun hfalse => ?_⟩
    have hget : facts.reads.get p = some v := by
      by_contra hne
      rw [(ReadsMap.add_snd _ p v).2 hne] at hfalse
      exact Bool.noConfusion hfalse
    simp [ReadsMap.add, hget]

end Additions

/-! ## Reads that are overwritten -/

section Steps

variable [LinearOrder V] (M : Values V)

/-- The reads that `instructionGen` adds. -/
def generatedReads (I : V) (source : Facts V) : List (V × V) :=
  match M.kind I with
  | .store v p => [(M.stripPointerCasts p, v)]
  | .load p => if Values.knownRead source p = none then [(p, I)] else []
  | _ => []

/-- The reads of the source that are not killed. -/
def keptReads (kills : List V × Bool) (source : Facts V) : List (V × V) :=
  if kills.2 then [] else source.reads.filter fun read => read.1 ∉ kills.1

/-- The reads that `collect` passes on over an edge. -/
def passedReads (op : VROp V) (source facts : Facts V) : List (V × V) :=
  match op with
  | .instruction I => generatedReads M I source ++
      keptReads (M.instructionKills I facts.equalities source) source
  | _ => keptReads ([], false) source

/-- A read is passed on over an edge where the location, or another of the reads that are passed on,
has another value for its pointer. -/
def Overwrites (op : VROp V) (source facts : Facts V) : Prop :=
  ∃ read ∈ passedReads M op source facts, ∃ u ≠ read.2,
    facts.reads.get read.1 = some u ∨ (read.1, u) ∈ passedReads M op source facts

omit [LinearOrder V] in
theorem getOperationWithConst_fst (l r : V) : (M.getOperationWithConst l r).1 = none := by
  simp only [Values.getOperationWithConst]
  split <;> rfl

theorem shiftGen_eq_skip (inverse : V → Option (V × V)) (up down : VRRelationType) (I l r : V)
    (source : Facts V) : M.shiftGen inverse up down I l r source = skip := by
  have hnone := getOperationWithConst_fst M l r
  simp only [Values.shiftGen]
  split
  · rfl
  · next v c h =>
      rw [h] at hnone
      exact absurd hnone (Option.some_ne_none v)

/-- Only a store kills by the equalities, and it generates none. -/
theorem instructionKills_gen {I : V} {source facts : Facts V} {r : Facts V × Bool}
    (h : M.instructionGen I source facts = some r) :
    M.instructionKills I r.1.equalities source = M.instructionKills I facts.equalities source := by
  cases hkind : M.kind I <;> simp only [Values.instructionKills, hkind]
  case store v p =>
    simp only [Values.instructionGen, hkind, addRead] at h
    obtain rfl := Option.some.inj h
    rfl
  case call isIgnored => cases isIgnored <;> rfl

variable {P : Facts V → Prop} {R : Facts V → Facts V → Bool → Prop}
  {allowed : V × V → Facts V → Prop}

theorem Admits.instructionGen (h : Admits P R allowed) {I : V} {source : Facts V}
    (hallowed : ∀ read ∈ generatedReads M I source, ∀ facts, allowed read facts) :
    Meets P R (M.instructionGen I source) := by
  have hskip : Meets P R skip := meets_skip h.composes
  have hmul : ∀ l r, Meets P R (M.mulGen I l r) := by
    intro l r
    simp only [Values.mulGen]
    split
    · exact hskip
    · split
      · exact h.equality _ _
      · exact hskip
  -- stores and loads of unknown values add a read, the others at most an equality
  cases hkind : M.kind I <;> simp only [Values.instructionGen, hkind] <;>
    simp only [generatedReads, hkind] at hallowed
  case load p =>
    simp only [Values.loadGen]
    split
    · next hnone =>
        exact fun facts hP => h.read _ _ facts hP (hallowed _ (by simp [hnone]) facts)
    · exact h.equality _ _
  case store v p =>
    exact fun facts hP => h.read _ _ facts hP (hallowed _ List.mem_cons_self facts)
  case getElementPtr p zero =>
    simp only [Values.gepGen]
    split
    · exact h.equality _ _
    · exact hskip
  case zext v => exact h.equality _ _
  case sext v => exact h.equality _ _
  case cast v noop =>
    cases noop
    · exact hskip
    · exact h.equality _ _
  case add l r => simpa only [Values.plusGen, shiftGen_eq_skip] using hskip
  case sub l r => simpa only [Values.minusGen, shiftGen_eq_skip] using hskip
  case mul l r => exact hmul l r
  all_goals exact hskip

theorem Admits.mergeSource (h : Admits P R allowed) {kills : List V × Bool} {source : Facts V}
    (hallowed : ∀ read ∈ keptReads kills source, ∀ facts, allowed read facts) :
    Meets P R (mergeSource kills source) := by
  apply (Meets.each h.composes fun pair _ => h.equality pair.1 pair.2).andThen h.composes
  apply (Meets.each h.composes fun rel _ => h.relation rel).andThen h.composes
  split
  · exact meets_skip h.composes
  · next hkills =>
      apply Meets.each h.composes
      intro read hread facts hP
      exact h.read _ _ facts hP (hallowed read (by rw [keptReads, if_neg hkills]; exact hread) facts)

/-- A step over the edge from a single predecessor. -/
theorem Admits.collectEdge (h : Admits P R allowed) {op : VROp V} {source facts : Facts V}
    (hP : P facts)
    (hallowed : ∀ read ∈ passedReads M op source facts, ∀ facts, allowed read facts) :
    ∃ facts' b, FunctionGraph.collectEdge M op source facts = some (facts', b) ∧ P facts' ∧
      R facts facts' b := by
  cases op with
  | instruction I =>
      obtain ⟨facts₁, b₁, hgen, hP₁, hR₁⟩ := h.instructionGen M (fun read hread =>
        hallowed read (List.mem_append_left _ hread)) facts hP
      have hmeets : Meets P R
          (ValueRelations.mergeSource (M.instructionKills I facts₁.equalities source) source) := by
        rw [instructionKills_gen M hgen]
        exact h.mergeSource fun read hread => hallowed read (List.mem_append_right _ hread)
      obtain ⟨facts₂, b₂, hmerge, hP₂, hR₂⟩ := hmeets facts₁ hP₁
      refine ⟨facts₂, b₁ || b₂, ?_, hP₂, h.composes.trans hR₁ hR₂⟩
      simp [FunctionGraph.collectEdge, Attempt.andThen, hgen, hmerge]
  | assume relations =>
      exact (Meets.each h.composes fun rel _ => h.relation rel).andThen h.composes
        (h.mergeSource hallowed) facts hP
  | noop => exact h.mergeSource hallowed facts hP

theorem Admits.mergeReads (h : Admits P R allowed)
    (hallowed : ∀ read facts, facts.reads.get read.1 = none → allowed read facts)
    (source : Facts V) : Meets P R (M.mergeReads source) := by
  apply Meets.each h.composes
  intro read _ facts hP
  dsimp only
  split
  · split
    · exact h.equality _ _ facts hP
    · next hnone => exact h.read _ _ facts hP (hallowed read facts hnone)
  · exact meets_skip h.composes facts hP

theorem Admits.mergeEqualities (h : Admits P R allowed)
    (hallowed : ∀ read facts, facts.reads.get read.1 = none → allowed read facts)
    (source : Facts V) : Meets P R (M.mergeEqualities source) := by
  have hload : ∀ v w, Meets P R (M.addLoadFromEq v w) := by
    intro v w facts hP
    cases hkind : M.kind v <;> simp only [Values.addLoadFromEq, hkind]
    case load p =>
      split
      · exact h.equality _ _ facts hP
      · next hnone => exact h.read _ _ facts hP (hallowed (p, w) facts hnone)
    all_goals exact meets_skip h.composes facts hP
  apply Meets.each h.composes
  intro pair _
  split
  · exact meets_skip h.composes
  · exact (h.equality _ _).andThen h.composes ((hload _ _).andThen h.composes (hload _ _))

/-- The merge of several predecessors adds reads only where there are none. -/
theorem Admits.mergePredecessors (h : Admits P R allowed)
    (hallowed : ∀ read facts, facts.reads.get read.1 = none → allowed read facts)
    {Loc : Type} [DecidableEq Loc] (state : Loc → Facts V) (loc : Loc) (edges : List (VREdge V Loc)) :
    Meets P R (FunctionGraph.mergePredecessors M state loc edges) := by
  apply Meets.each h.composes
  intro edge _
  apply Meets.andThen h.composes
  · exact fun facts hP => h.mergeReads M hallowed _ facts hP
  · exact fun facts hP => h.mergeEqualities M hallowed _ facts hP

/-- **A step** that overwrites no read reports a change only where something becomes known. -/
theorem grows_collectEdge {op : VROp V} {source facts : Facts V}
    (h : ¬ Overwrites M op source facts) {facts' : Facts V} {b : Bool}
    (hstep : FunctionGraph.collectEdge M op source facts = some (facts', b)) :
    Grows known facts facts' b := by
  -- the condition fails, so each pointer has at most one value, here and among the reads passed on
  have hone : ∀ p u v, (p, u) ∈ passedReads M op source facts →
      (p, v) ∈ passedReads M op source facts → u = v := by
    intro p u v hu hv
    by_contra hne
    exact h ⟨(p, v), hv, u, hne, Or.inr hu⟩
  have hagrees : Agrees (passedReads M op source facts) facts := by
    intro read hread u hu
    by_contra hne
    exact h ⟨read, hread, u, hne, Or.inl hu⟩
  obtain ⟨facts'', b', hstep', -, hgrows⟩ :=
    (admits_agrees hone).collectEdge M hagrees fun read hread _ => hread
  obtain ⟨rfl, rfl⟩ := Prod.mk.inj (Option.some.inj (hstep.symm.trans hstep'))
  exact hgrows

theorem get_of_addRead {facts facts' : Facts V} {p v : V}
    (h : addRead p v facts = some (facts', false)) : facts.reads.get p = some v := by
  by_contra hne
  have hchanged := (ReadsMap.add_snd _ p v).2 hne
  rw [(Prod.mk.inj (Option.some.inj h)).2] at hchanged
  exact Bool.noConfusion hchanged

/-- After a step that reports no change the location has the reads that were passed to it. -/
theorem get_passedReads {op : VROp V} {source facts : Facts V}
    (hstep : FunctionGraph.collectEdge M op source facts = some (facts, false)) :
    ∀ read ∈ passedReads M op source facts, facts.reads.get read.1 = some read.2 := by
  have hreported : ∀ {f : Attempt (Facts V)}, Meets (fun _ => True) Reported f →
      ∀ facts facts', f facts = some (facts', false) → facts' = facts :=
    fun hf facts facts' h => hf.eq_of_false (fun _ _ hst => hst rfl) trivial h
  have hadmits := admits_reported (V := V)
  -- a part of a step that reports no change leaves the facts as they are for the next one
  have hkept : ∀ {kills : List V × Bool}, mergeSource kills source facts = some (facts, false) →
      ∀ read ∈ keptReads kills source, facts.reads.get read.1 = some read.2 := by
    intro kills h read hread
    have hequalities := andThen_eq_false (hreported (Meets.each hadmits.composes
      fun pair _ => hadmits.equality pair.1 pair.2) facts) h
    have hrelations := andThen_eq_false (hreported (Meets.each hadmits.composes
      fun rel _ => hadmits.relation rel) facts) hequalities.2
    have hreads := hrelations.2
    rw [keptReads] at hread
    split at hread
    · exact absurd hread List.not_mem_nil
    · next hkills =>
        rw [if_neg hkills] at hreads
        have heach := each_eq_false (fun read _ => hreported (fun s _ =>
          hadmits.read read.1 read.2 s trivial trivial) facts) hreads
        exact get_of_addRead (heach.2 read hread)
  cases op with
  | instruction I =>
      rw [FunctionGraph.collectEdge] at hstep
      obtain ⟨hgen, hmerge⟩ := andThen_eq_false (hreported (hadmits.instructionGen M
        fun _ _ _ => trivial) facts) hstep
      intro read hread
      rcases List.mem_append.1 hread with hread | hread
      · cases hkind : M.kind I <;> simp only [generatedReads, hkind, List.not_mem_nil] at hread
        case load p =>
          split at hread
          · next hnone =>
              obtain rfl := List.mem_singleton.1 hread
              simp only [Values.instructionGen, hkind, Values.loadGen, hnone] at hgen
              exact get_of_addRead hgen
          · exact absurd hread List.not_mem_nil
        case store v p =>
          obtain rfl := List.mem_singleton.1 hread
          simp only [Values.instructionGen, hkind] at hgen
          exact get_of_addRead hgen
      · exact hkept hmerge read hread
  | assume relations =>
      exact hkept (andThen_eq_false (hreported (Meets.each hadmits.composes
        fun rel _ => hadmits.relation rel) facts) hstep).2
  | noop => exact hkept hstep

theorem not_overwrites_of_fixed {op : VROp V} {source facts : Facts V}
    (hstep : FunctionGraph.collectEdge M op source facts = some (facts, false)) :
    ¬ Overwrites M op source facts := by
  rintro ⟨read, hread, u, hne, hother⟩
  have hget := get_passedReads M hstep
  rcases hother with hu | hu
  · exact hne (Option.some.inj (hu.symm.trans (hget read hread)))
  · exact hne (Option.some.inj ((hget _ hu).symm.trans (hget read hread)))

end Steps

/-! ## Rounds -/

namespace FunctionGraph

variable [LinearOrder V] {Loc : Type} [DecidableEq Loc] (M : Values V) (graph : FunctionGraph V Loc)

/-- `collect` overwrites a read of the location. -/
def OverwritesAt (state : Loc → Facts V) (loc : Loc) : Prop :=
  ∃ edge, graph.predecessors loc = [edge] ∧
    Overwrites M edge.op (sourceFacts state loc edge (state loc)) (state loc)

/-- One of the calls of `collect` for the locations, in order, overwrites a read. -/
def OverwritesAlong : List Loc → (Loc → Facts V) → Prop
  | [], _ => False
  | loc :: locs, state => OverwritesAt M graph state loc ∨
      ∃ r, collect M graph loc state = some r ∧ OverwritesAlong locs r.1

/-- What is known, and where. -/
def knownAt (state : Loc → Facts V) : Set (Loc × Known V) := {fact | fact.2 ∈ known (state fact.1)}

/-- What a location collects, over an edge or over many. -/
def collected (state : Loc → Facts V) (loc : Loc) : Attempt (Facts V) :=
  match graph.predecessors loc with
  | [] => skip
  | [edge] => fun facts => collectEdge M edge.op (sourceFacts state loc edge facts) facts
  | edges => mergePredecessors M state loc edges

theorem collect_eq (loc : Loc) (state : Loc → Facts V) :
    collect M graph loc state = (collected M graph state loc (state loc)).map
      fun r => (Function.update state loc r.1, r.2) := rfl

theorem meets_collected (state : Loc → Facts V) (loc : Loc) :
    Meets (fun _ => True) Reported (collected M graph state loc) := by
  rw [collected]
  split
  · exact meets_skip composes_reported
  · exact fun facts _ => admits_reported.collectEdge M trivial fun _ _ _ => trivial
  · exact admits_reported.mergePredecessors M (fun _ _ _ => trivial) state loc _

theorem meets_collect (loc : Loc) : Meets (fun _ => True) Reported (collect M graph loc) := by
  intro state _
  obtain ⟨facts, b, hfacts, -, hreported⟩ := meets_collected M graph state loc (state loc) trivial
  refine ⟨Function.update state loc facts, b, by rw [collect_eq, hfacts]; rfl, trivial, ?_⟩
  intro hb
  rw [hreported hb, Function.update_eq_self]

/-- A location that does not overwrite a read reports a change where something becomes known. -/
theorem grows_collect {loc : Loc} {state state' : Loc → Facts V} {b : Bool}
    (h : ¬ OverwritesAt M graph state loc)
    (hstep : collect M graph loc state = some (state', b)) : Grows knownAt state state' b := by
  rw [collect_eq, Option.map_eq_some_iff] at hstep
  obtain ⟨⟨facts, b'⟩, hfacts, hr⟩ := hstep
  obtain ⟨rfl, rfl⟩ := Prod.mk.inj hr
  -- by the number of predecessors: a merge of many adds reads only where there are none
  have hgrows : Grows known (state loc) facts b' := by
    rcases hpred : graph.predecessors loc with _ | ⟨edge, _ | ⟨edge', edges⟩⟩ <;>
      rw [collected, hpred] at hfacts
    · obtain ⟨rfl, rfl⟩ := Prod.mk.inj (Option.some.inj hfacts)
      exact composes_grows.refl _
    · exact grows_collectEdge M (fun hover => h ⟨edge, hpred, hover⟩) hfacts
    · obtain ⟨facts', b'', hfacts', -, hgrows⟩ := admits_new.mergePredecessors M
        (fun _ _ hnone => hnone) state loc (edge :: edge' :: edges) (state loc) trivial
      obtain ⟨rfl, rfl⟩ := Prod.mk.inj (Option.some.inj (hfacts.symm.trans hfacts'))
      exact hgrows
  refine ⟨?_, fun hb hback => hgrows.2 hb fun fact hfact => ?_⟩
  · rintro ⟨loc', fact⟩ hfact
    by_cases hloc : loc' = loc
    · subst hloc
      simpa [knownAt] using hgrows.1 hfact
    · simpa [knownAt, Function.update_of_ne hloc] using hfact
  · have hmem : (loc, fact) ∈ knownAt (Function.update state loc facts) := by
      simpa [knownAt] using hfact
    exact hback hmem

/-- **A round** in which no read is overwritten reports a change where something becomes known. -/
theorem grows_each {locs : List Loc} {state state' : Loc → Facts V} {b : Bool}
    (h : ¬ OverwritesAlong M graph locs state)
    (hround : each (collect M graph) locs state = some (state', b)) :
    Grows knownAt state state' b := by
  induction locs generalizing state state' b with
  | nil =>
      obtain ⟨rfl, rfl⟩ := Prod.mk.inj (Option.some.inj hround)
      exact composes_grows.refl _
  | cons loc locs ih =>
      simp only [each, andThen, Option.bind_eq_some_iff, Option.map_eq_some_iff] at hround
      obtain ⟨⟨state₁, b₁⟩, hstep, ⟨state₂, b₂⟩, hrest, hr⟩ := hround
      obtain ⟨rfl, rfl⟩ := Prod.mk.inj hr
      exact composes_grows.trans (grows_collect M graph (fun hover => h (Or.inl hover)) hstep)
        (ih (fun hover => h (Or.inr ⟨_, hstep, hover⟩)) hrest)

/-- A round that reports no change overwrites no read. -/
theorem not_overwritesAlong_of_fixed {locs : List Loc} {state : Loc → Facts V}
    (hround : ∀ loc ∈ locs, collect M graph loc state = some (state, false)) :
    ¬ OverwritesAlong M graph locs state := by
  induction locs with
  | nil => exact id
  | cons loc locs ih =>
      have hloc := hround loc List.mem_cons_self
      rintro (⟨edge, hpred, hover⟩ | ⟨r, hr, hover⟩)
      · rw [collect_eq, Option.map_eq_some_iff] at hloc
        obtain ⟨⟨facts, b⟩, hfacts, hr⟩ := hloc
        obtain ⟨hstate, rfl⟩ := Prod.mk.inj hr
        obtain rfl : facts = state loc := by
          rw [← hstate, Function.update_self]
        rw [collected, hpred] at hfacts
        exact not_overwrites_of_fixed M hfacts hover
      · obtain rfl := Option.some.inj (hloc.symm.trans hr)
        exact ih (fun loc' h => hround loc' (List.mem_cons_of_mem loc h)) hover

theorem not_overwritesAlong_of_round {state : Loc → Facts V}
    (hround : round M graph state = some (state, false)) :
    ¬ OverwritesAlong M graph graph.locations state := by
  have hsame : ∀ loc ∈ graph.locations, ∀ state', collect M graph loc state =
      some (state', false) → state' = state := fun loc _ state' h =>
    (meets_collect M graph loc).eq_of_false (fun _ _ hst => hst rfl) trivial h
  exact not_overwritesAlong_of_fixed M graph (each_eq_false hsame hround).2

/-- The state after so many rounds. -/
def stateAfter (state : Loc → Facts V) : Nat → (Loc → Facts V) := after (round M graph) state

/-- **Termination**: the analysis of a finite graph ends exactly when only finitely many of its
rounds overwrite a read. -/
theorem run_ends_iff [Finite V] [Finite Loc] (state : Loc → Facts V) :
    (∃ fuel r, run M graph fuel state = some r) ↔
      ∃ N, ∀ n ≥ N, ¬ OverwritesAlong M graph graph.locations (stateAfter M graph state n) := by
  apply Attempt.ends_iff knownAt fun state => ¬ OverwritesAlong M graph graph.locations state
  · exact Meets.each composes_reported fun loc _ => meets_collect M graph loc
  · exact fun state state' b h hround => grows_each M graph h hround
  · exact fun state hround => not_overwritesAlong_of_round M graph hround

theorem round_isSome (state : Loc → Facts V) : (round M graph state).isSome = true := by
  obtain ⟨state', b, h, -⟩ := Meets.each composes_reported
    (fun loc (_ : loc ∈ graph.locations) => meets_collect M graph loc) state trivial
  rw [show round M graph state = some (state', b) from h]
  rfl

end FunctionGraph

/-! ## Two stores into one field -/

/-- `%a = alloca …`, `%p = getelementptr %a, …` with an index that is not zero, the constants 1 and
2, `store 1, %p`, `store 2, %p` and `ret`. -/
def twoStores : Values (Fin 7) where
  kind := ![.alloca, .getElementPtr 0 false, .constantInt 1, .constantInt 2, .store 2 1, .store 3 1,
    .other]
  stripPointerCasts := id
  mayHaveEffects v := v = 4 ∨ v = 5
  fixedMemory _ := false
  fixedValues v := v ≠ 2 ∧ v ≠ 3
  depth _ := 0
  depth_operand := by decide

/-- A location before each of the instructions. -/
def twoStoresGraph : FunctionGraph (Fin 7) (Fin 5) where
  locations := [0, 1, 2, 3, 4]
  predecessors := ![[], [⟨0, .instruction 0⟩], [⟨1, .instruction 1⟩], [⟨2, .instruction 4⟩],
    [⟨3, .instruction 5⟩]]
  mem_locations := by decide
  source_ne loc edge hedge I _ := by
    revert edge
    fin_cases loc <;> simp

/-- The part before the second store. -/
def oneStoreGraph : FunctionGraph (Fin 7) (Fin 4) where
  locations := [0, 1, 2, 3]
  predecessors := ![[], [⟨0, .instruction 0⟩], [⟨1, .instruction 1⟩], [⟨2, .instruction 4⟩]]
  mem_locations := by decide
  source_ne loc edge hedge I _ := by
    revert edge
    fin_cases loc <;> simp

theorem run_oneStore_ends :
    ∃ fuel r, FunctionGraph.run twoStores oneStoreGraph fuel (fun _ => Facts.empty) = some r := by
  have hfixed : FunctionGraph.round twoStores oneStoreGraph
      (FunctionGraph.stateAfter twoStores oneStoreGraph (fun _ => Facts.empty) 1) =
      some (FunctionGraph.stateAfter twoStores oneStoreGraph (fun _ => Facts.empty) 1, false) := by
    decide +kernel
  refine (FunctionGraph.run_ends_iff twoStores oneStoreGraph _).2 ⟨1, fun n hn => ?_⟩
  -- from the second round on the state is that after the first one
  obtain ⟨k, rfl⟩ := Nat.exists_eq_add_of_le hn
  rw [FunctionGraph.stateAfter, after_add]
  rw [show after (FunctionGraph.round twoStores oneStoreGraph) (after _ _ 1) k = _ from
    after_fixed hfixed k]
  exact FunctionGraph.not_overwritesAlong_of_round twoStores oneStoreGraph hfixed

/-- A pointer behind an offset from an alloca is not killed by a store through it: after the second
store its read is overwritten by the one before the store, and back, in every round. -/
theorem run_twoStores_not_ends :
    ¬ ∃ fuel r, FunctionGraph.run twoStores twoStoresGraph fuel (fun _ => Facts.empty) = some r := by
  have hfirst : FunctionGraph.round twoStores twoStoresGraph (fun _ => Facts.empty) =
      some (FunctionGraph.stateAfter twoStores twoStoresGraph (fun _ => Facts.empty) 1, true) := by
    decide +kernel
  have hagain : FunctionGraph.round twoStores twoStoresGraph
      (FunctionGraph.stateAfter twoStores twoStoresGraph (fun _ => Facts.empty) 1) =
      some (FunctionGraph.stateAfter twoStores twoStoresGraph (fun _ => Facts.empty) 1, true) := by
    decide +kernel
  exact not_ends_of_fixed (FunctionGraph.round_isSome twoStores twoStoresGraph) hfirst hagain

end Cape.ValueRelations
