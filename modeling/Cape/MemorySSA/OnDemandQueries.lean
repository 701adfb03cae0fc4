import Cape.MemorySSA.OnDemandSearch

/-!
# Queries

The states that any sequence of queries leads to. `Transformation.mem_of_reaches`: in such a state, a
query returns every node that defines a byte in question and reaches the place on some path, with nothing
that overwrites the byte behind it.
-/

set_option autoImplicit false

namespace Cape.MemorySSA

open Cape.Library Cape.Library.ReachingDefinitions

universe u v w

variable {N : Type u} {B : Type v} {S : Type w}

/-- The nodes of the graph that come before a node in a block. -/
def ReadWriteGraph.nodesBefore [DecidableEq N] (G : ReadWriteGraph (RWNode N) B S) (b : B) (n : N) :
    List (RWNode N) := (G.getNodes b).takeWhile (· ≠ .node n)

namespace Transformation

variable {G : ReadWriteGraph (RWNode N) B S} [DecidableEq N]

/-! ## Definitions of a use -/

section Use

variable [DecidableEq B] [DecidableEq S] {s : Transformation N B}

/-- The definitions of a use of known memory. -/
theorem extends_findDefinitions_known {targets : List (Memory (RWNode N))} {fuel : Nat}
    {use : RWNode N} {t : Transformation N B} {found : List (RWNode N)} (h : s.Shape G)
    (hknown : s.usesUnknown G use = false)
    (hrun : findDefinitions G targets fuel use s = some (t, found)) :
    s.Extends G t ∧ (∀ x ∈ found, t.Known x) ∧ (t.OwnBytes → ∀ b, s.getBBlock G use = some b →
      ∀ ds ∈ (s.getAnnotations G use).uses, ∀ c ∈ ds.getInterval, c ≠ .unknown →
        t.AnswersAt G ds.target c found b (s.before b use)) := by
  rw [findDefinitions] at hrun
  cases hb : s.getBBlock G use with
  | none =>
      rw [hb, hknown] at hrun
      obtain ⟨rfl, rfl⟩ := Prod.mk.inj (Option.some.inj hrun)
      exact ⟨.refl h, nofun, nofun⟩
  | some b =>
      rw [hb] at hrun
      dsimp only at hrun
      rw [hknown, if_neg Bool.false_ne_true] at hrun
      have hplace := h.placeRight_before b use
      have hright := loop_right (p := (s, [])) (q := (t, found))
        (Q := fun ds t found => ∀ c ∈ ds.getInterval, c ≠ .unknown →
          t.AnswersAt G ds.target c found b (s.before b use))
        ?_ (fun ds _ mid mid' hmid hstep => ?_) h hrun
      · refine ⟨hright.1, fun x hx => (hright.2.2.1 x hx).resolve_left List.not_mem_nil,
          fun hown b' hb' ds hds => ?_⟩
        obtain rfl := Option.some.inj hb'
        exact hright.2.2.2 hown ds hds
      · intro ds u u' l l' hgrows hfound hQ c hc hne
        exact hgrows.answersAt (hQ c hc hne) hfound
      · obtain ⟨hextends, hfound, hknown', hbefore⟩ :=
          (searchRight_findDefinitionsAt fuel).addUncoveredFromPredecessors hplace.tight hmid.shape
            (show _ = some (mid'.1, mid'.2) from hstep)
        have hgrows := hmid.grows.trans hextends.grows
        refine ⟨hextends, fun x hx => hfound (List.mem_append_left _ hx), fun x hx => ?_,
          fun hown c hc hne => ?_⟩
        · obtain hx | hx := hknown' x hx
          · refine (List.mem_append.1 hx).imp_right fun hx => ?_
            exact hgrows.knows (hplace.known_of_mem_get hx)
          · exact Or.inr hx
        · -- the definitions at the use are read anew, so that PHI nodes are only behind their own bytes
          refine hplace.answersAt hgrows ?_ ?_ hc (hbefore hown c hc hne)
          · exact fun x hx => hfound (List.mem_append_right _ hx)
          · exact fun t c i hhas => phiAt_of_has_number hhas

/-! ## Reads of unknown memory -/

variable (G) in
/-- Blocks are processed; nothing else happens. -/
def Processes (s t : Transformation N B) : Prop :=
  Relation.ReflTransGen (fun s t => ∃ b, t = (getBBlockDefinitions G b s).1) s t

omit [DecidableEq S] in
theorem Processes.extends {t : Transformation N B} (hrun : Processes G s t) (h : s.Shape G) :
    s.Extends G t := by
  induction hrun with
  | refl => exact .refl h
  | tail _ hstep ih =>
      obtain ⟨b, rfl⟩ := hstep
      exact ih.trans (extends_getBBlockDefinitions ih.shape b).1

omit [DecidableEq S] in
theorem processes_collectFrom {collect : B → Collected N B → Option (Collected N B)}
    (hcollect : ∀ b c c', collect b c = some c' → Processes G c.state c'.state)
    {start : DefinitionsMap (RWNode N)} {blocks : List B} {c c' : Collected N B}
    (hrun : collectFrom collect start blocks c = some c') : Processes G c.state c'.state := by
  have hstart : Processes G c.state c.state := .refl
  refine FallibleLoop.keeps (I := fun c' => Processes G c.state c'.state)
    (fun b _ mid mid' hmid hstep => ?_) hstart hrun
  obtain ⟨tmp, htmp, rfl⟩ := Option.map_eq_some_iff.1 hstep
  have hmore := hcollect b _ tmp htmp
  exact hmid.trans hmore

omit [DecidableEq S] in
theorem processes_collectAllDefinitions (targets : List (Memory (RWNode N))) : ∀ (fuel : Nat) (b : B)
    (c c' : Collected N B), collectAllDefinitions G targets fuel b c = some c' →
      Processes G c.state c'.state := by
  intro fuel
  induction fuel with
  | zero =>
      intro b c c' hrun
      cases hrun
  | succ fuel ih =>
      intro b c c' hrun
      rw [collectAllDefinitions] at hrun
      split at hrun
      · -- the block was visited
        obtain rfl := Option.some.inj hrun
        exact .refl
      · have hprocess : Processes G c.state (getBBlockDefinitions G b c.state).1 := .single ⟨b, rfl⟩
        dsimp only at hrun
        split at hrun
        · exact hprocess.trans (ih _ _ _ hrun)
        · exact hprocess.trans (processes_collectFrom ih hrun)

theorem processes_findDefinitions_unknown {targets : List (Memory (RWNode N))} {fuel : Nat}
    {use : RWNode N} {t : Transformation N B} {found : List (RWNode N)}
    (hunknown : s.usesUnknown G use = true)
    (hrun : findDefinitions G targets fuel use s = some (t, found)) : Processes G s t := by
  rw [findDefinitions] at hrun
  cases hb : s.getBBlock G use with
  | none =>
      rw [hb] at hrun
      dsimp only at hrun
      rw [if_pos hunknown] at hrun
      cases hrun
  | some b =>
      rw [hb] at hrun
      dsimp only at hrun
      rw [if_pos hunknown, findAllDefinitions] at hrun
      obtain ⟨c, hc, heq⟩ := Option.map_eq_some_iff.1 hrun
      obtain ⟨rfl, -⟩ := Prod.mk.inj heq
      split at hc
      · exact processes_collectAllDefinitions targets fuel _ ⟨s, [], .empty⟩ c hc
      · exact processes_collectFrom (processes_collectAllDefinitions targets fuel)
          (c := ⟨s, [], .empty⟩) hc

theorem extends_findDefinitions {targets : List (Memory (RWNode N))} {fuel : Nat}
    {use : RWNode N} {t : Transformation N B} {found : List (RWNode N)} (h : s.Shape G)
    (hrun : findDefinitions G targets fuel use s = some (t, found)) : s.Extends G t := by
  cases hunknown : s.usesUnknown G use with
  | false => exact (extends_findDefinitions_known h hunknown hrun).1
  | true => exact (processes_findDefinitions_unknown hunknown hrun).extends h

end Use

/-! ## Places -/

section Places

variable {s : Transformation N B}

theorem filter_takeWhile_ne {p : RWNode N → Bool} {x : RWNode N} (hx : p x = true)
    (l : List (RWNode N)) :
    (l.takeWhile (· ≠ x)).filter p = (l.filter p).takeWhile (· ≠ x) := by
  induction l with
  | nil => rfl
  | cons y l ih =>
      by_cases hy : y = x
      · subst hy
        rw [List.takeWhile_cons_of_neg (by simp), List.filter_cons_of_pos hx,
          List.takeWhile_cons_of_neg (by simp)]
        rfl
      · rw [List.takeWhile_cons_of_pos (by simpa using hy)]
        cases hp : p y with
        | true =>
            rw [List.filter_cons_of_pos hp, List.filter_cons_of_pos hp,
              List.takeWhile_cons_of_pos (by simpa using hy), ih]
        | false =>
            rw [List.filter_cons_of_neg (by simp [hp]), List.filter_cons_of_neg (by simp [hp]), ih]

/-- Before a node of the graph are the same nodes in every state. -/
theorem Shape.before_node (h : s.Shape G) (b : B) (n : N) :
    s.before b (.node n) = G.nodesBefore b n := by
  obtain ⟨P, R, hfirst⟩ := h.phisFirst b
  rw [before, filter_takeWhile_ne rfl, hfirst.filter_nodes]
  rfl

/-- A node that is left out may stand anywhere. -/
theorem before_insert {p : RWNode N → Bool} {x y : RWNode N} (h : y ≠ x) (hp : p y = false)
    (A C : List (RWNode N)) : ((A ++ y :: C).takeWhile (· ≠ x)).filter p =
      ((A ++ C).takeWhile (· ≠ x)).filter p := by
  induction A with
  | nil =>
      rw [List.nil_append, List.nil_append, List.takeWhile_cons_of_pos (by simpa using h),
        List.filter_cons_of_neg (by simp [hp])]
  | cons a A ih =>
      rw [List.cons_append, List.cons_append, List.takeWhile_cons, List.takeWhile_cons]
      split
      · rw [List.filter_cons, List.filter_cons, ih]
      · rfl

variable [DecidableEq B]

/-- What is said of a MU node that comes before a node of the graph. -/
structure Inserted (G : ReadWriteGraph (RWNode N) B S) (t : Transformation N B) (n : N)
    (ds : DefSite (RWNode N)) (use : RWNode N) (b : B) : Prop where
  isPhi : use.isPhi = false
  known : t.Known use
  defuse : t.defuse use = none
  uses : (t.getAnnotations G use).uses = [ds]
  place : G.getBBlock (.node n) = some b
  getBBlock : t.getBBlock G use = some b
  before : t.before b use = G.nodesBefore b n

omit [DecidableEq B] in
theorem Inserted.usesUnknown_iff {t : Transformation N B} {n : N} {ds : DefSite (RWNode N)}
    {use : RWNode N} {b : B} (h : Inserted G t n ds use b) :
    t.usesUnknown G use = false ↔ ∀ ds' ∈ [ds], ds'.target ≠ .unknown := by
  rw [usesUnknown, Annotations.usesUnknown, h.uses]
  simp

/-- The state with one more MU node, before the node of the graph in its block. -/
def withUse (s : Transformation N B) (b : B) (n : N) (ds : DefSite (RWNode N)) :
    Transformation N B :=
  { s with
    mus := s.mus ++ [(ds, b)]
    nodes := Function.update s.nodes b ((s.nodes b).takeWhile (· ≠ .node n) ++
      .mu s.mus.length :: (s.nodes b).dropWhile (· ≠ .node n)) }

theorem withUse_of_insertUse {n : N} {ds : DefSite (RWNode N)} {t : Transformation N B}
    {use : RWNode N} (hrun : insertUse G (.node n) ds s = some (t, use)) :
    ∃ b, G.getBBlock (.node n) = some b ∧ t = s.withUse b n ds ∧ use = .mu s.mus.length := by
  obtain ⟨b, hb, heq⟩ := Option.map_eq_some_iff.1 hrun
  obtain ⟨rfl, rfl⟩ := Prod.mk.inj heq
  exact ⟨b, hb, rfl, rfl⟩

section WithUse

variable {b : B} {n : N} {ds : DefSite (RWNode N)}

theorem length_withUse : (s.withUse b n ds).mus.length = s.mus.length + 1 := by
  show (s.mus ++ [(ds, b)]).length = _
  rw [List.length_append, List.length_singleton]

theorem getElem?_withUse : (s.withUse b n ds).mus[s.mus.length]? = some (ds, b) := by
  show (s.mus ++ [(ds, b)])[s.mus.length]? = _
  rw [List.getElem?_append_right le_rfl]
  simp

theorem nodes_withUse_self : (s.withUse b n ds).nodes b = (s.nodes b).takeWhile (· ≠ .node n) ++
    .mu s.mus.length :: (s.nodes b).dropWhile (· ≠ .node n) := Function.update_self _ _ _

theorem nodes_withUse_of_ne {b' : B} (hb : b' ≠ b) : (s.withUse b n ds).nodes b' = s.nodes b' :=
  Function.update_of_ne hb _ _

theorem mem_nodes_withUse {b' : B} {x : RWNode N} : x ∈ (s.withUse b n ds).nodes b' ↔
    x ∈ s.nodes b' ∨ (b' = b ∧ x = .mu s.mus.length) := by
  by_cases hb : b' = b
  · subst hb
    have hsplit : x ∈ s.nodes b' ↔ x ∈ (s.nodes b').takeWhile (· ≠ .node n) ∨
        x ∈ (s.nodes b').dropWhile (· ≠ .node n) := by
      rw [← List.mem_append, List.takeWhile_append_dropWhile]
    rw [nodes_withUse_self, List.mem_append, List.mem_cons, hsplit]
    tauto
  · rw [nodes_withUse_of_ne hb]
    tauto

omit [DecidableEq N] [DecidableEq B] in
theorem Known.ne_mu {x : RWNode N} (hx : s.Known x) : .mu s.mus.length ≠ x := by
  rintro rfl
  exact lt_irrefl _ (hx.mu _ rfl)

/-- The PHI nodes stay in front. -/
theorem PhisFirst.withUse {b' : B} {P R : List (RWNode N)} (h : s.PhisFirst G b' P R) (b : B) (n : N)
    (ds : DefSite (RWNode N)) : ∃ R', (s.withUse b n ds).PhisFirst G b' P R' := by
  by_cases hb : b' = b
  · subst hb
    -- the node of the graph is not among them
    have hP : ∀ x ∈ P, decide (x ≠ .node n) = true := by
      intro x hx
      obtain ⟨i, rfl, -⟩ := h.phis x hx
      refine decide_eq_true ?_
      intro heq
      cases heq
    refine ⟨R.takeWhile (· ≠ .node n) ++ .mu s.mus.length :: R.dropWhile (· ≠ .node n), ?_, h.phis,
      ?_, ?_⟩
    · rw [nodes_withUse_self, h.eq, List.takeWhile_append_of_pos hP, List.dropWhile_append_of_pos hP,
        List.append_assoc]
    · intro x hx
      obtain hx | hx := List.mem_append.1 hx
      · exact h.rest x ((List.takeWhile_sublist _).subset hx)
      · obtain rfl | hx := List.mem_cons.1 hx
        · rfl
        · exact h.rest x ((List.dropWhile_sublist _).subset hx)
    · rw [List.filter_append, List.filter_cons_of_neg Bool.false_ne_true, ← List.filter_append,
        List.takeWhile_append_dropWhile]
      exact h.nodes
  · exact ⟨R, h.of_eq (nodes_withUse_of_ne hb) le_rfl⟩

theorem Shape.withUse (h : s.Shape G) (b : B) (n : N) (ds : DefSite (RWNode N)) :
    (s.withUse b n ds).Shape G where
  phisFirst := by
    intro b'
    obtain ⟨P, R, hfirst⟩ := h.phisFirst b'
    exact ⟨P, hfirst.withUse b n ds⟩
  blocks := by
    intro b' D hD
    refine (h.blocks b' D hD).mono (fun x hx => mem_nodes_withUse.2 (Or.inl hx)) fun x hx =>
      ⟨hx.phi, fun i hi => ?_⟩
    rw [length_withUse]
    exact (hx.mu i hi).trans (Nat.lt_succ_self _)
  mu_lt := by
    intro b' i hi
    rw [length_withUse]
    obtain hi | ⟨-, hi⟩ := mem_nodes_withUse.1 hi
    · exact (h.mu_lt b' i hi).trans (Nat.lt_succ_self _)
    · obtain rfl := RWNode.mu.inj hi
      exact Nat.lt_succ_self _
  defuse_phi := h.defuse_phi
  defuse_mu := by
    intro i hi
    rw [length_withUse] at hi
    exact h.defuse_mu i (Nat.le_of_succ_le hi)

theorem grows_withUse (s : Transformation N B) (b : B) (n : N) (ds : DefSite (RWNode N)) :
    s.Grows (s.withUse b n ds) where
  phis := List.prefix_rfl
  mus := List.prefix_append _ _
  nodes := fun _ _ hx => mem_nodes_withUse.2 (Or.inl hx)
  known := fun _ _ hx hknown =>
    (mem_nodes_withUse.1 hx).resolve_right fun hnew => hknown.ne_mu hnew.2.symm
  before := by
    intro b' x _ hknown
    rw [before, before]
    by_cases hb : b' = b
    · subst hb
      rw [nodes_withUse_self, before_insert hknown.ne_mu rfl, List.takeWhile_append_dropWhile]
    · rw [nodes_withUse_of_ne hb]
  defuse := fun _ _ => rfl
  definitions := fun _ D hD => ⟨D, hD, fun _ _ _ hx => hx, fun _ _ hx => hx⟩

theorem Shape.inserted_withUse (h : s.Shape G) (hb : G.getBBlock (.node n) = some b) :
    Inserted G (s.withUse b n ds) n ds (.mu s.mus.length) b where
  isPhi := rfl
  known := by
    refine ⟨fun i hi => ?_, fun i hi => ?_⟩
    · cases hi
    · obtain rfl := RWNode.mu.inj hi
      rw [length_withUse]
      exact Nat.lt_succ_self _
  defuse := h.defuse_mu _ le_rfl
  uses := by
    rw [getAnnotations, getElem?_withUse]
    rfl
  place := hb
  getBBlock := by
    rw [getBBlock, getElem?_withUse]
    rfl
  before := by
    -- up to the MU node are the nodes up to the node
    have hnot : ∀ x ∈ (s.nodes b).takeWhile (· ≠ .node n), decide (x ≠ .mu s.mus.length) = true := by
      intro x hx
      refine decide_eq_true ?_
      rintro rfl
      exact lt_irrefl _ (h.mu_lt b _ ((List.takeWhile_sublist _).subset hx))
    rw [before, nodes_withUse_self, List.takeWhile_append_of_pos hnot,
      List.takeWhile_cons_of_neg (by simp), List.append_nil]
    exact h.before_node b n

end WithUse

theorem extends_insertUse (h : s.Shape G) {n : N} {ds : DefSite (RWNode N)} {t : Transformation N B}
    {use : RWNode N} (hrun : insertUse G (.node n) ds s = some (t, use)) :
    s.Extends G t ∧ ∃ b, Inserted G t n ds use b := by
  obtain ⟨b, hb, rfl, rfl⟩ := withUse_of_insertUse hrun
  exact ⟨.of_length (h.withUse b n ds) (grows_withUse s b n ds) rfl, b, h.inserted_withUse hb⟩

end Places

/-! ## Nodes behind PHI nodes -/

section Gather

variable {s : Transformation N B}

/-- `gatherNonPhisDefs` follows the operands of PHI nodes to their end. -/
theorem Shape.mem_gatherNonPhisDefs (h : s.Shape G) {l : List (RWNode N)} {a : RWNode N} :
    a ∈ s.gatherNonPhisDefs l ↔ a.isPhi = false ∧ ReachingDefinitions.Leads s.operands l a := by
  have hexpands : ∀ x, s.operands x ≠ [] → x ∈ (Finset.range s.phis.length).image RWNode.phi := by
    intro x hx
    cases x with
    | node n => exact absurd rfl hx
    | mu i => exact absurd rfl hx
    | phi i =>
        refine Finset.mem_image_of_mem _ (Finset.mem_range.2 (Nat.lt_of_not_le fun hi => hx ?_))
        show (s.defuse (.phi i)).getD [] = []
        rw [h.defuse_phi i hi]
        rfl
  have hdepth : (((Finset.range s.phis.length).image RWNode.phi).filter
      (· ∉ ([] : List (RWNode N)))).card < s.phis.length + 1 := by
    refine Nat.lt_succ_of_le ((Finset.card_filter_le _ _).trans ?_)
    exact Finset.card_image_le.trans (Finset.card_range _).le
  have hunseen : ∀ x, Relation.ReflTransGen (Unseen s.operands []) x a ↔
      Relation.ReflTransGen (Edge s.operands) x a := by
    intro x
    have heq : Unseen s.operands [] = Edge s.operands := by
      funext y z
      simp [Unseen, Edge]
    rw [heq]
  rw [gatherNonPhisDefs, List.mem_filter, mem_dfs hexpands hdepth,
    ReachingDefinitions.Leads]
  simp [hunseen, and_comm]

end Gather

end Transformation

/-! ## Runs -/

/-- `getDefinitions` of a use, or of bytes at a node. -/
inductive Query (N : Type u) where
  | use (n : N)
  | bytes (n : N) (ds : DefSite (RWNode N))

namespace Query

/-- The node that the query is about. -/
def place : Query N → N
  | .use n => n
  | .bytes n _ => n

variable (G : ReadWriteGraph (RWNode N) B S)

/-- The def-sites whose definitions are asked for. -/
def sites : Query N → List (DefSite (RWNode N))
  | .use n => G.getUses (.node n)
  | .bytes _ ds => [ds]

variable [DecidableEq N] [DecidableEq B] [DecidableEq S]

/-- What the query returns, and the state it leaves. -/
def answer (targets : List (Memory (RWNode N))) (fuel : Nat) (s : Transformation N B) :
    Query N → Option (Transformation N B × List (RWNode N))
  | .use n => Transformation.getDefinitions G targets fuel (.node n) s
  | .bytes n ds => Transformation.getDefinitionsAt G targets fuel (.node n) ds s

end Query

section Runs

variable [DecidableEq N] [DecidableEq B] [DecidableEq S]

/-- The states that queries lead to, in any order. -/
inductive Reached (G : ReadWriteGraph (RWNode N) B S) (asked : Query N → Prop) :
    Transformation N B → Prop
  | initial : Reached G asked (Transformation.initial G)
  | query {s t : Transformation N B} {targets : List (Memory (RWNode N))} {fuel : Nat} {q : Query N}
      {found : List (RWNode N)} : Reached G asked s → asked q →
      q.answer G targets fuel s = some (t, found) → Reached G asked t

namespace Transformation

variable {G : ReadWriteGraph (RWNode N) B S}

variable (G) in
/-- What holds between queries. -/
structure Settled (s : Transformation N B) : Prop where
  shape : s.Shape G
  complete : s.OwnBytes → ∀ i, s.CompletePhi G i
  /-- a use keeps what was found for it -/
  uses : s.OwnBytes → ∀ n defs b, s.defuse (.node n) = some defs → G.getBBlock (.node n) = some b →
    G.usesUnknown (.node n) = false → ∀ ds ∈ G.getUses (.node n), ∀ c ∈ ds.getInterval,
      c ≠ .unknown → s.AnswersAt G ds.target c defs b (G.nodesBefore b n)
  closed : ∀ x, ∀ y ∈ s.operands x, s.Known y
  found : ∀ n defs, s.defuse (.node n) = some defs → G.usesUnknown (.node n) = false →
    ∀ x ∈ defs, s.Known x

variable {s t u : Transformation N B}

omit [DecidableEq N] [DecidableEq B] [DecidableEq S] in
/-- Only PHI nodes have operands. -/
theorem exists_of_mem_operands {x y : RWNode N} (h : y ∈ s.operands x) :
    ∃ i, x = .phi i ∧ y ∈ (s.defuse (.phi i)).getD [] := by
  cases x with
  | node n => exact absurd h List.not_mem_nil
  | phi i => exact ⟨i, rfl, h⟩
  | mu i => exact absurd h List.not_mem_nil

omit [DecidableEq B] [DecidableEq S] in
theorem Settled.of_extends (h : s.Settled G) (hextends : s.Extends G t) : t.Settled G where
  shape := hextends.shape
  complete := by
    intro hown i
    -- it was complete before, or it was created on the way
    obtain hlt | hge := Nat.lt_or_ge i s.phis.length
    · exact hextends.grows.completePhi hlt (h.complete (hextends.grows.ownBytes h.shape hown) i)
    · exact hextends.complete hown i hge
  uses := by
    intro hown n defs b hdefs hb hknown ds hds c hc hne
    rw [hextends.grows.defuse _ (known_node s n)] at hdefs
    have hanswers := h.uses (hextends.grows.ownBytes h.shape hown) n defs b hdefs hb hknown ds hds c hc
    exact hextends.grows.answersAt (hanswers hne) fun _ hx => hx
  closed := by
    intro x y hy
    obtain ⟨i, rfl, -⟩ := exists_of_mem_operands hy
    obtain hlt | hge := Nat.lt_or_ge i s.phis.length
    · rw [hextends.grows.operands_eq (known_phi_iff.2 hlt)] at hy
      exact hextends.grows.knows (h.closed _ y hy)
    · exact hextends.closed i hge y hy
  found := by
    intro n defs hdefs hknown x hx
    rw [hextends.grows.defuse _ (known_node s n)] at hdefs
    exact hextends.grows.knows (h.found n defs hdefs hknown x hx)

omit [DecidableEq B] [DecidableEq S] in
/-- The definitions of a use that is no PHI node come in. -/
theorem Settled.addDefUse (h : s.Settled G) {x : RWNode N} (hx : s.Known x) (hphi : x.isPhi = false)
    {defs : List (RWNode N)} (hfound : ∀ n, x = .node n → G.usesUnknown (.node n) = false →
      ∀ y ∈ ((s.addDefUse x defs).defuse x).getD [], s.Known y) (huse : s.OwnBytes → ∀ n b, x = .node n →
      G.getBBlock (.node n) = some b → G.usesUnknown (.node n) = false →
        ∀ ds ∈ G.getUses (.node n), ∀ c ∈ ds.getInterval, c ≠ .unknown →
          s.AnswersAt G ds.target c (((s.addDefUse x defs).defuse x).getD []) b (G.nodesBefore b n)) :
    (s.addDefUse x defs).Settled G where
  shape := h.shape.addDefUse hx defs
  complete := fun hown i => (h.complete hown i).addDefUse x defs
  uses := by
    intro hown n defs' b hdefs hb hknown ds hds c hc hne
    have hown : s.OwnBytes := hown
    -- the use itself, or another one, whose definitions are as before
    by_cases hn : x = .node n
    · subst hn
      have hanswers := huse hown n b rfl hb hknown ds hds c hc hne
      rw [hdefs] at hanswers
      exact hanswers
    · rw [addDefUse_of_ne _ (Ne.symm hn)] at hdefs
      exact h.uses hown n defs' b hdefs hb hknown ds hds c hc hne
  closed := by
    intro y z hz
    obtain ⟨i, rfl, hz'⟩ := exists_of_mem_operands hz
    rw [addDefUse_of_ne] at hz'
    · have hknown := h.closed (.phi i) z hz'
      exact ⟨hknown.phi, hknown.mu⟩
    · rintro rfl
      exact Bool.noConfusion hphi
  found := by
    intro n defs' hdefs hknown y hy
    have hyknown : s.Known y := by
      by_cases hn : x = .node n
      · subst hn
        refine hfound n rfl hknown y ?_
        rw [hdefs]
        exact hy
      · rw [addDefUse_of_ne _ (Ne.symm hn)] at hdefs
        exact h.found n defs' hdefs hknown y hy
    exact ⟨hyknown.phi, hyknown.mu⟩

/-- The first query of a use. -/
theorem Settled.getDefinitions (h : s.Settled G) {x : RWNode N} (hx : s.Known x)
    (hphi : x.isPhi = false) (hnone : s.defuse x = none) {targets : List (Memory (RWNode N))}
    {fuel : Nat} {result : List (RWNode N)}
    (hrun : getDefinitions G targets fuel x s = some (t, result)) :
    t.Settled G ∧ ∃ defs, result = t.gatherNonPhisDefs defs ∧ (t.OwnBytes →
      s.usesUnknown G x = false → ∀ b, s.getBBlock G x = some b →
        ∀ ds ∈ (s.getAnnotations G x).uses, ∀ c ∈ ds.getInterval, c ≠ .unknown →
          t.AnswersAt G ds.target c defs b (s.before b x)) := by
  rw [Transformation.getDefinitions, hnone] at hrun
  obtain ⟨⟨u, found⟩, hfind, heq⟩ := Option.map_eq_some_iff.1 hrun
  obtain ⟨rfl, rfl⟩ := Prod.mk.inj heq
  have hextends := extends_findDefinitions h.shape hfind
  -- what was found is what the use gets
  have hanswers : u.OwnBytes → s.usesUnknown G x = false → ∀ b, s.getBBlock G x = some b →
      ∀ ds ∈ (s.getAnnotations G x).uses, ∀ c ∈ ds.getInterval, c ≠ .unknown →
        u.AnswersAt G ds.target c (((u.addDefUse x found).defuse x).getD []) b (s.before b x) := by
    intro hown hknown b hb ds hds c hc hne
    have hfound := (extends_findDefinitions_known h.shape hknown hfind).2.2 hown b hb ds hds c hc hne
    exact hfound.mono (fun d hd => mem_addDefUse.2 (Or.inr hd)) fun _ _ hx => hx
  refine ⟨(h.of_extends hextends).addDefUse (hextends.grows.knows hx) hphi ?_ ?_, _, rfl, hanswers⟩
  · -- it had no definitions before
    rintro n rfl hknown y hy
    have hknown : s.usesUnknown G (.node n) = false := hknown
    have hknown' := (extends_findDefinitions_known h.shape hknown hfind).2.1
    refine hknown' y ((mem_addDefUse.1 hy).resolve_left ?_)
    rw [hextends.grows.defuse _ hx, hnone]
    exact List.not_mem_nil
  · rintro hown n b rfl hb hknown ds hds c hc hne
    rw [← h.shape.before_node b n]
    exact hanswers hown hknown b hb ds hds c hc hne

omit [DecidableEq B] [DecidableEq S] in
/-- Definitions that reach the place are behind what answers the search. -/
theorem Settled.mem_gatherNonPhisDefs (h : s.Settled G) (hown : s.OwnBytes) {m : Memory (RWNode N)}
    {c : Offset} (hne : c ≠ .unknown) {defs : List (RWNode N)} {b : B} {l : List (RWNode N)}
    (hanswers : s.AnswersAt G m c defs b l) {d : RWNode N} (hphi : d.isPhi = false)
    (hdefines : (G.annotations d).Defines m c)
    (hreach : Reaches (G.Kills m c) G.getNodes G.predecessors d b l) :
    d ∈ s.gatherNonPhisDefs defs := by
  refine h.shape.mem_gatherNonPhisDefs.2 ⟨hphi, hanswers.leads_of_reaches ?_ hdefines hreach⟩
  -- behind a PHI node, the search goes on in the predecessors of its block
  rintro b' x ⟨hmem, i, rfl, hat⟩ p hp
  exact h.complete hown i b' hmem m c hne hat p hp

omit [DecidableEq B] [DecidableEq S] in
/-- At first nothing was found. -/
theorem settled_initial (hG : CallFree G) : (initial G).Settled G where
  shape :=
    { phisFirst := by
        intro b
        refine ⟨[], G.getNodes b, rfl, nofun, fun x hx => ?_, List.filter_eq_self.2 (hG.nodes b)⟩
        obtain ⟨n, rfl⟩ := RWNode.exists_of_isNode (hG.nodes b x hx)
        rfl
      blocks := nofun
      mu_lt := by
        intro b i hi
        exact absurd (hG.nodes b _ hi) Bool.false_ne_true
      defuse_phi := fun _ _ => rfl
      defuse_mu := fun _ _ => rfl }
  complete := by
    intro _ i b hb
    exact absurd (hG.nodes b _ hb) Bool.false_ne_true
  uses := nofun
  closed := by
    intro x y hy
    obtain ⟨i, rfl, hy⟩ := exists_of_mem_operands hy
    exact absurd hy List.not_mem_nil
  found := nofun

/-- What a query does: the state stays settled, and what was found answers the searches for its bytes. -/
theorem Settled.query (h : s.Settled G) {targets : List (Memory (RWNode N))} {fuel : Nat} {q : Query N}
    {result : List (RWNode N)} (hrun : q.answer G targets fuel s = some (t, result)) :
    t.Settled G ∧ ∃ defs, result = t.gatherNonPhisDefs defs ∧ (t.OwnBytes →
      (∀ ds ∈ q.sites G, ds.target ≠ .unknown) → ∀ b, G.getBBlock (.node q.place) = some b →
        ∀ ds ∈ q.sites G, ∀ c ∈ ds.getInterval, c ≠ .unknown →
          t.AnswersAt G ds.target c defs b (G.nodesBefore b q.place)) := by
  cases q with
  | use n =>
      have hunknown : (∀ ds ∈ G.getUses (.node n), ds.target ≠ .unknown) →
          G.usesUnknown (.node n) = false := by
        intro hknown
        rw [ReadWriteGraph.usesUnknown, List.any_eq_false]
        exact fun ds hds => by simpa using hknown ds hds
      cases hdefs : s.defuse (.node n) with
      | none =>
          obtain ⟨hsettled, defs, rfl, hanswers⟩ :=
            h.getDefinitions (known_node s n) rfl hdefs (show _ = some (t, result) from hrun)
          refine ⟨hsettled, defs, rfl, fun hown hknown b hb ds hds c hc hne => ?_⟩
          rw [Query.place, ← h.shape.before_node b n]
          exact hanswers hown (hunknown hknown) b hb ds hds c hc hne
      | some defs =>
          -- found before
          have hrun : some (s, s.gatherNonPhisDefs defs) = some (t, result) := by
            rw [← hrun, Query.answer, Transformation.getDefinitions, hdefs]
          obtain ⟨rfl, rfl⟩ := Prod.mk.inj (Option.some.inj hrun)
          refine ⟨h, defs, rfl, fun hown hknown b hb ds hds c hc hne => ?_⟩
          exact h.uses hown n defs b hdefs hb (hunknown hknown) ds hds c hc hne
  | bytes n ds =>
      obtain ⟨⟨u, use⟩, hinsert, hrun⟩ := Option.bind_eq_some_iff.1 hrun
      obtain ⟨hextends, b, hmu⟩ := extends_insertUse h.shape hinsert
      obtain ⟨hsettled, defs, rfl, hanswers⟩ :=
        (h.of_extends hextends).getDefinitions hmu.known hmu.isPhi hmu.defuse hrun
      refine ⟨hsettled, defs, rfl, fun hown hsites b' hb' ds' hds' c hc hne => ?_⟩
      obtain rfl : b = b' := Option.some.inj (hmu.place.symm.trans hb')
      rw [Query.place, ← hmu.before]
      refine hanswers hown (hmu.usesUnknown_iff.2 hsites) b hmu.getBBlock ds' ?_ c hc hne
      rw [hmu.uses]
      exact hds'

theorem settled_of_reached (hG : CallFree G) {asked : Query N → Prop} (h : Reached G asked s) :
    s.Settled G := by
  induction h with
  | initial => exact settled_initial hG
  | query _ _ hrun ih => exact (ih.query hrun).1

/-- **On-demand search is complete.** After any sequence of queries, the answer to a query has every
node that defines a byte in question and reaches the place on a path, with nothing behind it that
overwrites the byte; as long as no PHI node stands for bytes that it was not created for. -/
theorem mem_of_reaches (hG : CallFree G) {asked : Query N → Prop} (h : Reached G asked s)
    {targets : List (Memory (RWNode N))} {fuel : Nat} {q : Query N} {result : List (RWNode N)}
    (hrun : q.answer G targets fuel s = some (t, result)) (hown : t.OwnBytes)
    (hknown : ∀ ds ∈ q.sites G, ds.target ≠ .unknown) {b : B}
    (hb : G.getBBlock (.node q.place) = some b) {ds : DefSite (RWNode N)} (hds : ds ∈ q.sites G)
    {c : Offset} (hc : c ∈ ds.getInterval) (hne : c ≠ .unknown) {d : N}
    (hdefines : (G.annotations (.node d)).Defines ds.target c)
    (hreach : Reaches (G.Kills ds.target c) G.getNodes G.predecessors (.node d) b
      (G.nodesBefore b q.place)) : .node d ∈ result := by
  obtain ⟨hsettled, defs, rfl, hanswers⟩ := (settled_of_reached hG h).query hrun
  exact hsettled.mem_gatherNonPhisDefs hown hne (hanswers hown hknown b hb ds hds c hc hne) rfl hdefines
    hreach

omit [DecidableEq N] [DecidableEq B] [DecidableEq S] in
/-- Without PHI nodes none stands for other bytes. -/
theorem Shape.ownBytes_of_phis_nil (h : s.Shape G) (hphis : s.phis = []) : s.OwnBytes := by
  intro b D hD m c i hhas
  have hlt := known_phi_iff.1 ((h.blocks b D hD).known m c _ hhas)
  rw [hphis] at hlt
  exact absurd hlt (Nat.not_lt_zero i)

end Transformation

end Runs

/-- Block 0 writes eight bytes, and block 1 behind it overwrites the last four of them and reads two
bytes of each half. -/
def lineGraph : ReadWriteGraph (RWNode Nat) Nat Unit where
  getDefines _ := []
  getOverwrites x :=
    if x = .node 1 then [⟨.node (.node 9), 0, 8⟩]
    else if x = .node 2 then [⟨.node (.node 9), 4, 4⟩]
    else []
  getUses x := if x = .node 3 then [⟨.node (.node 9), 2, 4⟩] else []
  getCallees _ := none
  canEscape _ := false
  getBBlock x :=
    if x = .node 1 then some 0
    else if x = .node 2 then some 1
    else if x = .node 3 then some 1
    else none
  getNodes b :=
    if b = 0 then [.node 1]
    else if b = 1 then [.node 2, .node 3]
    else []
  predecessors b := if b = 1 then [0] else []
  getSubgraph _ := ()
  bblocks _ := [0, 1]
  call_alone := fun _ _ _ _ hcallees => absurd hcallees (by simp)

theorem callFree_lineGraph : CallFree lineGraph where
  nodes := by
    intro b x hx
    simp only [lineGraph] at hx
    split_ifs at hx
    · rw [List.mem_singleton.1 hx]
      rfl
    · obtain rfl | hx := List.mem_cons.1 hx
      · rfl
      · rw [List.mem_singleton.1 hx]
        rfl
    · exact absurd hx List.not_mem_nil
  calls := by
    intro b
    rw [ReadWriteGraph.getCall]
    split
    · rfl
    · rfl
  placed := by
    intro n b hb
    simp only [lineGraph] at hb ⊢
    split_ifs at hb with h1 h2 h3
    · obtain rfl := Option.some.inj hb
      simp [h1]
    · obtain rfl := Option.some.inj hb
      simp [h2]
    · obtain rfl := Option.some.inj hb
      simp [h3]

/-- The write of block 0 reaches the read in its first two bytes. -/
theorem mem_of_reaches_lineGraph : RWNode.node 1 ∈ [RWNode.node 1, .node 2] := by
  have hsome : ((Query.use 3).answer lineGraph [] 10 (.initial lineGraph)).map
      (fun answer => (answer.1.phis, answer.2)) = some ([], [.node 1, .node 2]) := by
    decide
  obtain ⟨⟨t, result⟩, ht, heq⟩ := Option.map_eq_some_iff.1 hsome
  obtain ⟨hphis, rfl⟩ := Prod.mk.inj heq
  have hsettled := ((Transformation.settled_initial callFree_lineGraph).query ht).1
  have hown := hsettled.shape.ownBytes_of_phis_nil hphis
  have hknown : ∀ ds ∈ (Query.use 3).sites lineGraph, ds.target ≠ .unknown := by
    intro ds hds
    have hds : ds ∈ [(⟨.node (.node 9), 2, 4⟩ : DefSite (RWNode Nat))] := hds
    rw [List.mem_singleton.1 hds]
    exact nofun
  have hdefines : (lineGraph.annotations (.node 1)).Defines (.node (.node 9)) 2 :=
    Or.inr ⟨⟨.node (.node 9), 0, 8⟩, List.mem_singleton_self _, rfl, by decide⟩
  -- the second write is behind the byte
  have hpass : Passes (lineGraph.Kills (.node (.node 9)) 2) (lineGraph.nodesBefore 1 3) := by
    rintro q hq ⟨ds, hds, -, hc⟩
    have hq : q ∈ [RWNode.node 2] := hq
    rw [List.mem_singleton.1 hq] at hds
    have hds : ds ∈ [(⟨.node (.node 9), 4, 4⟩ : DefSite (RWNode Nat))] := hds
    rw [List.mem_singleton.1 hds] at hc
    revert hc
    decide
  have hreach : Reaches (lineGraph.Kills (.node (.node 9)) 2) lineGraph.getNodes
      lineGraph.predecessors (.node 1) 1 (lineGraph.nodesBefore 1 3) :=
    Or.inr ⟨hpass, 0, List.mem_singleton_self _, .here ⟨[], [], rfl, nofun⟩⟩
  have hreached : Reached lineGraph (fun _ => True) (.initial lineGraph) := .initial
  exact Transformation.mem_of_reaches callFree_lineGraph hreached ht hown hknown rfl (List.mem_singleton_self _) (by decide) (by decide) hdefines hreach

end Cape.MemorySSA
