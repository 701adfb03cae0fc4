import Cape.Library.Walk

/-!
# Graphs whose vertices are split into chains

Every vertex of a graph is replaced by a chain of vertices of another graph: inside of the chain there
is one way on, and its end leads to the starts of the chains of the successors. If the labels of a chain
make up the label of its vertex, the walks from the start of a chain to the end of a chain spell what
the walks between the vertices spell (`spells_iff`), and a list of labels is a part of what some walk
spells in both graphs or in none (`traces_iff`).
-/

set_option autoImplicit false

namespace Cape.Library

universe u v w

variable {α : Type u} {β : Type v} {L : Type w}

/-- What a walk spells with the labels of its vertices. -/
def Spells (r : α → α → Prop) (label : α → List L) (a b : α) (word : List L) : Prop :=
  ∃ π, Walk r a π b ∧ π.flatMap label = word

/-- A part of what a walk from one of the vertices spells. -/
def Traces (V : α → Prop) (r : α → α → Prop) (label : α → List L) (word : List L) : Prop :=
  ∃ a b before after, V a ∧ V b ∧ Spells r label a b (before ++ word ++ after)

/-- The vertices in `V` are replaced by chains. -/
structure ChainSplit (V : α → Prop) (r : α → α → Prop) (r' : β → β → Prop) (parts : α → List β) :
    Prop where
  closed : ∀ a b, V a → r a b → V b
  nonempty : ∀ a, V a → parts a ≠ []
  nodup : ∀ a, V a → (parts a).Nodup
  disjoint : ∀ a b p, V a → V b → p ∈ parts a → p ∈ parts b → a = b
  inner : ∀ a l p q m, V a → parts a = l ++ p :: q :: m → ∀ q', r' p q' ↔ q' = q
  last : ∀ a l p, V a → parts a = l ++ [p] → ∀ q, r' p q ↔ ∃ b m, r a b ∧ parts b = q :: m

namespace ChainSplit

variable {V : α → Prop} {r : α → α → Prop} {r' : β → β → Prop} {parts : α → List β}

/-- A chain is walked from any of its vertices to the end. -/
theorem walk_chain (h : ChainSplit V r r' parts) {a : α} (ha : V a) {q : β} (m : List β) :
    ∀ (l : List β) (p : β), parts a = l ++ p :: m → (p :: m).getLast? = some q →
      Walk r' p (p :: m) q := by
  induction m with
  | nil =>
      intro l p _ hlast
      obtain rfl := Option.some.inj hlast
      exact .single p
  | cons p' m ih =>
      intro l p hparts hlast
      have hedge := (h.inner a l p p' m ha hparts p').2 rfl
      refine .cons hedge (ih (l ++ [p]) p' ?_ ?_)
      · rw [hparts, List.append_assoc]
        rfl
      · rw [← hlast, List.getLast?_cons_cons]

/-- A walk, chain by chain. -/
theorem walk_expand (h : ChainSplit V r r' parts) {a b : α} {π : List α} (hwalk : Walk r a π b)
    (ha : V a) {p q : β} {m : List β} (hp : parts a = p :: m) (hq : (parts b).getLast? = some q) :
    Walk r' p (π.flatMap parts) q := by
  induction hwalk generalizing p m with
  | single a =>
      rw [hp] at hq
      rw [List.flatMap_cons, List.flatMap_nil, List.append_nil, hp]
      exact h.walk_chain ha m [] p hp hq
  | @cons a c b π hedge _ ih =>
      have hc := h.closed a c ha hedge
      rcases List.exists_cons_of_ne_nil (h.nonempty c hc) with ⟨s, m', hs⟩
      -- the end of the first chain, and the start of the next one
      rcases List.eq_nil_or_concat (p :: m) with hnil | ⟨l, e, he⟩
      · cases hnil
      · rw [List.concat_eq_append] at he
        have hlast : (p :: m).getLast? = some e := by rw [he, List.getLast?_concat]
        have hstep := (h.last a l e ha (hp.trans he) s).2 ⟨c, m', hedge, hs⟩
        have hfirst := h.walk_chain ha m [] p hp hlast
        rw [List.flatMap_cons, hp]
        exact hfirst.append hstep (ih hc hs hq)

/-- A walk through the chains, from any place to any place, comes from a walk. The induction is on the
walk; `l` is what comes before it in the first chain, and `m` what is left of the last one. -/
theorem walk_collapse (h : ChainSplit V r r' parts) {b : α} (hb : V b) {p q : β} {σ : List β}
    (hwalk : Walk r' p σ q) {m : List β} {l' : List β} (hq : parts b = l' ++ q :: m) :
    ∀ (a : α) (l n : List β), V a → parts a = l ++ p :: n →
      ∃ π, Walk r a π b ∧ l ++ σ ++ m = π.flatMap parts := by
  induction hwalk with
  | single p =>
      intro a l n ha hp
      have hpa : p ∈ parts a := by rw [hp]; simp
      have hpb : p ∈ parts b := by rw [hq]; simp
      obtain rfl := h.disjoint a b p ha hb hpa hpb
      -- the place in the chain is the same
      have hnodup := h.nodup a ha
      have hsame : l = l' ∧ n = m := by
        have heq := hp.symm.trans hq
        rw [hp, List.nodup_append, List.nodup_cons] at hnodup
        have hbefore : p ∉ l := fun hpl => hnodup.2.2 p hpl p List.mem_cons_self rfl
        rcases (List.append_cons_inj_of_notMem hbefore hnodup.2.1.1).1 heq with ⟨hl, -, hn⟩
        exact ⟨hl, hn⟩
      refine ⟨[a], .single a, ?_⟩
      rw [List.flatMap_cons, List.flatMap_nil, List.append_nil, hp, hsame.2, List.append_assoc]
      rfl
  | @cons p s q σ hedge _ ih =>
      intro a l n ha hp
      cases n with
      | nil =>
          -- the end of the chain: the walk goes on with the chain of a successor
          rcases (h.last a l p ha hp s).1 hedge with ⟨c, m', hac, hc⟩
          rcases ih hq c [] m' (h.closed a c ha hac) hc with ⟨π, hπ, hwords⟩
          refine ⟨a :: π, .cons hac hπ, ?_⟩
          rw [List.flatMap_cons, ← hwords, hp]
          simp
      | cons s' n =>
          obtain rfl := (h.inner a l p s' n ha hp s).1 hedge
          have hp' : parts a = (l ++ [p]) ++ s :: n := by
            rw [hp, List.append_assoc]
            rfl
          rcases ih hq a (l ++ [p]) n ha hp' with ⟨π, hπ, hwords⟩
          refine ⟨π, hπ, ?_⟩
          rw [← hwords]
          simp

variable {label : α → List L} {label' : β → List L}

theorem flatMap_label (hlabel : ∀ a, V a → (parts a).flatMap label' = label a) {π : List α}
    (hπ : ∀ a ∈ π, V a) : (π.flatMap parts).flatMap label' = π.flatMap label := by
  rw [List.flatMap_assoc]
  exact List.flatMap_congr fun a ha => hlabel a (hπ a ha)

theorem walk_closed (h : ChainSplit V r r' parts) {a b : α} {π : List α} (hwalk : Walk r a π b)
    (ha : V a) : ∀ x ∈ π, V x := by
  induction hwalk with
  | single a =>
      intro x hx
      obtain rfl := List.mem_singleton.1 hx
      exact ha
  | @cons a c b π hedge _ ih =>
      intro x hx
      rcases List.mem_cons.1 hx with rfl | hx
      · exact ha
      · exact ih (h.closed a c ha hedge) x hx

/-- **Between the start of a chain and the end of a chain the same is spelled.** -/
theorem spells_iff (h : ChainSplit V r r' parts)
    (hlabel : ∀ a, V a → (parts a).flatMap label' = label a) {a b : α} (ha : V a) (hb : V b)
    {p q : β} {m l : List β} (hp : parts a = p :: m) (hq : parts b = l ++ [q]) (word : List L) :
    Spells r label a b word ↔ Spells r' label' p q word := by
  constructor
  · rintro ⟨π, hπ, rfl⟩
    refine ⟨π.flatMap parts, h.walk_expand hπ ha hp ?_, flatMap_label hlabel (h.walk_closed hπ ha)⟩
    rw [hq, List.getLast?_concat]
  · rintro ⟨σ, hσ, rfl⟩
    rcases h.walk_collapse hb hσ hq a [] m ha hp with ⟨π, hπ, hwords⟩
    rw [List.nil_append, List.append_nil] at hwords
    exact ⟨π, hπ, by rw [hwords, flatMap_label hlabel (h.walk_closed hπ ha)]⟩

/-- **The parts of what is spelled are the same.** -/
theorem traces_iff (h : ChainSplit V r r' parts)
    (hlabel : ∀ a, V a → (parts a).flatMap label' = label a) {V' : β → Prop}
    (hcover : ∀ p, V' p ↔ ∃ a, V a ∧ p ∈ parts a) (word : List L) :
    Traces V r label word ↔ Traces V' r' label' word := by
  constructor
  · rintro ⟨a, b, before, after, ha, hb, hword⟩
    rcases List.exists_cons_of_ne_nil (h.nonempty a ha) with ⟨p, m, hp⟩
    rcases List.eq_nil_or_concat (parts b) with hnil | ⟨l, q, hq⟩
    · exact absurd hnil (h.nonempty b hb)
    · rw [List.concat_eq_append] at hq
      refine ⟨p, q, before, after, (hcover p).2 ⟨a, ha, by rw [hp]; simp⟩,
        (hcover q).2 ⟨b, hb, by rw [hq]; simp⟩, ?_⟩
      exact (h.spells_iff hlabel ha hb hp hq _).1 hword
  · rintro ⟨p, q, before, after, hp, hq, σ, hσ, hword⟩
    rcases (hcover p).1 hp with ⟨a, ha, hpa⟩
    rcases (hcover q).1 hq with ⟨b, hb, hqb⟩
    rcases List.append_of_mem hpa with ⟨l, n, hl⟩
    rcases List.append_of_mem hqb with ⟨l', m, hm⟩
    rcases h.walk_collapse hb hσ hm a l n ha hl with ⟨π, hπ, hwords⟩
    refine ⟨a, b, l.flatMap label' ++ before, after ++ m.flatMap label', ha, hb, π, hπ, ?_⟩
    rw [← flatMap_label hlabel (h.walk_closed hπ ha), ← hwords, List.flatMap_append,
      List.flatMap_append, hword]
    simp only [List.append_assoc]

end ChainSplit

end Cape.Library
