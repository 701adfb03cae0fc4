import Cape.Library.ReachingDefinitions

/-!
# Webs of PHI nodes

A PHI node stands at the start of a block for the definitions that reach this place, and its operands
are what was found at the ends of the predecessors. A search in a block may stop where something kills,
go on in the only predecessor, or find a PHI node of the block (`Answers`).

`Answers.leads_of_reaches`: when the operands of all PHI nodes answer the searches in the predecessors,
operands lead from what was found to every definition that reaches the place.
`Sent.reaches_of_leads`: when all operands come from the ends of the predecessors, they lead to no
other.
-/

set_option autoImplicit false

namespace Cape.Library.ReachingDefinitions

universe u v

variable {α : Type u} {β : Type v}

/-- Operands lead from what was found to the node. -/
def Leads (operands : α → List α) (found : List α) (a : α) : Prop :=
  ∃ x ∈ found, Relation.ReflTransGen (Edge operands) x a

/-- Operands that are the same from the nodes found on lead to the same nodes. -/
theorem leads_congr {operands operands' : α → List α} {found : List α} {P : α → Prop}
    (hfound : ∀ x ∈ found, P x) (hclosed : ∀ x, P x → ∀ y ∈ operands x, P y)
    (hsame : ∀ x, P x → operands' x = operands x) {a : α} :
    Leads operands' found a ↔ Leads operands found a := by
  have hpath : ∀ {x}, P x → (Relation.ReflTransGen (Edge operands') x a ↔
      Relation.ReflTransGen (Edge operands) x a) := by
    intro x hx
    constructor
    · intro h
      induction h using Relation.ReflTransGen.head_induction_on with
      | refl => exact .refl
      | @head x y hy _ ih =>
          have hy : y ∈ operands' x := hy
          rw [hsame x hx] at hy
          exact .head hy (ih (hclosed x hx y hy))
    · intro h
      induction h using Relation.ReflTransGen.head_induction_on with
      | refl => exact .refl
      | @head x y hy _ ih =>
          have hback : y ∈ operands' x := by
            rw [hsame x hx]
            exact hy
          exact .head hback (ih (hclosed x hx y hy))
  constructor
  · rintro ⟨x, hx, h⟩
    exact ⟨x, hx, (hpath (hfound x hx)).1 h⟩
  · rintro ⟨x, hx, h⟩
    exact ⟨x, hx, (hpath (hfound x hx)).2 h⟩

/-- The sources that survive the nodes `l` were found. -/
def FoundHere (kill source : α → Prop) (found l : List α) : Prop :=
  ∀ a, source a → Survives kill a l → a ∈ found

variable (kill source : α → Prop) (nodes : β → List α) (predecessors : β → List β)
variable (phiOf : β → α → Prop)

/-- What was found in a block, behind the nodes `l` that are first in it. -/
inductive Answers (found : List α) : β → List α → Prop
  | killed {b : β} {l : List α} : FoundHere kill source found l → (∃ q ∈ l, kill q) → Answers found b l
  | root {b : β} {l : List α} : FoundHere kill source found l → predecessors b = [] → Answers found b l
  | before {b p : β} {l : List α} : FoundHere kill source found l → predecessors b = [p] →
      Answers found p (nodes p) → Answers found b l
  | phi {b : β} {l : List α} {x : α} : FoundHere kill source found l → phiOf b x → x ∈ found →
      Answers found b l

/-- Nothing kills from the start of the block `b'` to the place behind `l`. -/
inductive Clear (b' : β) : β → List α → Prop
  | here {l : List α} : Passes kill l → Clear b' b' l
  | through {p b : β} {l : List α} : p ∈ predecessors b → Passes kill l → Clear b' p (nodes p) →
      Clear b' b l

/-- What was found is a source that reaches the place, or a PHI node of a block from which nothing kills. -/
def Sent (x : α) (b : β) (l : List α) : Prop :=
  (source x ∧ Reaches kill nodes predecessors x b l) ∨
    ∃ b', phiOf b' x ∧ Clear kill nodes predecessors b' b l

variable {kill} {source} {nodes} {predecessors} {phiOf}

theorem atEnd_iff_reaches {a : α} {b : β} :
    AtEnd kill nodes predecessors a b ↔ Reaches kill nodes predecessors a b (nodes b) := by
  constructor
  · intro h
    cases h with
    | here h => exact Or.inl h
    | through hp hpass h => exact Or.inr ⟨hpass, _, hp, h⟩
  · rintro (h | ⟨hpass, p, hp, h⟩)
    · exact .here h
    · exact .through hp hpass h

/-! ## Everything is found -/

theorem FoundHere.mono {found found' l : List α} (h : FoundHere kill source found l)
    (hfound : found ⊆ found') : FoundHere kill source found' l :=
  fun a ha hsurvives => hfound (h a ha hsurvives)

theorem Answers.mono {phiOf' : β → α → Prop} {found found' : List α} {b : β} {l : List α}
    (h : Answers kill source nodes predecessors phiOf found b l) (hfound : found ⊆ found')
    (hphi : ∀ b x, phiOf b x → phiOf' b x) :
    Answers kill source nodes predecessors phiOf' found' b l := by
  induction h with
  | killed h hkill => exact .killed (h.mono hfound) hkill
  | root h hroot => exact .root (h.mono hfound) hroot
  | before h hp _ ih => exact .before (h.mono hfound) hp ih
  | phi h hx hmem => exact .phi (h.mono hfound) (hphi _ _ hx) (hfound hmem)

theorem Answers.foundHere {found : List α} {b : β} {l : List α}
    (h : Answers kill source nodes predecessors phiOf found b l) : FoundHere kill source found l := by
  cases h with
  | killed h _ => exact h
  | root h _ => exact h
  | before h _ _ => exact h
  | phi h _ _ => exact h

/-- Where nothing kills, the search has gone on to a predecessor, or there is a PHI node. -/
theorem Answers.step {found : List α} {b p : β} {l : List α}
    (h : Answers kill source nodes predecessors phiOf found b l) (hpass : Passes kill l)
    (hp : p ∈ predecessors b) : Answers kill source nodes predecessors phiOf found p (nodes p) ∨
      ∃ x ∈ found, phiOf b x := by
  cases h with
  | killed _ hkill =>
      obtain ⟨q, hq, hkill⟩ := hkill
      exact absurd hkill (hpass q hq)
  | root _ hroot =>
      rw [hroot] at hp
      exact absurd hp List.not_mem_nil
  | before _ hsingle h =>
      rw [hsingle] at hp
      rw [List.mem_singleton.1 hp]
      exact Or.inl h
  | phi _ hx hmem => exact Or.inr ⟨_, hmem, hx⟩

section Complete

variable {operands : α → List α}
variable (hphi : ∀ b x, phiOf b x → ∀ p ∈ predecessors b,
  Answers kill source nodes predecessors phiOf (operands x) p (nodes p))
include hphi

theorem Answers.leads_of_atEnd {a : α} (ha : source a) {b : β}
    (hend : AtEnd kill nodes predecessors a b) : ∀ {found : List α},
      Answers kill source nodes predecessors phiOf found b (nodes b) → Leads operands found a := by
  induction hend with
  | here hsurvives => exact fun h => ⟨a, h.foundHere a ha hsurvives, .refl⟩
  | @through p b hp hpass _ ih =>
      intro found h
      obtain h | ⟨x, hmem, hx⟩ := h.step hpass hp
      · exact ih h
      · -- the operands of the PHI node go on in all predecessors
        obtain ⟨y, hy, hpath⟩ := ih (hphi b x hx p hp)
        exact ⟨x, hmem, .head hy hpath⟩

/-- **Every definition that reaches the place is found.** -/
theorem Answers.leads_of_reaches {found : List α} {b : β} {l : List α}
    (h : Answers kill source nodes predecessors phiOf found b l) {a : α} (ha : source a)
    (hreach : Reaches kill nodes predecessors a b l) : Leads operands found a := by
  obtain hsurvives | ⟨hpass, p, hp, hend⟩ := hreach
  · exact ⟨a, h.foundHere a ha hsurvives, .refl⟩
  · obtain h | ⟨x, hmem, hx⟩ := h.step hpass hp
    · exact leads_of_atEnd hphi ha hend h
    · obtain ⟨y, hy, hpath⟩ := leads_of_atEnd hphi ha hend (hphi b x hx p hp)
      exact ⟨x, hmem, .head hy hpath⟩

end Complete

/-! ## Nothing else is found -/

theorem Clear.reaches {a : α} {b' b p : β} {l : List α} (h : Clear kill nodes predecessors b' b l)
    (hp : p ∈ predecessors b') (ha : AtEnd kill nodes predecessors a p) :
    Reaches kill nodes predecessors a b l := by
  induction h with
  | here hpass => exact Or.inr ⟨hpass, p, hp, ha⟩
  | through hstep hpass _ ih => exact Or.inr ⟨hpass, _, hstep, atEnd_iff_reaches.2 ih⟩

theorem Clear.join {b'' b' b p : β} {l : List α} (h : Clear kill nodes predecessors b' b l)
    (hp : p ∈ predecessors b') (hbefore : Clear kill nodes predecessors b'' p (nodes p)) :
    Clear kill nodes predecessors b'' b l := by
  induction h with
  | here hpass => exact .through hp hpass hbefore
  | through hstep hpass _ ih => exact .through hstep hpass ih

/-- What was found at the end of a predecessor of the block. -/
theorem Sent.behind {x : α} {b' b p : β} {l : List α}
    (h : Sent kill source nodes predecessors phiOf x p (nodes p)) (hp : p ∈ predecessors b')
    (hclear : Clear kill nodes predecessors b' b l) :
    Sent kill source nodes predecessors phiOf x b l := by
  obtain ⟨hx, hreach⟩ | ⟨b'', hx, hbefore⟩ := h
  · exact Or.inl ⟨hx, hclear.reaches hp (atEnd_iff_reaches.2 hreach)⟩
  · exact Or.inr ⟨b'', hx, hclear.join hp hbefore⟩

/-- What was found in front of a block. -/
theorem Sent.of_start {x : α} {b : β} {l : List α}
    (h : Sent kill source nodes predecessors phiOf x b []) (hpass : Passes kill l) :
    Sent kill source nodes predecessors phiOf x b l := by
  obtain ⟨hx, hsurvives | ⟨-, hbefore⟩⟩ | ⟨b', hx, hclear⟩ := h
  · exact absurd hsurvives.mem List.not_mem_nil
  · exact Or.inl ⟨hx, Or.inr ⟨hpass, hbefore⟩⟩
  · cases hclear with
    | here _ => exact Or.inr ⟨b, hx, .here hpass⟩
    | through hp _ hclear => exact Or.inr ⟨b', hx, .through hp hpass hclear⟩

/-- **Only definitions that reach the place are found.** -/
theorem Sent.reaches_of_leads {operands : α → List α}
    (hphi : ∀ b x, phiOf b x → ∀ y ∈ operands x, ∃ p ∈ predecessors b,
      Sent kill source nodes predecessors phiOf y p (nodes p))
    (hsource : ∀ x, source x → operands x = []) {x a : α} {b : β} {l : List α}
    (hpath : Relation.ReflTransGen (Edge operands) x a)
    (h : Sent kill source nodes predecessors phiOf x b l) (ha : ∀ b', ¬ phiOf b' a) :
    source a ∧ Reaches kill nodes predecessors a b l := by
  induction hpath using Relation.ReflTransGen.head_induction_on with
  | refl => exact h.resolve_right fun ⟨b', hx, _⟩ => ha b' hx
  | @head x y hy _ ih =>
      obtain ⟨hx, -⟩ | ⟨b', hx, hclear⟩ := h
      · -- a source has no operands
        rw [Edge, hsource x hx] at hy
        exact absurd hy List.not_mem_nil
      · obtain ⟨p, hp, hsent⟩ := hphi b' x hx y hy
        exact ih (hsent.behind hp hclear)

end Cape.Library.ReachingDefinitions
