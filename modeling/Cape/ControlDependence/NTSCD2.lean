import Cape.ControlDependence.NTSCD

/-!
# The algorithm `NTSCD2`

The nodes whose successors all have the colour of the target get that colour. The nodes that may be
next form a frontier, which is a set: it is enumerated in any order. Colours are ids of targets, and
those of earlier targets stay.

`NTSCD2.compute_exact`: the loop ends and the result is the relation.
-/

set_option autoImplicit false

namespace Cape.ControlDependence

open Cape.Library

/-- A way to enumerate sets of nodes. -/
def Enumeration (N : Type) : Type :=
  {f : Finset N → List N // ∀ S x, x ∈ f S ↔ x ∈ S}

namespace NTSCD2

variable (G : CDGraph)

/-- The variables of one round: the colours, the next frontier and `progress`. -/
structure Round where
  color : G.Node → Nat
  newFrontier : Finset G.Node
  progress : Bool

variable {G}

/-- The node has the colour of the target. -/
def hasColor (color : G.Node → Nat) (target n : G.Node) : Bool := color n = G.getID target

/-- The predecessors that do not have the colour. -/
def uncolored (color : G.Node → Nat) (target n : G.Node) : Finset G.Node :=
  ((G.predecessors n).filter fun p => !hasColor color target p).toFinset

/-- The body of the loop over the frontier. -/
def visit (target : G.Node) (r : Round G) (nd : G.Node) : Round G :=
  if (G.successors nd).all (hasColor r.color target) then
    let color := Function.update r.color nd (G.getID target)
    ⟨color, r.newFrontier ∪ uncolored color target nd, true⟩
  else { r with newFrontier := insert nd r.newFrontier }

/-- One round. -/
def round (order : Enumeration G.Node) (target : G.Node) (color : G.Node → Nat)
    (frontier : Finset G.Node) : Round G :=
  (order.1 frontier).foldl (visit target) ⟨color, ∅, false⟩

/-- Rounds as long as there is progress; `none` when the fuel is spent. -/
def loop (order : Enumeration G.Node) (target : G.Node) :
    Nat → (G.Node → Nat) → Finset G.Node → Option (G.Node → Nat)
  | 0, _, _ => none
  | fuel + 1, color, frontier =>
      let r := round order target color frontier
      if r.progress then loop order target fuel r.color r.newFrontier else some r.color

/-- `compute` for one target, up to the colours. -/
def computeTarget (order : Enumeration G.Node) (color : G.Node → Nat) (target : G.Node)
    (fuel : Nat) : Option (G.Node → Nat) :=
  let color := Function.update color target (G.getID target)
  loop order target fuel color (uncolored color target target)

variable (G)

/-- `compute`: the colours stay from target to target. -/
def compute (order : Enumeration G.Node) (fuel : Nat) : Option (Result G.Node) :=
  (G.nodes.foldlM
    (fun s nd => (computeTarget order s.1 nd fuel).map fun color =>
      (color, s.2.addAll (G.isMixed (hasColor color nd)) nd G.predicates))
    ((fun _ => 0 : G.Node → Nat), Result.empty)).map Prod.snd

variable {G}

/-! ## One round -/

section Rounds

variable {target : G.Node}

/-- The nodes with the colour, and a list of nodes where the next ones are. -/
structure Frontier (target : G.Node) (color : G.Node → Nat) (pending : G.Node → Prop) : Prop where
  colored : hasColor color target target = true
  sound : ∀ n, hasColor color target n = true → G.Reaching target n
  closed : ∀ n, hasColor color target n = true → n ≠ target →
    ∀ s ∈ G.successors n, hasColor color target s = true
  awaited : ∀ n, hasColor color target n = false →
    (∃ s ∈ G.successors n, hasColor color target s = true) → pending n
  inner : ∀ n, pending n → G.successors n ≠ []
  other : ¬ pending target

theorem hasColor_update (color : G.Node → Nat) (nd n : G.Node) :
    hasColor (Function.update color nd (G.getID target)) target n =
      (decide (n = nd) || hasColor color target n) := by
  simp only [hasColor]
  by_cases h : n = nd
  · subst h
    simp
  · simp [h]

theorem mem_uncolored (color : G.Node → Nat) (n p : G.Node) :
    p ∈ uncolored color target n ↔ n ∈ G.successors p ∧ hasColor color target p = false := by
  simp [uncolored, G.mem_predecessors]

/-- What a visit does. -/
theorem visit_cases (target : G.Node) (r : Round G) (nd : G.Node) :
    ((∀ s ∈ G.successors nd, hasColor r.color target s = true) ∧
      (∀ n, hasColor (visit target r nd).color target n = true ↔
        n = nd ∨ hasColor r.color target n = true) ∧
      (∀ n, n ∈ (visit target r nd).newFrontier ↔ n ∈ r.newFrontier ∨
        (nd ∈ G.successors n ∧ hasColor (visit target r nd).color target n = false)) ∧
      (visit target r nd).progress = true) ∨
    ((∃ s ∈ G.successors nd, hasColor r.color target s = false) ∧
      (visit target r nd).color = r.color ∧
      (∀ n, n ∈ (visit target r nd).newFrontier ↔ n = nd ∨ n ∈ r.newFrontier) ∧
      (visit target r nd).progress = r.progress) := by
  rw [visit]
  by_cases hall : (G.successors nd).all (hasColor r.color target) = true
  · left
    rw [if_pos hall]
    refine ⟨List.all_eq_true.1 hall, fun n => ?_, fun n => ?_, rfl⟩
    · simp [hasColor_update]
    · rw [Finset.mem_union, mem_uncolored]
  · right
    rw [if_neg hall]
    refine ⟨?_, rfl, fun n => Finset.mem_insert, rfl⟩
    simpa using hall

/-- **A visit keeps the frontier.** -/
theorem Frontier.visit {r : Round G} {nd : G.Node} {rest : List G.Node}
    (h : Frontier target r.color fun n => n ∈ nd :: rest ∨ n ∈ r.newFrontier) :
    Frontier target (visit target r nd).color
      fun n => n ∈ rest ∨ n ∈ (NTSCD2.visit target r nd).newFrontier := by
  have hnd : G.successors nd ≠ [] := h.inner nd (Or.inl List.mem_cons_self)
  have hne : nd ≠ target := by
    rintro rfl
    exact h.other (Or.inl List.mem_cons_self)
  -- the node is coloured if all its successors are, or put on the new frontier
  obtain ⟨hall, hcolor, hnew, -⟩ | ⟨-, hcolor, hnew, -⟩ := visit_cases target r nd
  · have hfalse : ∀ n, hasColor (NTSCD2.visit target r nd).color target n = false →
        n ≠ nd ∧ hasColor r.color target n = false := by
      intro n hn
      have hnot : ¬ (n = nd ∨ hasColor r.color target n = true) := fun h => by
        rw [(hcolor n).2 h] at hn
        cases hn
      exact ⟨fun h => hnot (Or.inl h), Bool.eq_false_iff.2 fun h => hnot (Or.inr h)⟩
    refine ⟨(hcolor target).2 (Or.inr h.colored), fun n hn => ?_, fun n hn hnt s hs => ?_,
      fun n hn hsucc => ?_, fun n hn => ?_, fun hn => ?_⟩
    · obtain rfl | hn := (hcolor n).1 hn
      · exact .of_all hnd fun s hs => h.sound s (hall s hs)
      · exact h.sound n hn
    · obtain rfl | hn := (hcolor n).1 hn
      · exact (hcolor s).2 (Or.inr (hall s hs))
      · exact (hcolor s).2 (Or.inr (h.closed n hn hnt s hs))
    · obtain ⟨hnnd, hold⟩ := hfalse n hn
      obtain ⟨s, hs, hsc⟩ := hsucc
      obtain rfl | hsc := (hcolor s).1 hsc
      · exact Or.inr ((hnew n).2 (Or.inr ⟨hs, hn⟩))
      · obtain hmem | hmem := h.awaited n hold ⟨s, hs, hsc⟩
        · exact Or.inl ((List.mem_cons.1 hmem).resolve_left hnnd)
        · exact Or.inr ((hnew n).2 (Or.inl hmem))
    · obtain hn | hn := hn
      · exact h.inner n (Or.inl (List.mem_cons_of_mem nd hn))
      · obtain hn | ⟨hs, -⟩ := (hnew n).1 hn
        · exact h.inner n (Or.inr hn)
        · exact List.ne_nil_of_mem hs
    · obtain hn | hn := hn
      · exact h.other (Or.inl (List.mem_cons_of_mem nd hn))
      · obtain hn | ⟨-, hn⟩ := (hnew target).1 hn
        · exact h.other (Or.inr hn)
        · rw [(hcolor target).2 (Or.inr h.colored)] at hn
          cases hn
  · rw [hcolor]
    have hiff : ∀ n, (n ∈ rest ∨ n ∈ (NTSCD2.visit target r nd).newFrontier) ↔
        n ∈ nd :: rest ∨ n ∈ r.newFrontier := by
      intro n
      rw [hnew, List.mem_cons]
      tauto
    simp only [hiff]
    exact h

/-- What a round leaves of the colours at its start. -/
structure Progress (target : G.Node) (color : G.Node → Nat) (frontier : List G.Node) (r : Round G) :
    Prop where
  grows : ∀ n, hasColor color target n = true → hasColor r.color target n = true
  fresh : ∀ n ∈ r.newFrontier, hasColor color target n = false
  progress : r.progress = true → (∃ n ∈ frontier, hasColor color target n = true) ∨
    ∃ n, hasColor r.color target n = true ∧ hasColor color target n = false
  still : r.progress = false → r.color = color ∧
    ∀ n ∈ frontier, ∃ s ∈ G.successors n, hasColor color target s = false

theorem Progress.visit {color : G.Node → Nat} {done : List G.Node} {r : Round G} {nd : G.Node}
    (hclosed : hasColor color target nd = true →
      ∀ s ∈ G.successors nd, hasColor color target s = true)
    (h : Progress target color done r) :
    Progress target color (done ++ [nd]) (visit target r nd) := by
  have hback : ∀ n, hasColor r.color target n = false → hasColor color target n = false := by
    intro n hn
    rw [Bool.eq_false_iff] at hn ⊢
    exact fun hc => hn (h.grows n hc)
  obtain ⟨hall, hcolor, hnew, hprogress⟩ | ⟨⟨s, hs, hmiss⟩, hcolor, hnew, hprogress⟩ :=
    visit_cases target r nd
  · refine ⟨fun n hn => (hcolor n).2 (Or.inr (h.grows n hn)), fun n hn => ?_, fun _ => ?_,
      fun hstill => ?_⟩
    · obtain hn | ⟨-, hn⟩ := (hnew n).1 hn
      · exact h.fresh n hn
      · rw [Bool.eq_false_iff] at hn
        apply hback
        rw [Bool.eq_false_iff]
        exact fun hc => hn ((hcolor n).2 (Or.inr hc))
    · cases hnd : hasColor color target nd with
      | true => exact Or.inl ⟨nd, List.mem_append_right _ (List.mem_singleton_self nd), hnd⟩
      | false => exact Or.inr ⟨nd, (hcolor nd).2 (Or.inl rfl), hnd⟩
    · rw [hprogress] at hstill
      cases hstill
  · refine ⟨fun n hn => hcolor ▸ h.grows n hn, fun n hn => ?_, fun hp => ?_, fun hstill => ?_⟩
    · -- a node that was coloured at the start would have all its successors coloured
      obtain rfl | hn := (hnew n).1 hn
      · rw [Bool.eq_false_iff]
        intro hc
        have hsc := hclosed hc s hs
        rw [hback s hmiss] at hsc
        cases hsc
      · exact h.fresh n hn
    · rw [hprogress] at hp
      rw [hcolor]
      obtain ⟨n, hn, hc⟩ | hsome := h.progress hp
      · exact Or.inl ⟨n, List.mem_append_left _ hn, hc⟩
      · exact Or.inr hsome
    · rw [hprogress] at hstill
      obtain ⟨heq, hmissing⟩ := h.still hstill
      refine ⟨hcolor.trans heq, fun n hn => ?_⟩
      obtain hn | hn := List.mem_append.1 hn
      · exact hmissing n hn
      · rw [List.mem_singleton.1 hn]
        exact ⟨s, hs, hback s hmiss⟩

/-- **One round** keeps the frontier. -/
theorem round_spec (order : Enumeration G.Node) {color : G.Node → Nat} {frontier : Finset G.Node}
    (h : Frontier target color (· ∈ frontier)) :
    Frontier target (round order target color frontier).color
        (· ∈ (round order target color frontier).newFrontier) ∧
      Progress target color (order.1 frontier) (round order target color frontier) := by
  have hclosed : ∀ n ∈ order.1 frontier, hasColor color target n = true →
      ∀ s ∈ G.successors n, hasColor color target s = true := by
    intro n hn hc
    apply h.closed n hc
    rintro rfl
    exact h.other ((order.2 frontier _).1 hn)
  -- by induction on the part of the frontier that is still to be visited
  have hfold : ∀ (todo done : List G.Node) (r : Round G),
      (∀ n ∈ todo, hasColor color target n = true →
        ∀ s ∈ G.successors n, hasColor color target s = true) →
      (Frontier target r.color fun n => n ∈ todo ∨ n ∈ r.newFrontier) →
      Progress target color done r →
      Frontier target (todo.foldl (visit target) r).color
          (· ∈ (todo.foldl (visit target) r).newFrontier) ∧
        Progress target color (done ++ todo) (todo.foldl (visit target) r) := by
    intro todo
    induction todo with
    | nil =>
        intro done r _ hf hp
        refine ⟨by simpa using hf, by simpa using hp⟩
    | cons nd rest ih =>
        intro done r hcl hf hp
        obtain ⟨hnd, hrest⟩ := List.forall_mem_cons.1 hcl
        have hnext := ih (done ++ [nd]) (visit target r nd) hrest hf.visit (hp.visit hnd)
        rw [List.append_assoc] at hnext
        exact hnext
  have hstart : Progress target color [] ⟨color, ∅, false⟩ :=
    ⟨fun _ hn => hn, fun _ hn => absurd hn (Finset.notMem_empty _), nofun,
      fun _ => ⟨rfl, fun _ hn => absurd hn List.not_mem_nil⟩⟩
  refine hfold (order.1 frontier) [] ⟨color, ∅, false⟩ hclosed ?_ hstart
  simpa [order.2] using h

/-! ## All rounds -/

/-- Without progress the nodes with the colour are those whose maximal paths all contain the
target. -/
theorem Frontier.reaching_iff {color : G.Node → Nat} {frontier : Finset G.Node}
    (h : Frontier target color (· ∈ frontier))
    (hstill : ∀ n ∈ frontier, ∃ s ∈ G.successors n, hasColor color target s = false) (n : G.Node) :
    hasColor color target n = true ↔ G.Reaching target n := by
  refine ⟨h.sound n, fun hreach => ?_⟩
  induction hreach with
  | here hn => exact hn ▸ h.colored
  | @next n _ hne _ ih =>
      by_contra hn
      have hn : hasColor color target n = false := Bool.eq_false_iff.2 hn
      obtain ⟨s, hs⟩ := List.exists_mem_of_ne_nil _ hne
      obtain ⟨s', hs', hmiss⟩ := hstill n (h.awaited n hn ⟨s, hs, ih s hs⟩)
      rw [ih s' hs'] at hmiss
      cases hmiss

/-- The nodes without the colour. -/
def missing (color : G.Node → Nat) (target : G.Node) : Finset G.Node :=
  Finset.univ.filter fun n => hasColor color target n = false

/-- Rounds with progress colour a node, or leave a frontier without coloured nodes. -/
def measure (color : G.Node → Nat) (target : G.Node) (frontier : Finset G.Node) : Nat :=
  2 * (missing color target).card +
    if ∃ n ∈ frontier, hasColor color target n = true then 1 else 0

theorem measure_round (order : Enumeration G.Node) {color : G.Node → Nat}
    {frontier : Finset G.Node} (h : Frontier target color (· ∈ frontier))
    (hprogress : (round order target color frontier).progress = true) :
    measure (round order target color frontier).color target
      (round order target color frontier).newFrontier < measure color target frontier := by
  obtain ⟨-, hp⟩ := round_spec order h
  have hsub : missing (round order target color frontier).color target ⊆ missing color target := by
    intro n hn
    simp only [missing, Finset.mem_filter, Finset.mem_univ, true_and] at hn ⊢
    rw [Bool.eq_false_iff] at hn ⊢
    exact fun hc => hn (hp.grows n hc)
  simp only [measure]
  by_cases hnew : ∃ n, hasColor (round order target color frontier).color target n = true ∧
      hasColor color target n = false
  · obtain ⟨n, hn, hold⟩ := hnew
    have hlt : (missing (round order target color frontier).color target).card <
        (missing color target).card := by
      refine Finset.card_lt_card ⟨hsub, fun hsup => ?_⟩
      have hmem : n ∈ missing color target := by simp [missing, hold]
      have := hsup hmem
      simp [missing, hn] at this
    split_ifs <;> omega
  · obtain hsome | hsome := hp.progress hprogress
    · -- no node was coloured, so none of the next frontier is
      have hnone : ¬ ∃ n ∈ (round order target color frontier).newFrontier,
          hasColor (round order target color frontier).color target n = true := by
        rintro ⟨n, hn, hc⟩
        exact hnew ⟨n, hc, hp.fresh n hn⟩
      have hsome : ∃ n ∈ frontier, hasColor color target n = true := by
        obtain ⟨n, hn, hc⟩ := hsome
        exact ⟨n, (order.2 frontier n).1 hn, hc⟩
      have hcard := Finset.card_le_card hsub
      rw [if_neg hnone, if_pos hsome]
      omega
    · exact absurd hsome hnew

/-- **The loop ends**, and colours what it is to colour. -/
theorem loop_spec (order : Enumeration G.Node) :
    ∀ {fuel : Nat} {color : G.Node → Nat} {frontier : Finset G.Node},
      Frontier target color (· ∈ frontier) → measure color target frontier < fuel →
      ∃ color', loop order target fuel color frontier = some color' ∧
        ∀ n, hasColor color' target n = true ↔ G.Reaching target n := by
  intro fuel
  induction fuel with
  | zero => exact fun _ hfuel => absurd hfuel (Nat.not_lt_zero _)
  | succ fuel ih =>
      intro color frontier h hfuel
      obtain ⟨hround, hp⟩ := round_spec order h
      cases hprogress : (round order target color frontier).progress with
      | true =>
          have hlt := measure_round order h hprogress
          obtain ⟨color', hloop, hcolor⟩ := ih hround (by omega)
          refine ⟨color', ?_, hcolor⟩
          simp only [loop, hprogress, if_true]
          exact hloop
      | false =>
          obtain ⟨heq, hstill⟩ := hp.still hprogress
          refine ⟨color, ?_, h.reaching_iff fun n hn => hstill n ((order.2 frontier n).2 hn)⟩
          simp only [loop, hprogress, Bool.false_eq_true, if_false, heq]

/-- A node keeps its colour or gets that of the target. -/
theorem color_loop (order : Enumeration G.Node) (n : G.Node) :
    ∀ {fuel : Nat} {color color' : G.Node → Nat} {frontier : Finset G.Node},
      loop order target fuel color frontier = some color' →
      color' n = color n ∨ color' n = G.getID target := by
  have hvisit : ∀ (r : Round G) (nd : G.Node),
      (visit target r nd).color n = r.color n ∨ (visit target r nd).color n = G.getID target := by
    intro r nd
    rw [visit]
    split
    · show Function.update r.color nd (G.getID target) n = _ ∨ Function.update _ _ _ n = _
      by_cases h : n = nd
      · subst h
        exact Or.inr (Function.update_self _ _ _)
      · exact Or.inl (Function.update_of_ne h _ _)
    · exact Or.inl rfl
  -- one node, one round, and then all rounds
  have hfold : ∀ (l : List G.Node) (r : Round G), (l.foldl (visit target) r).color n = r.color n ∨
      (l.foldl (visit target) r).color n = G.getID target := by
    intro l
    induction l with
    | nil => exact fun _ => Or.inl rfl
    | cons nd l ih =>
        intro r
        obtain h | h := ih (visit target r nd)
        · rw [List.foldl_cons, h]
          exact hvisit r nd
        · exact Or.inr h
  intro fuel
  induction fuel with
  | zero => exact fun h => nomatch h
  | succ fuel ih =>
      intro color color' frontier h
      have hround : (round order target color frontier).color n = color n ∨
          (round order target color frontier).color n = G.getID target := hfold _ _
      cases hprogress : (round order target color frontier).progress with
      | true =>
          simp only [loop, hprogress, if_true] at h
          obtain hc | hc := ih h
          · rw [hc]
            exact hround
          · exact Or.inr hc
      | false =>
          simp only [loop, hprogress, Bool.false_eq_true, if_false, Option.some.injEq] at h
          exact h ▸ hround

end Rounds

/-! ## All targets -/

theorem computeTarget_spec (order : Enumeration G.Node) {color : G.Node → Nat} {target : G.Node}
    (hfresh : ∀ n, hasColor color target n = false) {fuel : Nat} (hfuel : 2 * G.size + 2 ≤ fuel) :
    ∃ color', computeTarget order color target fuel = some color' ∧
      (∀ n, hasColor color' target n = true ↔ G.Reaching target n) ∧
      ∀ n m, m ≠ target → hasColor color' m n = true → hasColor color m n = true := by
  let color₀ : G.Node → Nat := Function.update color target (G.getID target)
  -- at the start only the target has its colour
  have honly : ∀ n, hasColor color₀ target n = true ↔ n = target := by
    intro n
    rw [hasColor_update, hfresh]
    simp
  have hstart : Frontier target color₀ (· ∈ uncolored color₀ target target) := by
    refine ⟨(honly target).2 rfl, fun n hn => .here ((honly n).1 hn),
      fun n hn hne => absurd ((honly n).1 hn) hne, fun n hn hsucc => ?_, fun n hn => ?_, fun hn => ?_⟩
    · obtain ⟨s, hs, hsc⟩ := hsucc
      exact (mem_uncolored _ _ _).2 ⟨(honly s).1 hsc ▸ hs, hn⟩
    · exact List.ne_nil_of_mem ((mem_uncolored _ _ _).1 hn).1
    · have := ((mem_uncolored _ _ _).1 hn).2
      rw [(honly target).2 rfl] at this
      cases this
  have hcard : (missing color₀ target).card ≤ G.size := by
    simpa using Finset.card_le_univ (missing color₀ target)
  have hmeasure : measure color₀ target (uncolored color₀ target target) < fuel := by
    rw [measure]
    split_ifs <;> omega
  obtain ⟨color', hloop, hcolor⟩ := loop_spec order hstart hmeasure
  refine ⟨color', hloop, hcolor, fun n m hm hc => ?_⟩
  have hc : color' n = G.getID m := of_decide_eq_true hc
  have hids : G.getID m ≠ G.getID target := fun h => hm (G.getID_inj.1 h)
  obtain hkept | hnew := color_loop order n hloop
  · refine decide_eq_true (?_ : color n = G.getID m)
    have hne : n ≠ target := by
      rintro rfl
      rw [hkept] at hc
      exact hids (hc.symm.trans (Function.update_self _ _ _))
    have hold : color₀ n = color n := Function.update_of_ne hne _ _
    exact (hkept.trans hold).symm.trans hc
  · exact absurd (hc.symm.trans hnew) hids

theorem foldlM_spec (order : Enumeration G.Node) {fuel : Nat} (hfuel : 2 * G.size + 2 ≤ fuel) :
    ∀ {l : List G.Node}, l.Nodup → ∀ {color : G.Node → Nat} (r : Result G.Node),
      (∀ m ∈ l, ∀ n, hasColor color m n = false) →
      ∃ s', l.foldlM (fun s nd => (computeTarget order s.1 nd fuel).map fun color =>
          (color, s.2.addAll (G.isMixed (hasColor color nd)) nd G.predicates)) (color, r) = some s' ∧
        ∀ n p, p ∈ s'.2.CD n ↔ (n ∈ l ∧ p ∈ G.predicates ∧
          (∃ s ∈ G.successors p, G.Reaching n s) ∧ ∃ s ∈ G.successors p, ¬ G.Reaching n s) ∨
            p ∈ r.CD n := by
  intro l
  induction l with
  | nil => exact fun _ color r _ => ⟨(color, r), rfl, fun n p => by simp⟩
  | cons a l ih =>
      intro hl color r hfresh
      obtain ⟨ha, hl⟩ := List.nodup_cons.1 hl
      obtain ⟨hfresh, hrest⟩ := List.forall_mem_cons.1 hfresh
      obtain ⟨color', htarget, hcolor, hkept⟩ := computeTarget_spec order hfresh hfuel
      -- the colours of later targets are still unused
      have hlater : ∀ m ∈ l, ∀ n, hasColor color' m n = false := by
        intro m hm n
        have hma : m ≠ a := fun h => ha (h ▸ hm)
        rw [Bool.eq_false_iff]
        intro hc
        have := hkept n m hma hc
        rw [hrest m hm n] at this
        cases this
      obtain ⟨s', hs', hmem⟩ :=
        ih hl (r.addAll (G.isMixed (hasColor color' a)) a G.predicates) hlater
      refine ⟨s', ?_, fun n p => ?_⟩
      · rw [List.foldlM_cons, htarget]
        exact hs'
      · rw [hmem, Result.mem_addAll, CDGraph.isMixed_iff hcolor, List.mem_cons]
        constructor
        · rintro (⟨hn, hp⟩ | ⟨rfl, hp⟩ | hr)
          · exact Or.inl ⟨Or.inr hn, hp⟩
          · exact Or.inl ⟨Or.inl rfl, hp⟩
          · exact Or.inr hr
        · rintro (⟨rfl | hn, hp⟩ | hr)
          · exact Or.inr (Or.inl ⟨rfl, hp⟩)
          · exact Or.inl ⟨hn, hp⟩
          · exact Or.inr (Or.inr hr)

/-- The two maps are filled together. -/
theorem converse_compute {order : Enumeration G.Node} {fuel : Nat} {r : Result G.Node}
    (h : compute G order fuel = some r) : r.Converse := by
  obtain ⟨s, hs, rfl⟩ := Option.map_eq_some_iff.1 h
  refine Result.foldlM_keeps (P := fun s => s.2.Converse) (fun n _ s s' hr h => ?_)
    Result.converse_empty hs
  obtain ⟨color, -, rfl⟩ := Option.map_eq_some_iff.1 h
  exact hr.addAll

theorem compute_spec (G : CDGraph) (order : Enumeration G.Node) (extra : Nat) :
    ∃ r, compute G order (2 * G.size + 2 + extra) = some r ∧ ∀ n p, p ∈ r.CD n ↔
      (∃ s ∈ G.successors p, G.Reaching n s) ∧ ∃ s ∈ G.successors p, ¬ G.Reaching n s := by
  obtain ⟨s', hs', hmem⟩ := foldlM_spec order (Nat.le_add_right _ extra) G.nodup_nodes
    .empty
    fun m _ n => decide_eq_false (Nat.succ_ne_zero m.val).symm
  refine ⟨s'.2, ?_, fun n p => ?_⟩
  · rw [compute]
    rw [hs']
    rfl
  · rw [hmem]
    simp only [G.mem_nodes, true_and, Result.not_mem_empty, or_false]
    exact ⟨fun h => h.2, fun h => ⟨(G.ntscd_iff.2 h).mem_predicates, h⟩⟩

/-- **`NTSCD2` is exact** on every graph, in whatever order the frontiers are enumerated: with this
much fuel or more the rounds end, and the result is the relation. -/
theorem compute_exact (G : CDGraph) (order : Enumeration G.Node) (extra : Nat) :
    ∃ r, compute G order (2 * G.size + 2 + extra) = some r ∧ ∀ n p, p ∈ r.CD n ↔ G.NTSCD p n := by
  obtain ⟨r, hr, hmem⟩ := compute_spec G order extra
  refine ⟨r, hr, fun n p => ?_⟩
  rw [hmem, G.ntscd_iff]

end NTSCD2

end Cape.ControlDependence
