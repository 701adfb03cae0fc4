import Cape.Library.Dominance
import Cape.Library.Worklist

/-!
# Deciding reachability and dominance

A worklist search that has seen the vertices `s` from the start finds what can be reached around
them (`mem_searchAround`). On a finite graph given by successor lists this decides whether a vertex
is reachable, whether one vertex dominates another, and whether a map gives the immediate
dominators.
-/

set_option autoImplicit false

namespace Cape.Library

universe u

variable {α : Type u}

variable [DecidableEq α] {next : α → List α}

/-- Fresh steps: a walk around `s`, with the returns to `a` left out. -/
theorem fresh_of_walk {s : Finset α} {a c x : α} {π : List α} (hπ : Walk (Edge next) c π x)
    (hs : ∀ y ∈ π, y ∉ s)
    (hc : c = a ∨ Relation.ReflTransGen (Worklist.Fresh next (insert a s)) a c) :
    x = a ∨ Relation.ReflTransGen (Worklist.Fresh next (insert a s)) a x := by
  induction hπ with
  | single c => exact hc
  | @cons c e x π hce hrest ih =>
      refine ih (fun y hy => hs y (List.mem_cons_of_mem _ hy)) ?_
      by_cases hea : e = a
      · exact Or.inl hea
      · have hes : e ∉ s := hs e (List.mem_cons_of_mem _ hrest.start_mem)
        have hstep : Worklist.Fresh next (insert a s) c e := ⟨hce, by simp [hea, hes]⟩
        rcases hc with rfl | hc
        · exact Or.inr (.single hstep)
        · exact Or.inr (hc.tail hstep)

variable (next) [Fintype α]

/-- The vertices that a search from `a` has seen at its end when it starts with `s` seen. -/
def searchAround (s : Finset α) (a : α) : Finset α :=
  (Worklist.run .stack next (Fintype.card α) ⟨insert a s, [a]⟩).seen

theorem size_around {s : Finset α} {a : α} (ha : a ∉ s) :
    Worklist.size (⟨insert a s, [a]⟩ : Worklist α) ≤ Fintype.card α := by
  have hcard : (insert a s).card = s.card + 1 := Finset.card_insert_of_notMem ha
  have hle : (insert a s).card ≤ Fintype.card α := Finset.card_le_univ _
  simp only [Worklist.size, List.length_singleton]
  omega

/-- **A search around `s` finds what walks around `s` reach.** -/
theorem mem_searchAround {s : Finset α} {a : α} (ha : a ∉ s) (x : α) :
    x ∈ searchAround next s a ↔ x ∈ s ∨ ∃ π, Walk (Edge next) a π x ∧ ∀ y ∈ π, y ∉ s := by
  have hsize := size_around ha
  have hhere : ∃ π, Walk (Edge next) a π a ∧ ∀ y ∈ π, y ∉ s :=
    ⟨[a], .single a, by simpa using ha⟩
  rw [searchAround, Worklist.mem_seen_run _ _ (by simp) hsize]
  constructor
  · rintro (hx | ⟨q, hq, hreach⟩)
    · rcases Finset.mem_insert.1 hx with rfl | hx
      · exact Or.inr hhere
      · exact Or.inl hx
    · obtain rfl := List.mem_singleton.1 hq
      refine Or.inr ?_
      clear hsize
      induction hreach with
      | refl => exact hhere
      | tail _ hstep ih =>
          obtain ⟨π, hπ, hs⟩ := ih
          refine ⟨_, hπ.snoc hstep.1, fun y hy => ?_⟩
          rcases List.mem_append.1 hy with hy | hy
          · exact hs y hy
          · obtain rfl := List.mem_singleton.1 hy
            exact fun hys => hstep.2 (Finset.mem_insert_of_mem hys)
  · rintro (hx | ⟨π, hπ, hs⟩)
    · exact Or.inl (Finset.mem_insert_of_mem hx)
    · rcases fresh_of_walk hπ hs (Or.inl rfl) with rfl | hreach
      · exact Or.inl (Finset.mem_insert_self _ _)
      · exact Or.inr ⟨a, List.mem_singleton_self a, hreach⟩

/-- **A search around `s` takes what walks around `s` reach**, in either discipline. -/
theorem mem_order_around (d : Discipline) {s : Finset α} {a : α} (ha : a ∉ s) (x : α) :
    x ∈ Worklist.order d next (Fintype.card α) ⟨insert a s, [a]⟩ ↔
      ∃ π, Walk (Edge next) a π x ∧ ∀ y ∈ π, y ∉ s := by
  have hseen := mem_searchAround next ha x
  rw [searchAround, Worklist.mem_seen_run _ _ (by simp) (size_around ha)] at hseen
  rw [Worklist.mem_order d next (by simp) (size_around ha), hseen, List.mem_singleton]
  constructor
  · rintro (rfl | ⟨hx | hx, hnot⟩)
    · exact ⟨[x], .single x, by simpa using ha⟩
    · exact absurd (Finset.mem_insert_of_mem hx) hnot
    · exact hx
  · rintro ⟨π, hπ, hs⟩
    by_cases hxa : x = a
    · exact Or.inl hxa
    · refine Or.inr ⟨Or.inr ⟨π, hπ, hs⟩, fun hx => ?_⟩
      rcases Finset.mem_insert.1 hx with hx | hx
      · exact hxa hx
      · exact hs x hπ.end_mem hx

theorem fromRoot_iff_search (root b : α) :
    FromRoot (Edge next) root b ↔ b ∈ searchAround next ∅ root := by
  rw [mem_searchAround next (Finset.notMem_empty root)]
  simp [FromRoot]

instance (a b : α) : Decidable (Edge next a b) := inferInstanceAs (Decidable (b ∈ next a))

instance (root b : α) : Decidable (FromRoot (Edge next) root b) :=
  decidable_of_iff' _ (fromRoot_iff_search next root b)

theorem dominates_iff_search (root d b : α) :
    Dominates (Edge next) root d b ↔ d = root ∨ d = b ∨ b ∉ searchAround next {d} root := by
  by_cases hroot : d = root
  · subst hroot
    exact ⟨fun _ => Or.inl rfl, fun _ => Dominates.of_root b⟩
  · have hnot : root ∉ ({d} : Finset α) := by simpa using Ne.symm hroot
    have hmem := mem_searchAround next hnot b
    by_cases hb : d = b
    · subst hb
      exact ⟨fun _ => Or.inr (Or.inl rfl), fun _ => Dominates.refl d⟩
    · rw [hmem]
      simp only [hroot, hb, Finset.mem_singleton, Ne.symm hb, false_or, not_exists, not_and,
        Dominates]
      refine forall_congr' fun π => forall_congr' fun _ => ?_
      rw [not_forall]
      constructor
      · exact fun hd => ⟨d, by simp [hd]⟩
      · rintro ⟨y, hy⟩
        simp only [Classical.not_imp, not_not] at hy
        exact hy.2 ▸ hy.1

instance (root d b : α) : Decidable (Dominates (Edge next) root d b) :=
  decidable_of_iff' _ (dominates_iff_search next root d b)

instance (root d b : α) : Decidable (StrictlyDominates (Edge next) root d b) :=
  inferInstanceAs (Decidable (d ≠ b ∧ Dominates (Edge next) root d b))

omit [DecidableEq α] [Fintype α] in
theorem immediateDominator_iff (root : α) (idom : α → Option α) :
    ImmediateDominator (Edge next) root idom ↔ idom root = none ∧
      ∀ b, FromRoot (Edge next) root b →
        (b ≠ root → (idom b).isSome) ∧ ∀ d, idom b = some d →
          StrictlyDominates (Edge next) root d b ∧
            ∀ c, StrictlyDominates (Edge next) root c b → Dominates (Edge next) root c d := by
  constructor
  · intro h
    refine ⟨h.root_none, fun b hb => ⟨fun hne => ?_, fun d hd => ?_⟩⟩
    · exact Option.isSome_iff_exists.2 (h.exists_of_ne b hb hne)
    · exact ⟨h.strict b d hb hd, fun c hc => h.closest b d c hb hd hc⟩
  · rintro ⟨hroot, hall⟩
    exact
      { root_none := hroot
        exists_of_ne := fun b hb hne => Option.isSome_iff_exists.1 ((hall b hb).1 hne)
        strict := fun b d hb hd => ((hall b hb).2 d hd).1
        closest := fun b d c hb hd hc => ((hall b hb).2 d hd).2 c hc }

instance (root : α) (idom : α → Option α) :
    Decidable (ImmediateDominator (Edge next) root idom) :=
  decidable_of_iff' _ (immediateDominator_iff next root idom)

end Cape.Library
