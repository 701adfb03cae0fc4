import Cape.ADT.DisjunctiveIntervalMap

/-!
# Containers of values

`add` and `update` of a container call the operation for one value after the other. Of a container
that is put in with `update`, only the last value stays (`has_updateValues`).
-/

set_option autoImplicit false

namespace Cape.DisjunctiveIntervalMap

universe u

variable {V : Type u} [DecidableEq V]

/-- `add` of a container of values. -/
def addValues (I : DiscreteInterval) (vals : List V) (m : DisjunctiveIntervalMap V) :
    DisjunctiveIntervalMap V := vals.foldl (fun m v => add I v m) m

theorem Ordered.addValues {I : DiscreteInterval} (hI : I.start ≤ I.stop) (vals : List V) :
    ∀ {m : DisjunctiveIntervalMap V}, Ordered m → Ordered (addValues I vals m) := by
  induction vals with
  | nil => exact fun hm => hm
  | cons v vals ih => exact fun hm => ih (hm.add hI v)

theorem has_addValues {I : DiscreteInterval} (hI : I.start ≤ I.stop) (vals : List V) :
    ∀ {m : DisjunctiveIntervalMap V}, Ordered m → ∀ {b : Offset}, b ≠ .unknown → ∀ w,
      Has (addValues I vals m) b w ↔ Has m b w ∨ (b ∈ I ∧ w ∈ vals) := by
  induction vals with
  | nil =>
      intro m _ b _ w
      simp [addValues]
  | cons v vals ih =>
      intro m hm b hb w
      show Has (addValues I vals (add I v m)) b w ↔ _
      rw [ih (hm.add hI v) hb, has_add hI v hm hb, List.mem_cons]
      constructor
      · rintro ((h | ⟨hmem, rfl⟩) | ⟨hmem, hw⟩)
        · exact Or.inl h
        · exact Or.inr ⟨hmem, Or.inl rfl⟩
        · exact Or.inr ⟨hmem, Or.inr hw⟩
      · rintro (h | ⟨hmem, rfl | hw⟩)
        · exact Or.inl (Or.inl h)
        · exact Or.inl (Or.inr ⟨hmem, rfl⟩)
        · exact Or.inr ⟨hmem, hw⟩

/-- `DefinitionsMap::add` of a map from intervals. -/
def addMap (elems m : DisjunctiveIntervalMap V) : DisjunctiveIntervalMap V :=
  elems.foldl (fun m e => addValues e.1 e.2 m) m

theorem Ordered.addMap {elems : DisjunctiveIntervalMap V} (h : ∀ e ∈ elems, e.1.start ≤ e.1.stop) :
    ∀ {m : DisjunctiveIntervalMap V}, Ordered m → Ordered (addMap elems m) := by
  induction elems with
  | nil => exact fun hm => hm
  | cons e elems ih =>
      intro m hm
      exact ih (fun e' he' => h e' (List.mem_cons_of_mem e he'))
        (hm.addValues (h e List.mem_cons_self) e.2)

theorem has_addMap {elems : DisjunctiveIntervalMap V} (h : ∀ e ∈ elems, e.1.start ≤ e.1.stop) :
    ∀ {m : DisjunctiveIntervalMap V}, Ordered m → ∀ {b : Offset}, b ≠ .unknown → ∀ w,
      Has (addMap elems m) b w ↔ Has m b w ∨ Has elems b w := by
  induction elems with
  | nil =>
      intro m _ b _ w
      simp [addMap]
  | cons e elems ih =>
      intro m hm b hb w
      have hfirst := h e List.mem_cons_self
      show Has (addMap elems (addValues e.1 e.2 m)) b w ↔ _
      rw [ih (fun e' he' => h e' (List.mem_cons_of_mem e he')) (hm.addValues hfirst e.2) hb,
        has_addValues hfirst e.2 hm hb, has_cons, or_assoc]

/-! ## Updates -/

/-- `update` of a container of values. -/
def updateValues (I : DiscreteInterval) (vals : List V) (m : DisjunctiveIntervalMap V) :
    DisjunctiveIntervalMap V := vals.foldl (fun m v => update I v m) m

theorem Ordered.updateValues {I : DiscreteInterval} (hI : I.start ≤ I.stop) (vals : List V) :
    ∀ {m : DisjunctiveIntervalMap V}, Ordered m → Ordered (updateValues I vals m) := by
  induction vals with
  | nil => exact fun hm => hm
  | cons v vals ih => exact fun hm => ih (hm.update hI v)

/-- What is outside of the interval stays. -/
theorem has_updateValues_of_notMem {I : DiscreteInterval} (hI : I.start ≤ I.stop) (vals : List V) :
    ∀ {m : DisjunctiveIntervalMap V}, Ordered m → ∀ {b : Offset}, b ≠ .unknown → b ∉ I → ∀ w,
      Has (updateValues I vals m) b w ↔ Has m b w := by
  induction vals with
  | nil => exact fun _ _ _ _ _ => Iff.rfl
  | cons v vals ih =>
      intro m hm b hb hmem w
      show Has (updateValues I vals (update I v m)) b w ↔ _
      rw [ih (hm.update hI v) hb hmem, has_update hI v hm hb]
      simp [hmem]

/-- Every value takes the place of the ones before. -/
theorem has_updateValues {I : DiscreteInterval} (hI : I.start ≤ I.stop) (vals : List V) (v : V)
    {m : DisjunctiveIntervalMap V} (hm : Ordered m) {b : Offset} (hb : b ≠ .unknown) (w : V) :
    Has (updateValues I (vals ++ [v]) m) b w ↔ if b ∈ I then w = v else Has m b w := by
  by_cases hmem : b ∈ I
  · rw [updateValues, List.foldl_append, if_pos hmem]
    show Has (update I v (updateValues I vals m)) b w ↔ _
    rw [has_update hI v (hm.updateValues hI vals) hb]
    simp [hmem]
  · rw [has_updateValues_of_notMem hI _ hm hb hmem, if_neg hmem]

/-- Every byte of the interval has exactly the values, and the other bytes are left alone. -/
def UpdateRight (I : DiscreteInterval) (vals : List V) (m : DisjunctiveIntervalMap V) : Prop :=
  ∀ b, b ≠ .unknown → ∀ w, Has (updateValues I vals m) b w ↔ if b ∈ I then w ∈ vals else Has m b w

/-- An update is right for one value, and for an interval without bytes. -/
theorem updateRight_iff_forall_eq {I : DiscreteInterval} (hI : I.start ≤ I.stop) {vals : List V}
    (hvals : vals ≠ []) {m : DisjunctiveIntervalMap V} (hm : Ordered m) :
    UpdateRight I vals m ↔ I.start = .unknown ∨ ∀ v ∈ vals, ∀ w ∈ vals, v = w := by
  rcases List.eq_nil_or_concat vals with rfl | ⟨init, last, rfl⟩
  · exact absurd rfl hvals
  rw [List.concat_eq_append]
  have hlast : last ∈ init ++ [last] := List.mem_append_right init (List.mem_singleton_self last)
  constructor
  · intro h
    by_cases hstart : I.start = .unknown
    · exact Or.inl hstart
    · right
      have hmem : I.start ∈ I := ⟨le_refl _, hI⟩
      -- the first byte of the interval has the last value only
      have honly : ∀ v ∈ init ++ [last], v = last := by
        intro v hv
        have hhas := h I.start hstart v
        rw [has_updateValues hI init last hm hstart, if_pos hmem, if_pos hmem] at hhas
        exact hhas.2 hv
      intro v hv w hw
      rw [honly v hv, honly w hw]
  · intro h b hb w
    rw [has_updateValues hI init last hm hb]
    by_cases hmem : b ∈ I
    · rw [if_pos hmem, if_pos hmem]
      rcases h with hstart | heq
      · -- behind the unknown offset there is no byte
        refine absurd (le_antisymm (not_lt.1 (Offset.not_unknown_lt b)) ?_) hb
        rw [← hstart]
        exact hmem.1
      · constructor
        · rintro rfl
          exact hlast
        · intro hw
          exact heq w hw last hlast
    · rw [if_neg hmem, if_neg hmem]

end Cape.DisjunctiveIntervalMap
