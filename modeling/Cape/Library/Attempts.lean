import Mathlib.Tactic

/-!
# Attempts

An attempt takes a state to the next one and reports whether it changed something, as a step does, or
gives up. Attempts are put one after the other, repeated over a list, and repeated until they report
nothing. `Attempt.Meets P R f`: from every state with `P` the attempt succeeds, keeps `P`, and relates
the state before, the state after and the report by `R`. A relation that composes is met by a program
of attempts as soon as its parts meet it (`Meets.andThen`, `Meets.each`, `Meets.repeatWhile`).
-/

set_option autoImplicit false

namespace Cape.Library

universe u v

/-- A step that may give up. -/
abbrev Attempt (σ : Type u) := σ → Option (σ × Bool)

namespace Attempt

variable {σ : Type u} {α : Type v}

/-- Change nothing, report nothing. -/
def skip : Attempt σ := fun s => some (s, false)

/-- One attempt after the other. -/
def andThen (f g : Attempt σ) : Attempt σ := fun s =>
  (f s).bind fun r => (g r.1).map fun r' => (r'.1, r.2 || r'.2)

/-- One attempt for every element of a list, in order. -/
def each (f : α → Attempt σ) : List α → Attempt σ
  | [] => skip
  | a :: l => andThen (f a) (each f l)

/-- `do … while (changed)`; gives up when the fuel is spent. -/
def repeatWhile (f : Attempt σ) : Nat → Attempt σ
  | 0 => fun _ => none
  | fuel + 1 => fun s =>
      (f s).bind fun r =>
        if r.2 then (repeatWhile f fuel r.1).map fun r' => (r'.1, true) else some (r.1, false)

/-- A relation that holds of the empty step and is kept by composition. -/
structure Composes (R : σ → σ → Bool → Prop) : Prop where
  refl : ∀ s, R s s false
  trans : ∀ {s t u b c}, R s t b → R t u c → R s u (b || c)

/-- From states with `P` the attempt succeeds, keeps `P` and meets `R`. -/
def Meets (P : σ → Prop) (R : σ → σ → Bool → Prop) (f : Attempt σ) : Prop :=
  ∀ s, P s → ∃ t b, f s = some (t, b) ∧ P t ∧ R s t b

variable {P : σ → Prop} {R : σ → σ → Bool → Prop}

theorem meets_skip (hR : Composes R) : Meets P R skip := fun s hs => ⟨s, false, rfl, hs, hR.refl s⟩

theorem Meets.andThen (hR : Composes R) {f g : Attempt σ} (hf : Meets P R f) (hg : Meets P R g) :
    Meets P R (f.andThen g) := by
  intro s hs
  obtain ⟨t, b, hst, ht, hRst⟩ := hf s hs
  obtain ⟨u, c, htu, hu, hRtu⟩ := hg t ht
  exact ⟨u, b || c, by simp [Attempt.andThen, hst, htu], hu, hR.trans hRst hRtu⟩

theorem Meets.each (hR : Composes R) {f : α → Attempt σ} {l : List α}
    (hf : ∀ a ∈ l, Meets P R (f a)) : Meets P R (each f l) := by
  induction l with
  | nil => exact meets_skip hR
  | cons a l ih =>
      exact (hf a List.mem_cons_self).andThen hR (ih fun b hb => hf b (List.mem_cons_of_mem a hb))

/-- The list may be read off the state. -/
theorem Meets.on {β : Type v} {g : σ → β} {f : β → Attempt σ}
    (hf : ∀ s, P s → Meets P R (f (g s))) : Meets P R fun s => f (g s) s :=
  fun s hs => hf s hs s hs

/-- **Repetition** ends, when a reported change lowers a rank, with a turn that reports nothing. -/
theorem Meets.repeatWhile (hR : Composes R) {f : Attempt σ} (hf : Meets P R f) {rank : σ → Nat}
    (hrank : ∀ s t, P s → P t → R s t true → rank t < rank s) :
    ∀ {fuel : Nat} (s : σ), P s → rank s < fuel → ∃ t b, repeatWhile f fuel s = some (t, b) ∧
      P t ∧ R s t b ∧ ∃ u, P u ∧ f u = some (t, false) ∧ R u t false := by
  intro fuel
  induction fuel with
  | zero => exact fun s _ h => absurd h (Nat.not_lt_zero _)
  | succ fuel ih =>
      intro s hs hfuel
      obtain ⟨t, b, hst, ht, hRst⟩ := hf s hs
      cases b with
      | false => exact ⟨t, false, by simp [Attempt.repeatWhile, hst], ht, hRst, s, hs, hst, hRst⟩
      | true =>
          have hlt := hrank s t hs ht hRst
          obtain ⟨u, c, htu, hu, hRtu, hlast⟩ := ih t ht (by omega)
          exact ⟨u, true, by simp [Attempt.repeatWhile, hst, htu], hu, hR.trans hRst hRtu, hlast⟩

theorem each_append (f : α → Attempt σ) (l₁ l₂ : List α) :
    each f (l₁ ++ l₂) = (each f l₁).andThen (each f l₂) := by
  funext s
  induction l₁ generalizing s with
  | nil =>
      show each f l₂ s = _
      cases h : each f l₂ s <;> simp [each, andThen, skip, h]
  | cons a l₁ ih =>
      simp only [List.cons_append, each, andThen, ih]
      cases h₁ : f a s with
      | none => rfl
      | some r =>
          cases h₂ : each f l₁ r.1 with
          | none => simp [h₂]
          | some r' =>
              simp only [Option.bind_some, h₂, Option.map_map, Option.map_some, Bool.or_assoc]
              rfl

/-! ## Reports of nothing -/

/-- Nothing is reported by a list of attempts: each of them reports nothing. -/
theorem each_eq_false {f : α → Attempt σ} {s : σ} {l : List α}
    (hf : ∀ a ∈ l, ∀ t, f a s = some (t, false) → t = s) {t : σ}
    (h : each f l s = some (t, false)) : t = s ∧ ∀ a ∈ l, f a s = some (s, false) := by
  induction l generalizing t with
  | nil =>
      obtain rfl := (Prod.mk.inj (Option.some.inj h)).1
      exact ⟨rfl, nofun⟩
  | cons a l ih =>
      simp only [each, andThen, Option.bind_eq_some_iff, Option.map_eq_some_iff, Prod.mk.injEq,
        Bool.or_eq_false_iff] at h
      obtain ⟨⟨t₁, b₁⟩, h₁, ⟨t₂, b₂⟩, h₂, rfl, hb₁, hb₂⟩ := h
      dsimp only at h₁ h₂ hb₁ hb₂
      subst hb₁ hb₂
      obtain rfl := hf a List.mem_cons_self t₁ h₁
      obtain ⟨rfl, hall⟩ := ih (fun b hb => hf b (List.mem_cons_of_mem a hb)) h₂
      refine ⟨rfl, fun b hb => ?_⟩
      rcases List.mem_cons.1 hb with rfl | hb
      · exact h₁
      · exact hall b hb

theorem andThen_eq_false {f g : Attempt σ} {s t : σ}
    (hf : ∀ t, f s = some (t, false) → t = s) (h : f.andThen g s = some (t, false)) :
    f s = some (s, false) ∧ g s = some (t, false) := by
  simp only [andThen, Option.bind_eq_some_iff, Option.map_eq_some_iff, Prod.mk.injEq,
    Bool.or_eq_false_iff] at h
  obtain ⟨⟨t₁, b₁⟩, h₁, ⟨t₂, b₂⟩, h₂, rfl, hb₁, hb₂⟩ := h
  dsimp only at h₁ h₂ hb₁ hb₂
  subst hb₁ hb₂
  obtain rfl := hf t₁ h₁
  exact ⟨h₁, h₂⟩

/-- What meets a relation that keeps the state when nothing is reported. -/
theorem Meets.eq_of_false {f : Attempt σ} (hf : Meets P R f)
    (hsame : ∀ s t, R s t false → t = s) {s t : σ} (hs : P s) (h : f s = some (t, false)) :
    t = s := by
  obtain ⟨t', b, h', -, hR⟩ := hf s hs
  obtain ⟨rfl, rfl⟩ := Prod.mk.inj (Option.some.inj (h.symm.trans h'))
  exact hsame s t hR

/-! ## Conditions along a list -/

/-- Every attempt of the list meets the condition in the state before it. -/
def Along (C : α → σ → Prop) (f : α → Attempt σ) : List α → σ → Prop
  | [], _ => True
  | a :: l, s => C a s ∧ ∀ r, f a s = some r → Along C f l r.1

/-- What an attempt keeps exactly under a condition, a list of them keeps exactly under that
condition along it. -/
theorem each_iff {H : σ → Prop} {C : α → σ → Prop} {f : α → Attempt σ} {l : List α}
    (hf : ∀ a ∈ l, ∀ s r, f a s = some r → (H r.1 ↔ H s ∧ C a s)) {s : σ} {r : σ × Bool}
    (h : each f l s = some r) : H r.1 ↔ H s ∧ Along C f l s := by
  induction l generalizing s r with
  | nil =>
      obtain rfl := Option.some.inj h
      exact (and_iff_left trivial).symm
  | cons a l ih =>
      simp only [each, andThen, Option.bind_eq_some_iff, Option.map_eq_some_iff] at h
      obtain ⟨r₁, h₁, r₂, h₂, rfl⟩ := h
      rw [ih (fun b hb => hf b (List.mem_cons_of_mem a hb)) h₂, hf a List.mem_cons_self s r₁ h₁,
        and_assoc]
      have hnext : (∀ r, f a s = some r → Along C f l r.1) ↔ Along C f l r₁.1 :=
        ⟨fun hall => hall r₁ h₁, fun hl r hr => Option.some.inj (h₁.symm.trans hr) ▸ hl⟩
      rw [Along, hnext]

theorem each_iff_forall {H : σ → Prop} {C : α → Prop} {f : α → Attempt σ} {l : List α}
    (hf : ∀ a ∈ l, ∀ s r, f a s = some r → (H r.1 ↔ H s ∧ C a)) {s : σ} {r : σ × Bool}
    (h : each f l s = some r) : H r.1 ↔ H s ∧ ∀ a ∈ l, C a := by
  induction l generalizing s r with
  | nil =>
      obtain rfl := Option.some.inj h
      exact (and_iff_left nofun).symm
  | cons a l ih =>
      simp only [each, andThen, Option.bind_eq_some_iff, Option.map_eq_some_iff] at h
      obtain ⟨r₁, h₁, r₂, h₂, rfl⟩ := h
      rw [ih (fun b hb => hf b (List.mem_cons_of_mem a hb)) h₂, hf a List.mem_cons_self s r₁ h₁,
        and_assoc, List.forall_mem_cons]

theorem each_congr {f g : α → Attempt σ} {l : List α} (h : ∀ a ∈ l, f a = g a) :
    each f l = each g l := by
  induction l with
  | nil => rfl
  | cons a l ih =>
      rw [each, each, h a List.mem_cons_self, ih fun b hb => h b (List.mem_cons_of_mem a hb)]

/-- A list of attempts for every element of a list. -/
theorem each_flatMap {β : Type v} (f : α → Attempt σ) (g : β → List α) (l : List β) :
    each f (l.flatMap g) = each (fun b => each f (g b)) l := by
  induction l with
  | nil => rfl
  | cons b l ih => rw [List.flatMap_cons, each_append, ih, each]

end Attempt

end Cape.Library
