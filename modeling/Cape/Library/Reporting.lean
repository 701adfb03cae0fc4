import Mathlib.Data.Set.Card
import Mathlib.Order.Defs.LinearOrder

/-!
# Steps that report a change

A step takes a state to the next one and reports whether it changed something. Steps are put one
after the other and repeated over a list or a map; the report of the whole is the disjunction of the
reports.

A relation between the state before, the state after and the report that composition keeps
(`Composes`) holds of a program of steps as soon as it holds of its steps (`Meets.andThen`,
`Meets.each`, `Meets.scan`). `Tracks` says in terms of the state before when a step reports nothing.
-/

set_option autoImplicit false

namespace Cape.Library

universe u v w

/-- A step and its report. -/
abbrev Step (σ : Type u) := σ → σ × Bool

namespace Step

variable {σ : Type u} {α : Type v}

/-- Change nothing, report nothing. -/
def skip : Step σ := fun s => (s, false)

/-- One step after the other. -/
def andThen (f g : Step σ) : Step σ := fun s =>
  ((g (f s).1).1, (f s).2 || (g (f s).1).2)

/-- One step for every element of a list, in order. -/
def each (f : α → Step σ) : List α → Step σ
  | [] => skip
  | a :: l => andThen (f a) (each f l)

/-- The key comes after the current one, if there is one. -/
def After [LT α] (cur : Option α) (a : α) : Prop := ∀ b ∈ cur, b < a

/-- The first key after the current one. -/
def nextKey [LinearOrder α] (keys : List α) (cur : Option α) : Option α :=
  (keys.filter fun a => cur.all (· < a)).min?

/-- A loop over a map that it may itself extend: from one key to the next one in the map as it is
then, for at most `fuel` keys. -/
def scan [LinearOrder α] (keys : σ → List α) (f : α → Step σ) : Nat → Option α → Step σ
  | 0, _ => skip
  | fuel + 1, cur => fun s =>
      match nextKey (keys s) cur with
      | none => (s, false)
      | some a => andThen (f a) (scan keys f fuel (some a)) s

/-- A relation that holds of the empty step and is kept by composition. -/
structure Composes (R : σ → σ → Bool → Prop) : Prop where
  skip : ∀ s, R s s false
  andThen : ∀ {s t u b c}, R s t b → R t u c → R s u (b || c)

/-- The relation holds between what the step takes, gives and reports. -/
def Meets (R : σ → σ → Bool → Prop) (f : Step σ) (s : σ) : Prop := R s (f s).1 (f s).2

variable {R : σ → σ → Bool → Prop}

/-- Only what the step does from the state matters. -/
theorem Meets.of_eq {f g : Step σ} {s : σ} (hg : Meets R g s) (h : f s = g s) : Meets R f s := by
  unfold Meets
  rw [h]
  exact hg

/-- A case distinction on the state. -/
theorem Meets.ite {f g h : Step σ} {s : σ} {c : Prop} [Decidable c]
    (heq : f s = if c then g s else h s) (hg : c → Meets R g s) (hh : ¬ c → Meets R h s) :
    Meets R f s := by
  by_cases hc : c
  · exact (hg hc).of_eq (heq.trans (if_pos hc))
  · exact (hh hc).of_eq (heq.trans (if_neg hc))

theorem Meets.andThen (hR : Composes R) {f g : Step σ} {s : σ} (hf : Meets R f s)
    (hg : Meets R g (f s).1) : Meets R (f.andThen g) s :=
  hR.andThen hf hg

theorem meets_skip (hR : Composes R) (s : σ) : Meets R skip s := hR.skip s

theorem Meets.each (hR : Composes R) {f : α → Step σ} :
    ∀ {l : List α}, (∀ a ∈ l, ∀ s, Meets R (f a) s) → ∀ s, Meets R (each f l) s := by
  intro l
  induction l with
  | nil => exact fun _ s => hR.skip s
  | cons a l ih =>
      intro hf s
      apply Meets.andThen hR (hf a List.mem_cons_self s)
      exact ih (fun b hb => hf b (List.mem_cons_of_mem a hb)) _

/-- What every turn keeps, the loop keeps. -/
theorem each_keeps {P : σ → Prop} {f : α → Step σ} {l : List α}
    (hf : ∀ a ∈ l, ∀ s, P s → P (f a s).1) : ∀ {s : σ}, P s → P (each f l s).1 := by
  have hR : Composes fun (s t : σ) (_ : Bool) => P s → P t :=
    ⟨fun _ => id, fun hst htu hs => htu (hst hs)⟩
  exact fun {s} => Meets.each hR hf s

theorem scan_of_none [LinearOrder α] {keys : σ → List α} {f : α → Step σ} {fuel : Nat}
    {cur : Option α} {s : σ} (h : nextKey (keys s) cur = none) :
    scan keys f (fuel + 1) cur s = skip s := by
  simp only [scan, h]
  rfl

theorem scan_of_some [LinearOrder α] {keys : σ → List α} {f : α → Step σ} {fuel : Nat}
    {cur : Option α} {s : σ} {a : α} (h : nextKey (keys s) cur = some a) :
    scan keys f (fuel + 1) cur s = (f a).andThen (scan keys f fuel (some a)) s := by
  simp only [scan, h]

theorem Meets.scan [LinearOrder α] (hR : Composes R) {keys : σ → List α} {f : α → Step σ}
    (hf : ∀ a s, Meets R (f a) s) :
    ∀ (fuel : Nat) (cur : Option α) (s : σ), Meets R (scan keys f fuel cur) s := by
  intro fuel
  induction fuel with
  | zero => exact fun _ s => hR.skip s
  | succ fuel ih =>
      intro cur s
      cases hnext : nextKey (keys s) cur with
      | none => exact (meets_skip hR s).of_eq (scan_of_none hnext)
      | some a => exact (Meets.andThen hR (hf a s) (ih (some a) _)).of_eq (scan_of_some hnext)

/-! ## Keys in order -/

section Keys

variable [LinearOrder α]

theorem after_iff {cur : Option α} {a : α} : cur.all (· < a) = true ↔ After cur a := by
  cases cur with
  | none => simp [After]
  | some b => simp [After]

theorem nextKey_eq_none {keys : List α} {cur : Option α} :
    nextKey keys cur = none ↔ ∀ a ∈ keys, ¬ After cur a := by
  unfold nextKey
  rw [List.min?_eq_none_iff, List.filter_eq_nil_iff]
  simp only [after_iff]

theorem nextKey_eq_some {keys : List α} {cur : Option α} {a : α} :
    nextKey keys cur = some a ↔ (a ∈ keys ∧ After cur a) ∧ ∀ b ∈ keys, After cur b → a ≤ b := by
  unfold nextKey
  rw [List.min?_eq_some_iff]
  simp only [List.mem_filter, after_iff, and_imp]

/-- How many keys may come after the current one. -/
noncomputable def room (cur : Option α) : Nat := Set.ncard {a | After cur a}

theorem After.trans {cur : Option α} {a b : α} (ha : After cur a) (hb : After (some a) b) :
    After cur b := fun c hc => lt_trans (ha c hc) (hb a rfl)

theorem room_lt [Finite α] {cur : Option α} {a : α} (ha : After cur a) :
    room (some a) < room cur := by
  apply Set.ncard_lt_ncard _ (Set.toFinite _)
  refine ⟨fun b hb => After.trans ha hb, fun hsub => ?_⟩
  exact lt_irrefl a (hsub ha a rfl)

theorem room_le_card [Finite α] (cur : Option α) : room cur ≤ Nat.card α := by
  rw [← Set.ncard_univ α]
  exact Set.ncard_le_ncard (Set.subset_univ _) (Set.toFinite _)

end Keys

/-! ## What a loop visits -/

section Visits

variable {le : σ → σ → Prop} (hrefl : ∀ s, le s s) (htrans : ∀ {s t u}, le s t → le t u → le s u)
variable {f : α → Step σ} (hle : ∀ a s, le s (f a s).1)
variable {P : σ → Prop} (hP : ∀ {s t}, le s t → P s → P t)
include hrefl htrans hle

theorem le_each (l : List α) (s : σ) : le s (each f l s).1 := by
  induction l generalizing s with
  | nil => exact hrefl s
  | cons a l ih => exact htrans (hle a s) (ih _)

include hP

/-- What the body establishes for one element of the list, and steps keep, holds after the loop. -/
theorem each_visits {l : List α} {a : α} (ha : a ∈ l) :
    ∀ {s : σ}, (∀ t, le s t → P (f a t).1) → P (each f l s).1 := by
  induction l with
  | nil => cases ha
  | cons b l ih =>
      intro s hf
      obtain rfl | ha := List.mem_cons.1 ha
      · exact hP (le_each hrefl htrans hle l _) (hf s (hrefl s))
      · exact ih ha fun t ht => hf t (htrans (hle b s) ht)

/-- A loop over a map comes to every key that is there at its start. -/
theorem scan_visits [LinearOrder α] [Finite α] {keys : σ → List α}
    (hkeys : ∀ {s t}, le s t → ∀ a ∈ keys s, a ∈ keys t) {a : α} :
    ∀ {fuel : Nat} {cur : Option α}, room cur ≤ fuel → After cur a → ∀ {s : σ}, a ∈ keys s →
      (∀ t, le s t → P (f a t).1) → P (scan keys f fuel cur s).1 := by
  have hscan : ∀ fuel cur s, le s (scan keys f fuel cur s).1 := by
    intro fuel
    induction fuel with
    | zero => exact fun _ s => hrefl s
    | succ fuel ih =>
        intro cur s
        cases hnext : nextKey (keys s) cur with
        | none => exact scan_of_none (f := f) hnext ▸ hrefl s
        | some b =>
            rw [scan_of_some hnext]
            exact htrans (hle b s) (ih _ _)
  intro fuel
  induction fuel with
  | zero =>
      intro cur hroom hafter s
      have hnone : {a | After cur a} = ∅ :=
        (Set.ncard_eq_zero (Set.toFinite _)).1 (Nat.le_zero.1 hroom)
      exact absurd hafter (Set.eq_empty_iff_forall_notMem.1 hnone a)
  | succ fuel ih =>
      intro cur hroom hafter s hmem hf
      cases hnext : nextKey (keys s) cur with
      | none => exact absurd hafter (nextKey_eq_none.1 hnext a hmem)
      | some b =>
          obtain ⟨⟨-, hb⟩, hleast⟩ := nextKey_eq_some.1 hnext
          have hfuel : room (some b) ≤ fuel := by
            have := room_lt hb
            omega
          rw [scan_of_some hnext]
          -- it is the turn of `a`, or `a` is still ahead
          obtain rfl | hlt := eq_or_lt_of_le (hleast a hmem hafter)
          · exact hP (hscan _ _ _) (hf s (hrefl s))
          · apply ih hfuel _ (hkeys (hle b s) a hmem) fun t ht => hf t (htrans (hle b s) ht)
            intro c hc
            obtain rfl := Option.mem_some_iff.1 hc
            exact hlt

end Visits

/-! ## Loops over independent parts -/

section Parts

variable [DecidableEq α] {V : Type w} {view : α → σ → V} {g : α → V → V} {f : α → Step σ}

end Parts

/-! ## Steps that do nothing when they report nothing -/

/-- Without a report the state is as before. -/
def Quiet (f : Step σ) : Prop := ∀ s, (f s).2 = false → (f s).1 = s

theorem quiet_skip : Quiet (skip : Step σ) := fun _ _ => rfl

theorem each_of_quiet {f : α → Step σ} {l : List α} (hf : ∀ a ∈ l, Quiet (f a)) {s : σ}
    (h : (each f l s).2 = false) : (each f l s).1 = s ∧ ∀ a ∈ l, (f a s).2 = false := by
  induction l generalizing s with
  | nil => exact ⟨rfl, fun a ha => absurd ha List.not_mem_nil⟩
  | cons a l ih =>
      obtain ⟨ha, hl⟩ := List.forall_mem_cons.1 hf
      obtain ⟨hfirst, hrest⟩ : (f a s).2 = false ∧ (each f l (f a s).1).2 = false :=
        Bool.or_eq_false_iff.1 h
      have hsame : (f a s).1 = s := ha s hfirst
      have heach : (each f (a :: l) s).1 = (each f l (f a s).1).1 := rfl
      rw [hsame] at hrest heach
      obtain ⟨hend, hall⟩ := ih hl hrest
      exact ⟨heach.trans hend, List.forall_mem_cons.2 ⟨hfirst, hall⟩⟩

theorem quiet_each {f : α → Step σ} {l : List α} (hf : ∀ a ∈ l, Quiet (f a)) : Quiet (each f l) :=
  fun _ h => (each_of_quiet hf h).1

/-- When no part of a loop has anything to do, the loop does nothing. -/
theorem each_of_still {f : α → Step σ} {l : List α} (hf : ∀ a ∈ l, Quiet (f a)) {s : σ}
    (h : ∀ a ∈ l, (f a s).2 = false) : each f l s = (s, false) := by
  induction l with
  | nil => rfl
  | cons a l ih =>
      obtain ⟨ha, hl⟩ := List.forall_mem_cons.1 hf
      obtain ⟨hfirst, hrest⟩ := List.forall_mem_cons.1 h
      show ((each f l (f a s).1).1, (f a s).2 || (each f l (f a s).1).2) = _
      rw [ha s hfirst, hfirst, ih hl hrest]
      rfl

/-! ## When a step reports nothing -/

/-- From every state in `L`, the step reports nothing exactly when `C` holds, and then the next state
is in `L'`. -/
def Tracks (L L' : σ → Prop) (f : Step σ) (C : Prop) : Prop :=
  ∀ s, L s → ((f s).2 = false ↔ C) ∧ ((f s).2 = false → L' (f s).1)

variable {L L' L'' : σ → Prop}

theorem tracks_skip : Tracks L L skip True := fun _ hs =>
  ⟨⟨fun _ => trivial, fun _ => rfl⟩, fun _ => hs⟩

theorem Tracks.congr {f : Step σ} {C D : Prop} (h : Tracks L L' f C) (hiff : C ↔ D) :
    Tracks L L' f D :=
  fun s hs => ⟨(h s hs).1.trans hiff, (h s hs).2⟩

theorem Tracks.andThen {f g : Step σ} {C D : Prop} (hf : Tracks L L' f C) (hg : Tracks L' L'' g D) :
    Tracks L L'' (f.andThen g) (C ∧ D) := by
  intro s hs
  have hreport : (f.andThen g s).2 = false ↔ (f s).2 = false ∧ (g (f s).1).2 = false :=
    Bool.or_eq_false_iff
  refine ⟨?_, fun h => ?_⟩
  · rw [hreport]
    constructor
    · rintro ⟨h, h'⟩
      exact ⟨(hf s hs).1.1 h, (hg _ ((hf s hs).2 h)).1.1 h'⟩
    · rintro ⟨hc, hd⟩
      have h := (hf s hs).1.2 hc
      exact ⟨h, (hg _ ((hf s hs).2 h)).1.2 hd⟩
  · obtain ⟨h, h'⟩ := hreport.1 h
    exact (hg _ ((hf s hs).2 h)).2 h'

theorem Tracks.each {f : α → Step σ} {C : α → Prop} :
    ∀ {l : List α}, (∀ a ∈ l, Tracks L L (f a) (C a)) → Tracks L L (Step.each f l) (∀ a ∈ l, C a) := by
  intro l
  induction l with
  | nil => exact fun _ => tracks_skip.congr (by simp)
  | cons a l ih =>
      intro hf
      have hrest := ih fun b hb => hf b (List.mem_cons_of_mem a hb)
      exact ((hf a List.mem_cons_self).andThen hrest).congr List.forall_mem_cons.symm

/-- A loop over a map that reports nothing goes over the keys of the map at its start. -/
theorem Tracks.scan [LinearOrder α] [Finite α] {keys : σ → List α} {K : List α}
    (hkeys : ∀ s, L s → ∀ a, a ∈ keys s ↔ a ∈ K) {f : α → Step σ} {C : α → Prop}
    (hf : ∀ a ∈ K, Tracks L L (f a) (C a)) :
    ∀ {fuel : Nat} {cur : Option α}, room cur ≤ fuel →
      Tracks L L (Step.scan keys f fuel cur) (∀ a ∈ K, After cur a → C a) := by
  intro fuel
  induction fuel with
  | zero =>
      intro cur hroom
      apply tracks_skip.congr
      have hnone : {a | After cur a} = ∅ :=
        (Set.ncard_eq_zero (Set.toFinite _)).1 (Nat.le_zero.1 hroom)
      refine ⟨fun _ a _ ha => ?_, fun _ => trivial⟩
      exact absurd ha (Set.eq_empty_iff_forall_notMem.1 hnone a)
  | succ fuel ih =>
      intro cur hroom s hs
      cases hnext : nextKey (keys s) cur with
      | none =>
          rw [scan_of_none hnext]
          have hdone : ∀ a ∈ K, ¬ After cur a := fun a ha =>
            nextKey_eq_none.1 hnext a ((hkeys s hs a).2 ha)
          exact ⟨⟨fun _ a ha hafter => absurd hafter (hdone a ha), fun _ => rfl⟩, fun _ => hs⟩
      | some a =>
          rw [scan_of_some hnext]
          obtain ⟨⟨hmem, hafter⟩, hleast⟩ := nextKey_eq_some.1 hnext
          have hmem : a ∈ K := (hkeys s hs a).1 hmem
          have hfuel : room (some a) ≤ fuel := by
            have := room_lt hafter
            omega
          apply ((hf a hmem).andThen (ih hfuel)).congr _ s hs
          constructor
          · -- of the keys that are ahead, `a` is the least one
            rintro ⟨ha, hrest⟩ b hb hb'
            obtain rfl | hlt := eq_or_lt_of_le (hleast b ((hkeys s hs b).2 hb) hb')
            · exact ha
            · refine hrest b hb fun c hc => ?_
              obtain rfl := Option.mem_some_iff.1 hc
              exact hlt
          · intro hall
            exact ⟨hall a hmem hafter, fun b hb hb' => hall b hb (hafter.trans hb')⟩

/-- A step inside one part of the state. -/
def within {τ : Type v} (get : σ → τ) (set : σ → τ → σ) (f : Step τ) : Step σ := fun s =>
  (set s (f (get s)).1, (f (get s)).2)

end Step

end Cape.Library
