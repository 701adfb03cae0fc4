import Cape.Library.Reporting
import Mathlib.Tactic

/-!
# Rounds over a work list

A pass takes every element of a list in turn and notes those whose step reports a change. Rounds
repeat the pass over a list that is made from the noted elements, until that list is empty.

Rounds end when every reported change raises a rank that has a bound (`isSome_rounds`), or goes up
in a finite order (`exists_rounds`).

The second half is about facts that steps derive from facts. A fact has an element that emits it,
from premises emitted by elements before it (`Emits`). When the next list holds, with an element,
all elements behind it, every emitted fact holds at the end of a pass or is left to the next list
(`settled_pass`), provided the facts that other elements may change too are not repeated silently
(`Shown`); so they all hold when the rounds end (`settled_rounds`).

Where nothing is changed but by its owner, less is needed: each element watches what the elements
before it own (`Watches`), and the state is closed under every element when the rounds end
(`Watches.closed_rounds`).
-/

set_option autoImplicit false

namespace Cape.Library

universe u v w

variable {σ : Type u} {N : Type v} (step : N → Step σ) (next : List N → List N)

/-- One step for every element in order: the state, and the elements that reported a change. -/
def pass : List N → σ → σ × List N
  | [], s => (s, [])
  | n :: rest, s =>
      let r := step n s
      let t := pass rest r.1
      (t.1, if r.2 then n :: t.2 else t.2)

/-- Passes until nothing is left to do; `none` when the fuel is spent. -/
def rounds : Nat → List N → σ → Option σ
  | 0, _, _ => none
  | fuel + 1, todo, s =>
      match next (pass step todo s).2 with
      | [] => some (pass step todo s).1
      | n :: rest => rounds fuel (n :: rest) (pass step todo s).1

/-- Every pass of the rounds, with its list and the state at its start. -/
def EachPass (Q : List N → σ → Prop) : Nat → List N → σ → Prop
  | 0, _, _ => True
  | fuel + 1, todo, s =>
      Q todo s ∧
        match next (pass step todo s).2 with
        | [] => True
        | n :: rest => EachPass Q fuel (n :: rest) (pass step todo s).1

variable {step next}

/-! ## One pass -/

theorem pass_append (l₁ l₂ : List N) (s : σ) :
    pass step (l₁ ++ l₂) s =
      ((pass step l₂ (pass step l₁ s).1).1,
        (pass step l₁ s).2 ++ (pass step l₂ (pass step l₁ s).1).2) := by
  induction l₁ generalizing s with
  | nil => rfl
  | cons n l₁ ih =>
      simp only [List.cons_append, pass, ih]
      split <;> rfl

/-- The state just before one element of the list. -/
theorem changed_split {l₁ l₂ : List N} {m : N} {s : σ}
    (h : (step m (pass step l₁ s).1).2 = true) : m ∈ (pass step (l₁ ++ m :: l₂) s).2 := by
  rw [pass_append]
  apply List.mem_append_right
  simp only [pass, h, if_true]
  exact List.mem_cons_self

/-- What every step keeps, a pass keeps. -/
theorem pass_invariant {I : σ → Prop} {l : List N} (h : ∀ n ∈ l, ∀ s, I s → I (step n s).1) :
    ∀ {s : σ}, I s → I (pass step l s).1 := by
  induction l with
  | nil => exact fun hs => hs
  | cons n l ih =>
      intro s hs
      apply ih (fun m hm => h m (List.mem_cons_of_mem n hm))
      exact h n List.mem_cons_self s hs

/-- A relation that steps keep holds across a pass. -/
theorem pass_rel {R : σ → σ → Prop} (hrefl : ∀ s, R s s) (htrans : ∀ s t u, R s t → R t u → R s u)
    {l : List N} (h : ∀ n ∈ l, ∀ s, R s (step n s).1) (s : σ) : R s (pass step l s).1 := by
  induction l generalizing s with
  | nil => exact hrefl s
  | cons n l ih =>
      apply htrans _ _ _ (h n List.mem_cons_self s)
      exact ih (fun m hm => h m (List.mem_cons_of_mem n hm)) _

/-! ## The rounds end -/

section Ending

variable {rank : σ → Nat}

theorem rank_pass (hle : ∀ n s, rank s ≤ rank (step n s).1) (l : List N) (s : σ) :
    rank s ≤ rank (pass step l s).1 :=
  pass_rel (R := fun s t => rank s ≤ rank t) (fun _ => Nat.le_refl _)
    (fun _ _ _ => Nat.le_trans) (fun n _ s => hle n s) s

theorem rank_pass_of_changed (hle : ∀ n s, rank s ≤ rank (step n s).1)
    (hlt : ∀ n s, (step n s).2 = true → rank s < rank (step n s).1) :
    ∀ (l : List N) (s : σ), (pass step l s).2 ≠ [] → rank s < rank (pass step l s).1 := by
  intro l
  induction l with
  | nil => exact fun s h => absurd rfl h
  | cons n l ih =>
      intro s h
      have hrest : rank (step n s).1 ≤ rank (pass step l (step n s).1).1 := rank_pass hle l _
      cases hr : (step n s).2 with
      | true => exact Nat.lt_of_lt_of_le (hlt n s hr) hrest
      | false =>
          simp only [pass, hr, Bool.false_eq_true, if_false] at h
          exact Nat.lt_of_le_of_lt (hle n s) (ih _ h)

/-- **The rounds end** when every report raises the rank and the rank is bounded. -/
theorem isSome_rounds (rank : σ → Nat) {bound : Nat} (hle : ∀ n s, rank s ≤ rank (step n s).1)
    (hlt : ∀ n s, (step n s).2 = true → rank s < rank (step n s).1)
    (hbound : ∀ s, rank s ≤ bound) (hnext : next [] = []) :
    ∀ (fuel : Nat) (todo : List N) (s : σ), bound < fuel + rank s →
      (rounds step next fuel todo s).isSome = true := by
  intro fuel
  induction fuel with
  | zero =>
      intro todo s h
      have := hbound s
      omega
  | succ fuel ih =>
      intro todo s h
      unfold rounds
      split
      · rfl
      · next n rest hn =>
          apply ih
          -- the next list is not empty, so the pass reported a change
          have hne : (pass step todo s).2 ≠ [] := by
            intro hnil
            rw [hnil, hnext] at hn
            cases hn
          have := rank_pass_of_changed hle hlt todo s hne
          omega

/-- **The rounds end** when every step goes up in a finite order, and strictly where it reports. -/
theorem exists_rounds {V : Type w} [Preorder V] [Finite V] (view : σ → V)
    (hle : ∀ n s, view s ≤ view (step n s).1)
    (hlt : ∀ n s, (step n s).2 = true → view s < view (step n s).1) (hnext : next [] = [])
    (todo : List N) (s : σ) : ∃ fuel, (rounds step next fuel todo s).isSome = true := by
  -- the rank of an element is the number of those below it
  have hfinite : ∀ v : V, (Set.Iio v).Finite := fun v => Set.toFinite _
  refine ⟨Nat.card V + 1, isSome_rounds (fun s => (Set.Iio (view s)).ncard) ?_ ?_
    (?_ : ∀ s, (Set.Iio (view s)).ncard ≤ Nat.card V) hnext _ _ _ ?_⟩
  · intro n s
    exact Set.ncard_le_ncard (Set.Iio_subset_Iio (hle n s)) (hfinite _)
  · intro n s hreport
    have hup := hlt n s hreport
    apply Set.ncard_lt_ncard _ (hfinite _)
    exact ⟨Set.Iio_subset_Iio hup.le, fun hsub => lt_irrefl _ (hsub (Set.mem_Iio.2 hup))⟩
  · intro s
    rw [← Set.ncard_univ V]
    exact Set.ncard_le_ncard (Set.subset_univ _) (Set.toFinite _)
  · omega

end Ending

/-- What every step keeps holds when the rounds end. -/
theorem rounds_invariant {I : σ → Prop} (h : ∀ n s, I s → I (step n s).1) :
    ∀ {fuel : Nat} {todo : List N} {s t : σ}, I s → rounds step next fuel todo s = some t → I t := by
  intro fuel
  induction fuel with
  | zero => exact fun _ hrun => by cases hrun
  | succ fuel ih =>
      intro todo s t hs hrun
      have hpass : I (pass step todo s).1 := pass_invariant (fun n _ s => h n s) hs
      unfold rounds at hrun
      split at hrun
      · cases hrun
        exact hpass
      · exact ih hpass hrun

/-- What holds of each pass may be replaced by what follows from it and an invariant. -/
theorem EachPass.imp {I : σ → Prop} {Q Q' : List N → σ → Prop} (hI : ∀ n s, I s → I (step n s).1)
    (h : ∀ todo s, I s → Q todo s → Q' todo s) :
    ∀ {fuel : Nat} {todo : List N} {s : σ}, EachPass step next Q fuel todo s → I s →
      EachPass step next Q' fuel todo s := by
  intro fuel
  induction fuel with
  | zero => exact fun _ _ => trivial
  | succ fuel ih =>
      intro todo s hall hs
      obtain ⟨hfirst, hrest⟩ := hall
      have hpass : I (pass step todo s).1 := pass_invariant (fun n _ s => hI n s) hs
      refine ⟨h todo s hs hfirst, ?_⟩
      split
      · trivial
      · next n rest hn =>
          rw [hn] at hrest
          exact ih hrest hpass

/-! ## Facts that steps derive -/

section Facts

variable {F : Type w}

/-- `Emits rule before n f`: the element `n` derives the fact `f` by a rule, from facts that
elements before `n` derive. -/
inductive Emits (rule : N → List (N × F) → F → Prop) (before : N → N → Prop) : N → F → Prop
  | mk {n : N} {ps : List (N × F)} {f : F} : rule n ps f → (∀ p ∈ ps, before p.1 n) →
      (∀ p ∈ ps, Emits rule before p.1 p.2) → Emits rule before n f

variable {rule : N → List (N × F) → F → Prop} {before : N → N → Prop} {holds : σ → F → Prop}
variable {inv ok : σ → Prop}

/-- Choose an emitter for each premise that is not given. -/
theorem exists_premises {given : F → Prop} {Q : N → F → Prop} :
    ∀ {qs : List F}, (∀ q ∈ qs, given q ∨ ∃ o, Q o q) → ∃ ps : List (N × F),
      (∀ q ∈ qs, given q ∨ q ∈ ps.map Prod.snd) ∧ ∀ p ∈ ps, p.2 ∈ qs ∧ Q p.1 p.2 := by
  intro qs
  induction qs with
  | nil => exact fun _ => ⟨[], fun _ h => absurd h List.not_mem_nil, fun _ h => absurd h List.not_mem_nil⟩
  | cons q qs ih =>
      intro h
      obtain ⟨ps, hall, hps⟩ := ih fun r hr => h r (List.mem_cons_of_mem q hr)
      have hps' : ∀ p ∈ ps, p.2 ∈ q :: qs ∧ Q p.1 p.2 := fun p hp =>
        ⟨List.mem_cons_of_mem q (hps p hp).1, (hps p hp).2⟩
      obtain hgiven | ⟨o, ho⟩ := h q List.mem_cons_self
      · refine ⟨ps, fun r hr => ?_, hps'⟩
        obtain rfl | hr := List.mem_cons.1 hr
        · exact Or.inl hgiven
        · exact hall r hr
      · refine ⟨(o, q) :: ps, fun r hr => ?_, fun p hp => ?_⟩
        · obtain rfl | hr := List.mem_cons.1 hr
          · exact Or.inr List.mem_cons_self
          · exact (hall r hr).imp_right fun hmem => List.mem_cons_of_mem _ hmem
        · obtain rfl | hp := List.mem_cons.1 hp
          · exact ⟨List.mem_cons_self, ho⟩
          · exact hps' p hp

/-- No step takes a fact away, and a step makes the conclusions of its rules hold, from states with
the invariant `inv` to states that are `ok`, where `ok` is a condition that steps can only break. -/
structure Derives (step : N → Step σ) (rule : N → List (N × F) → F → Prop)
    (holds : σ → F → Prop) (inv ok : σ → Prop) : Prop where
  keepsInv : ∀ n s, inv s → inv (step n s).1
  okBefore : ∀ n s, ok (step n s).1 → ok s
  keeps : ∀ n s f, holds s f → holds (step n s).1 f
  silent : ∀ n s f, (step n s).2 = false → holds (step n s).1 f → holds s f
  fires : ∀ n ps f s, inv s → ok (step n s).1 → rule n ps f → (∀ p ∈ ps, holds s p.2) →
    holds (step n s).1 f

theorem Derives.keeps_pass (h : Derives step rule holds inv ok) {f : F} (l : List N) {s : σ}
    (hs : holds s f) : holds (pass step l s).1 f :=
  pass_invariant (I := fun s => holds s f) (fun n _ s => h.keeps n s f) hs

theorem Derives.inv_pass (h : Derives step rule holds inv ok) (l : List N) {s : σ} (hs : inv s) :
    inv (pass step l s).1 :=
  pass_invariant (fun n _ s => h.keepsInv n s) hs

theorem Derives.ok_pass (h : Derives step rule holds inv ok) :
    ∀ {l : List N} {s : σ}, ok (pass step l s).1 → ok s := by
  intro l
  induction l with
  | nil => exact fun hs => hs
  | cons n l ih => exact fun hs => h.okBefore n _ (ih hs)

theorem Derives.ok_rounds (h : Derives step rule holds inv ok) :
    ∀ {fuel : Nat} {todo : List N} {s t : σ}, rounds step next fuel todo s = some t → ok t →
      ok (pass step todo s).1 := by
  intro fuel
  induction fuel with
  | zero => exact fun hrun => by cases hrun
  | succ fuel ih =>
      intro todo s t hrun ht
      unfold rounds at hrun
      split at hrun
      · cases hrun
        exact ht
      · exact h.ok_pass (ih hrun ht)

/-- At its turn an element makes the conclusion of a rule hold. -/
theorem Derives.fires_turn (h : Derives step rule holds inv ok) {l₁ l₂ : List N} {m : N} {s : σ}
    (hs : inv s) (hok : ok (pass step (l₁ ++ m :: l₂) s).1) {ps : List (N × F)} {f : F}
    (hrule : rule m ps f) (hps : ∀ p ∈ ps, holds (pass step l₁ s).1 p.2) :
    holds (step m (pass step l₁ s).1).1 f := by
  rw [pass_append] at hok
  exact h.fires m ps f _ (h.inv_pass l₁ hs) (h.ok_pass hok) hrule hps

/-- Elements that are taken once, each after those before it: every fact they emit holds. -/
theorem settled_once (h : Derives step rule holds inv ok) {l : List N} {s : σ} (hs : inv s)
    (hok : ok (pass step l s).1)
    (hbefore : ∀ l₁ m l₂ o, l = l₁ ++ m :: l₂ → before o m → o ∈ l₁) {m : N} {f : F}
    (hm : m ∈ l) (hf : Emits rule before m f) : holds (pass step l s).1 f := by
  have hkey : ∀ l₁ l₂, l = l₁ ++ m :: l₂ → holds (pass step (l₁ ++ [m]) s).1 f := by
    clear hm
    induction hf with
    | @mk m ps f hrule hbef _ ih =>
        intro l₁ l₂ hl
        rw [pass_append]
        apply h.fires_turn hs (hl ▸ hok) hrule
        intro p hp
        obtain ⟨k₁, k₂, rfl⟩ := List.append_of_mem (hbefore l₁ m l₂ p.1 hl (hbef p hp))
        have hp' := ih p hp k₁ (k₂ ++ m :: l₂) (by simpa using hl)
        have hsplit : k₁ ++ p.1 :: k₂ = (k₁ ++ [p.1]) ++ k₂ := by simp
        rw [hsplit, pass_append]
        exact h.keeps_pass k₂ hp'
  obtain ⟨l₁, l₂, rfl⟩ := List.append_of_mem hm
  have hsplit : l₁ ++ m :: l₂ = (l₁ ++ [m]) ++ l₂ := by simp
  rw [hsplit, pass_append]
  exact h.keeps_pass l₂ (hkey l₁ l₂ rfl)

/-- A fact that only its emitter's reported steps change. -/
def Owned (step : N → Step σ) (holds : σ → F → Prop) (o : N) (f : F) : Prop :=
  ∀ n s, n ≠ o → holds (step n s).1 f → holds s f

/-- A pass shows to the elements that had their turn what came in behind their back: where an element
`o` silently repeats a fact that came in during the pass, the elements behind `o` that had their turn
already and use the fact are in the next list. -/
def Shown (step : N → Step σ) (next : List N → List N) (rule : N → List (N × F) → F → Prop)
    (before : N → N → Prop) (holds : σ → F → Prop) (todo : List N) (s : σ) : Prop :=
  ∀ l₁ o l₂ f, todo = l₁ ++ o :: l₂ → (step o (pass step l₁ s).1).2 = false →
    (∃ ps, rule o ps f ∧ ∀ p ∈ ps, holds (pass step l₁ s).1 p.2) → ¬ Owned step holds o f →
    ¬ holds s f → ∀ m ∈ l₁, before o m → ∀ ps g, rule m ps g → (o, f) ∈ ps →
      (∀ p ∈ ps, Owned step holds p.1 p.2 → holds (pass step todo s).1 p.2) →
      m ∈ next (pass step todo s).2

/-- Between two points of a pass an owned fact does not change, when its owner reports nothing. -/
theorem Derives.owned_pass (h : Derives step rule holds inv ok) {o : N} {f : F}
    (howned : Owned step holds o f) :
    ∀ {l : List N} {s : σ}, o ∉ (pass step l s).2 → holds (pass step l s).1 f → holds s f := by
  intro l
  induction l with
  | nil => exact fun _ hf => hf
  | cons n l ih =>
      intro s ho hf
      have hrest : holds (step n s).1 f := by
        apply ih _ hf
        intro hmem
        apply ho
        simp only [pass]
        split
        · exact List.mem_cons_of_mem n hmem
        · exact hmem
      by_cases hn : n = o
      · subst hn
        cases hr : (step n s).2 with
        | false => exact h.silent n s f hr hrest
        | true =>
            exact absurd (show n ∈ (pass step ([] ++ n :: l) s).2 from changed_split hr) ho
      · exact howned n s hn hrest

/-- Two elements of a list: the same place, or one before the other. -/
theorem two_turns {l₁ l₂ k₁ k₂ : List N} {m o : N} (h : l₁ ++ m :: l₂ = k₁ ++ o :: k₂) :
    k₁ = l₁ ∨ (∃ j, k₁ = l₁ ++ m :: j) ∨ ∃ j, l₁ = k₁ ++ o :: j := by
  obtain ⟨j, hk, hj⟩ | ⟨j, hl, hj⟩ := List.append_eq_append_iff.1 h
  · cases j with
    | nil => exact Or.inl (by simpa using hk)
    | cons a j =>
        obtain ⟨rfl, -⟩ := List.cons.inj hj
        exact Or.inr (Or.inl ⟨j, hk⟩)
  · cases j with
    | nil => exact Or.inl (by simpa using hl.symm)
    | cons a j =>
        obtain ⟨rfl, -⟩ := List.cons.inj hj
        exact Or.inr (Or.inr ⟨j, hl⟩)

/-- **One pass.** Whatever is emitted holds at its end, or its emitter is in the next list. -/
theorem settled_pass (h : Derives step rule holds inv ok) {todo : List N} {s : σ} (hs : inv s)
    (hok : ok (pass step todo s).1)
    (hstart : ∀ m f, Emits rule before m f → m ∉ todo → holds s f)
    (hshown : Shown step next rule before holds todo s)
    (hclosed : ∀ o m, o ∈ next (pass step todo s).2 → before o m →
      m ∈ next (pass step todo s).2)
    (hchanged : ∀ m ∈ (pass step todo s).2, m ∈ next (pass step todo s).2)
    {m : N} {f : F} (hf : Emits rule before m f) (hm : m ∉ next (pass step todo s).2) :
    holds (pass step todo s).1 f := by
  -- a reporting element is in the next list
  have hsilent : ∀ o, o ∉ next (pass step todo s).2 → ∀ l₁ l₂, todo = l₁ ++ o :: l₂ →
      (step o (pass step l₁ s).1).2 = false := by
    intro o ho l₁ l₂ hl
    cases hr : (step o (pass step l₁ s).1).2 with
    | false => rfl
    | true => exact absurd (hchanged o (hl ▸ changed_split hr)) ho
  -- an emitter that is not in the next list has its premises at its own turn already
  have hkey : m ∉ next (pass step todo s).2 → ∀ l₁ l₂, todo = l₁ ++ m :: l₂ →
      ∃ ps, rule m ps f ∧ ∀ p ∈ ps, holds (pass step l₁ s).1 p.2 := by
    clear hm
    induction hf with
    | @mk m ps f hrule hbef hps ih =>
        intro hm l₁ l₂ hl
        refine ⟨ps, hrule, ?_⟩
        have hnot : ∀ p ∈ ps, p.1 ∉ next (pass step todo s).2 := fun p hp hmem =>
          hm (hclosed p.1 m hmem (hbef p hp))
        -- a premise whose emitter has a turn holds from that turn on
        have hturn : ∀ p ∈ ps, ∀ k₁ k₂, todo = k₁ ++ p.1 :: k₂ →
            holds (pass step k₁ s).1 p.2 := by
          intro p hp k₁ k₂ hk
          obtain ⟨qs, hq, hall⟩ := ih p hp (hnot p hp) k₁ k₂ hk
          apply h.silent p.1 _ p.2 (hsilent p.1 (hnot p hp) k₁ k₂ hk)
          exact h.fires_turn hs (hk ▸ hok) hq hall
        have hend : ∀ p ∈ ps, holds (pass step todo s).1 p.2 := by
          intro p hp
          by_cases hin : p.1 ∈ todo
          · obtain ⟨k₁, k₂, hk⟩ := List.append_of_mem hin
            rw [hk, pass_append]
            exact h.keeps_pass _ (hturn p hp k₁ k₂ hk)
          · exact h.keeps_pass todo (hstart p.1 p.2 (hps p hp) hin)
        intro p hp
        by_cases hold : holds s p.2
        · exact h.keeps_pass l₁ hold
        · by_cases hin : p.1 ∈ todo
          · obtain ⟨k₁, k₂, hk⟩ := List.append_of_mem hin
            by_cases howned : Owned step holds p.1 p.2
            · -- nobody else changes it, and its owner reported nothing
              have hback : holds s p.2 := by
                apply h.owned_pass howned (l := k₁) _ (hturn p hp k₁ k₂ hk)
                intro hmem
                apply hnot p hp
                apply hchanged
                rw [hk, pass_append]
                exact List.mem_append_left _ hmem
              exact absurd hback hold
            · obtain heq | ⟨j, hj⟩ | ⟨j, hj⟩ := two_turns (hl.symm.trans hk)
              · exact heq ▸ hturn p hp k₁ k₂ hk
              · -- the premise comes later in the list
                have hmem : m ∈ k₁ := by simp [hj]
                have hsil := hsilent p.1 (hnot p hp) k₁ k₂ hk
                exact absurd (hshown k₁ p.1 k₂ p.2 hk hsil (ih p hp (hnot p hp) k₁ k₂ hk) howned
                  hold m hmem (hbef p hp) ps f hrule hp fun q hq _ => hend q hq) hm
              · rw [hj, pass_append]
                exact h.keeps_pass _ (hturn p hp k₁ k₂ hk)
          · exact absurd (hstart p.1 p.2 (hps p hp) hin) hold
  by_cases hin : m ∈ todo
  · obtain ⟨l₁, l₂, hl⟩ := List.append_of_mem hin
    obtain ⟨ps, hrule, hall⟩ := hkey hm l₁ l₂ hl
    have hfires := h.fires_turn hs (hl ▸ hok) hrule hall
    rw [hl, pass_append]
    exact h.keeps_pass l₂ hfires
  · exact h.keeps_pass todo (hstart m f hf hin)

/-- **When the rounds end, every emitted fact holds.** -/
theorem settled_rounds (h : Derives step rule holds inv ok) {C : List N → Prop}
    (hC : ∀ todo s, C todo → C (next (pass step todo s).2))
    (hclosed : ∀ todo s, C todo → ∀ o m, o ∈ next (pass step todo s).2 → before o m →
      m ∈ next (pass step todo s).2)
    (hchanged : ∀ todo s, C todo → ∀ m ∈ (pass step todo s).2, m ∈ next (pass step todo s).2) :
    ∀ {fuel : Nat} {todo : List N} {s t : σ}, C todo → inv s → ok t →
      EachPass step next (Shown step next rule before holds) fuel todo s →
      (∀ m f, Emits rule before m f → m ∉ todo → holds s f) →
      rounds step next fuel todo s = some t → ∀ m f, Emits rule before m f → holds t f := by
  intro fuel
  induction fuel with
  | zero => exact fun _ _ _ _ _ hrun => by cases hrun
  | succ fuel ih =>
      intro todo s t hlist hs ht heach hstart hrun m f hf
      obtain ⟨hshown, hrest⟩ := heach
      have hsettled := fun m f (hf : Emits rule before m f) =>
        settled_pass h hs (h.ok_rounds hrun ht) hstart hshown (hclosed todo s hlist)
          (hchanged todo s hlist) hf
      unfold rounds at hrun
      split at hrun
      · next hnil =>
          cases hrun
          apply hsettled m f hf
          rw [hnil]
          exact List.not_mem_nil
      · next n rest hn =>
          rw [hn] at hrest hsettled
          exact ih (hn ▸ hC todo s hlist) (h.inv_pass todo hs) ht hrest hsettled hrun m f hf

end Facts

/-! ## Elements that watch a part of the state -/

section Watched

/-- Every element watches a part of the state (`agree m s t`: what `m` watches is the same in `s` and
`t`), which only the steps of elements before it change, and only when they report. An element that
reports nothing leaves a state that is closed under it, and whether a state is closed depends on what
the element watches. -/
structure Watches (step : N → Step σ) (live : N → Prop) (before : N → N → Prop)
    (agree : N → σ → σ → Prop) (inv : σ → Prop) (closed : N → σ → Prop) : Prop where
  keepsInv : ∀ n s, inv s → inv (step n s).1
  refl : ∀ m s, agree m s s
  trans : ∀ m s t u, agree m s t → agree m t u → agree m s u
  apart : ∀ o m s, inv s → live o → ¬ before o m → agree m s (step o s).1
  silent : ∀ o m s, (step o s).2 = false → agree m s (step o s).1
  settles : ∀ m s, inv s → (step m s).2 = false → closed m s
  congr : ∀ m s t, inv s → agree m s t → closed m s → closed m t

variable {live : N → Prop} {before : N → N → Prop} {agree : N → σ → σ → Prop} {inv : σ → Prop}
variable {closed : N → σ → Prop}

/-- Only elements of the list report. -/
theorem mem_of_changed {l : List N} {s : σ} {m : N} (h : m ∈ (pass step l s).2) : m ∈ l := by
  induction l generalizing s with
  | nil => exact absurd h List.not_mem_nil
  | cons n l ih =>
      simp only [pass] at h
      split at h
      · obtain rfl | h := List.mem_cons.1 h
        · exact List.mem_cons_self
        · exact List.mem_cons_of_mem n (ih h)
      · exact List.mem_cons_of_mem n (ih h)

/-- When no element before `m` reports, a pass leaves what `m` watches. -/
theorem Watches.agree_pass (h : Watches step live before agree inv closed) {m : N} :
    ∀ {l : List N} {s : σ}, inv s → (∀ o ∈ l, live o) →
      (∀ o ∈ (pass step l s).2, ¬ before o m) → agree m s (pass step l s).1 := by
  intro l
  induction l with
  | nil => exact fun _ _ _ => h.refl m _
  | cons n l ih =>
      intro s hs hlive hnot
      have hrest : agree m (step n s).1 (pass step l (step n s).1).1 := by
        apply ih (h.keepsInv n s hs) (fun o ho => hlive o (List.mem_cons_of_mem n ho))
        intro o ho
        apply hnot o
        simp only [pass]
        split
        · exact List.mem_cons_of_mem n ho
        · exact ho
      refine h.trans m _ _ _ ?_ hrest
      cases hr : (step n s).2 with
      | false => exact h.silent n m s hr
      | true =>
          apply h.apart n m s hs (hlive n List.mem_cons_self)
          exact hnot n (show n ∈ (pass step ([] ++ n :: l) s).2 from changed_split hr)

/-- **One pass.** A state is closed under the elements that nothing before them, themselves included,
made a report about. -/
theorem Watches.closed_pass (h : Watches step live before agree inv closed) {todo : List N} {s : σ}
    (hs : inv s) (hlive : ∀ o ∈ todo, live o) {m : N} (hrefl : before m m)
    (hstart : m ∉ todo → closed m s) (hnot : ∀ o ∈ (pass step todo s).2, ¬ before o m) :
    closed m (pass step todo s).1 := by
  by_cases hm : m ∈ todo
  · obtain ⟨l₁, l₂, rfl⟩ := List.append_of_mem hm
    have hinv : inv (pass step l₁ s).1 := pass_invariant (fun n _ s => h.keepsInv n s) hs
    rw [pass_append] at hnot ⊢
    -- at its own turn it reports nothing
    have hsilent : (step m (pass step l₁ s).1).2 = false := by
      cases hr : (step m (pass step l₁ s).1).2 with
      | false => rfl
      | true =>
          have hmem : m ∈ (pass step ([] ++ m :: l₂) (pass step l₁ s).1).2 := changed_split hr
          exact absurd hrefl (hnot m (List.mem_append_right _ hmem))
    refine h.congr m _ _ hinv ?_ (h.settles m _ hinv hsilent)
    apply h.agree_pass hinv (fun o ho => hlive o (List.mem_append_right l₁ ho))
    exact fun o ho => hnot o (List.mem_append_right _ ho)
  · exact h.congr m _ _ hs (h.agree_pass hs hlive hnot) (hstart hm)

/-- **When the rounds end, the state is closed under all elements**, if the next list holds what is
behind the elements that reported. -/
theorem Watches.closed_rounds (h : Watches step live before agree inv closed)
    (hrefl : ∀ m, before m m)
    (hnext : ∀ changed o m, o ∈ changed → before o m → m ∈ next changed)
    (hlive : ∀ changed, (∀ o ∈ changed, live o) → ∀ m ∈ next changed, live m) :
    ∀ {fuel : Nat} {todo : List N} {s t : σ}, inv s → (∀ o ∈ todo, live o) →
      (∀ m, live m → m ∉ todo → closed m s) → rounds step next fuel todo s = some t →
      ∀ m, live m → closed m t := by
  intro fuel
  induction fuel with
  | zero => exact fun _ _ _ hrun => by cases hrun
  | succ fuel ih =>
      intro todo s t hs htodo hstart hrun m hm
      have hpass : ∀ m, live m → m ∉ next (pass step todo s).2 → closed m (pass step todo s).1 :=
        fun m hm hnot => h.closed_pass hs htodo (hrefl m) (hstart m hm)
          fun o ho hbefore => hnot (hnext _ o m ho hbefore)
      have htodo' : ∀ o ∈ next (pass step todo s).2, live o :=
        hlive _ fun o ho => htodo o (mem_of_changed ho)
      unfold rounds at hrun
      split at hrun
      · next hnil =>
          cases hrun
          apply hpass m hm
          rw [hnil]
          exact List.not_mem_nil
      · next n rest hn =>
          rw [hn] at hpass htodo'
          exact ih (pass_invariant (fun n _ s => h.keepsInv n s) hs) htodo' hpass hrun m hm

end Watched

end Cape.Library
