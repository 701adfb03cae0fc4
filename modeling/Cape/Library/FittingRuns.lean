import Mathlib.Tactic.Common

/-!
# Runs of operations that do what they should

Operations on a state that may fail. In a right run every operation succeeds and its result meets what
is asked of it; in a fitting run every operation fits the state before it. When, under an invariant,
an operation is right exactly where it fits and then keeps the invariant, the right runs are the
fitting ones (`rightRun_iff`).
-/

set_option autoImplicit false

namespace Cape.Library.FittingRuns

universe u v w

variable {Op : Type u} {σ : Type v} {ρ : Type w}

/-- Every operation succeeds with a result that is right. -/
def RightRun (step : Op → σ → Option ρ) (next : ρ → σ) (Right : Op → σ → ρ → Prop) :
    List Op → σ → Prop
  | [], _ => True
  | op :: ops, s => ∃ r, step op s = some r ∧ Right op s r ∧ RightRun step next Right ops (next r)

/-- Every operation fits the state before it. -/
def FitRun (step : Op → σ → Option ρ) (next : ρ → σ) (Fits : Op → σ → Prop) : List Op → σ → Prop
  | [], _ => True
  | op :: ops, s => Fits op s ∧ ∀ r, step op s = some r → FitRun step next Fits ops (next r)

variable {step : Op → σ → Option ρ} {next : ρ → σ} {Right : Op → σ → ρ → Prop}
  {Pre Fits : Op → σ → Prop} {Inv : σ → Prop}

/-- The same for runs in which every operation meets a precondition: the operations are right, fit and
keep the invariant under it. -/
theorem rightRun_iff_of_pre
    (hfit : ∀ op s, Inv s → Pre op s → Fits op s →
      ∃ r, step op s = some r ∧ Right op s r ∧ Inv (next r))
    (hright : ∀ op s r, Inv s → Pre op s → step op s = some r → Right op s r → Fits op s)
    {s : σ} (hs : Inv s) {ops : List Op} (hpre : FitRun step next Pre ops s) :
    RightRun step next Right ops s ↔ FitRun step next Fits ops s := by
  induction ops generalizing s with
  | nil => exact Iff.rfl
  | cons op ops ih =>
      obtain ⟨hop, hrest⟩ := hpre
      constructor
      · -- the operation was right, so it fits; its result is the one that keeps the invariant
        rintro ⟨r, hr, hright', hruns⟩
        have hfits := hright op s r hs hop hr hright'
        refine ⟨hfits, fun r' hr' => ?_⟩
        obtain ⟨r'', hr'', -, hinv⟩ := hfit op s hs hop hfits
        obtain rfl := Option.some.inj (hr.symm.trans hr')
        obtain rfl := Option.some.inj (hr.symm.trans hr'')
        exact (ih hinv (hrest r hr)).1 hruns
      · rintro ⟨hfits, hruns⟩
        obtain ⟨r, hr, hright', hinv⟩ := hfit op s hs hop hfits
        exact ⟨r, hr, hright', (ih hinv (hrest r hr)).2 (hruns r hr)⟩

/-- A fitting run is right when, under the invariant, an operation that fits is. -/
theorem rightRun_of_fitRun
    (hfit : ∀ op s, Inv s → Fits op s → ∃ r, step op s = some r ∧ Right op s r ∧ Inv (next r))
    {s : σ} (hs : Inv s) {ops : List Op} (hfits : FitRun step next Fits ops s) :
    RightRun step next Right ops s := by
  induction ops generalizing s with
  | nil => exact trivial
  | cons op ops ih =>
      obtain ⟨r, hr, hright, hinv⟩ := hfit op s hs hfits.1
      exact ⟨r, hr, hright, ih hinv (hfits.2 r hr)⟩

theorem fitRun_of_forall (h : ∀ op s, Fits op s) (ops : List Op) (s : σ) :
    FitRun step next Fits ops s := by
  induction ops generalizing s with
  | nil => exact trivial
  | cons op ops ih => exact ⟨h op s, fun r _ => ih (next r)⟩

/-- **The right runs are the fitting ones.** -/
theorem rightRun_iff
    (hfit : ∀ op s, Inv s → Fits op s → ∃ r, step op s = some r ∧ Right op s r ∧ Inv (next r))
    (hright : ∀ op s r, Inv s → step op s = some r → Right op s r → Fits op s)
    {s : σ} (hs : Inv s) (ops : List Op) :
    RightRun step next Right ops s ↔ FitRun step next Fits ops s := by
  have hpre : FitRun step next (fun _ _ => True) ops s :=
    fitRun_of_forall (fun _ _ => trivial) ops s
  exact rightRun_iff_of_pre (fun op s hs _ => hfit op s hs) (fun op s r hs _ => hright op s r hs) hs
    hpre

end Cape.Library.FittingRuns
