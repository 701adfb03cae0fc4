import Mathlib.Data.Fintype.Card
import Mathlib.Order.Bounds.Basic
import Cape.Library.Circuit

/-!
# Strongly control-closed sets

An edge offends against a set when its end has a single first member of the set and meets the set for
sure, and its start has not or does not. A set is strongly closed when no edge of the part that is
reachable from it offends.

The start of an offending edge is in every closed set above (`StronglyClosed.mem_of_offends`).
Therefore adding such starts, in any order, comes to the least closed superset
(`isLeast_of_grows`).
-/

set_option autoImplicit false

namespace Cape.Library

open Relation

universe u

variable {α : Type u} (next : α → List α) (X : Set α)

/-- Every maximal path from `x` meets the set. -/
def AlwaysMeets (x : α) : Prop := ∀ π, MaximalPath next x π → ∃ i a, π i = some a ∧ a ∈ X

/-- Two different members of the set come first on ways from `x`. -/
def Branches (x : α) : Prop :=
  ∃ c d, c ≠ d ∧ Hits next (· ∈ X) x c ∧ Hits next (· ∈ X) x d

/-- The edge from `p` to `r` decides which member of the set comes first, or whether one comes. -/
structure Offends (p r : α) : Prop where
  edge : r ∈ next p
  single : ∃! c, Hits next (· ∈ X) r c
  sure : AlwaysMeets next X r
  decides : Branches next X p ∨ ¬ AlwaysMeets next X p

/-- The vertices that can be reached from the set. -/
def FromSet (p : α) : Prop := ∃ x ∈ X, ReflTransGen (fun a b => b ∈ next a) x p

/-- No edge of the reachable part offends. -/
def StronglyClosed : Prop := ∀ p, FromSet next X p → ∀ r, ¬ Offends next X p r

/-- The start of an offending edge is added. -/
def Grows (Y : Set α) : Prop := ∃ p r, FromSet next X p ∧ Offends next X p r ∧ Y = insert p X

variable {next X} {Y : Set α}

theorem alwaysMeets_iff {x : α} :
    AlwaysMeets next X x ↔ Inevitable next (· ∈ X) (fun _ => False) x := by
  rw [inevitable_iff]
  refine forall_congr' fun π => imp_congr_right fun _ => ?_
  constructor
  · rintro ⟨i, a, hi, ha⟩
    exact ⟨i, a, hi, ha, fun _ _ _ _ => id⟩
  · rintro ⟨i, a, hi, ha, -⟩
    exact ⟨i, a, hi, ha⟩

/-- Some maximal path avoids the set. -/
theorem not_alwaysMeets_iff {x : α} : ¬ AlwaysMeets next X x ↔
    ∃ π, MaximalPath next x π ∧ ∀ i a, π i = some a → a ∉ X := by
  unfold AlwaysMeets
  push Not
  rfl

theorem FromSet.tail {p r : α} (h : FromSet next X p) (hr : r ∈ next p) : FromSet next X r := by
  obtain ⟨x, hx, hway⟩ := h
  exact ⟨x, hx, hway.tail hr⟩

theorem FromSet.mono (hXY : X ⊆ Y) {p : α} (h : FromSet next X p) : FromSet next Y p := by
  obtain ⟨x, hx, hway⟩ := h
  exact ⟨x, hXY hx, hway⟩

/-- The edges from members of the set do not offend. -/
theorem Offends.not_mem {p r : α} (h : Offends next X p r) : p ∉ X := by
  intro hp
  obtain ⟨c, d, hcd, hc, hd⟩ | hnot := h.decides
  · rw [hits_of_mem (S := (· ∈ X)) hp] at hc hd
    exact hcd (hc.trans hd.symm)
  · exact hnot (alwaysMeets_iff.2 (.here hp))

/-- A way to the first member of the smaller set goes past the first member of the larger one. -/
theorem exists_hits_between (hXY : X ⊆ Y) {x y : α} (h : Hits next (· ∈ X) x y) :
    ∃ z, Hits next (· ∈ Y) x z ∧ Hits next (· ∈ X) z y := by
  obtain ⟨hy, hway⟩ := h
  induction hway using ReflTransGen.head_induction_on with
  | refl => exact ⟨y, ⟨hXY hy, .refl⟩, hy, .refl⟩
  | @head x x' hstep hrest ih =>
      by_cases hx : x ∈ Y
      · exact ⟨x, ⟨hx, .refl⟩, hy, .head hstep hrest⟩
      · obtain ⟨z, ⟨hz, hway⟩, hzy⟩ := ih
        exact ⟨z, ⟨hz, .head ⟨hx, hstep.2⟩ hway⟩, hzy⟩

theorem Hits.trans (hXY : X ⊆ Y) {x z y : α} (h : Hits next (· ∈ Y) x z)
    (hzy : Hits next (· ∈ X) z y) : Hits next (· ∈ X) x y := by
  refine ⟨hzy.1, .trans (ReflTransGen.mono (fun a b hstep => ?_) _ _ h.2) hzy.2⟩
  exact ⟨fun ha => hstep.1 (hXY ha), hstep.2⟩

/-- From where a closed set is met for sure, a single member of it comes first. -/
theorem StronglyClosed.hits_unique (hY : StronglyClosed next Y) {x : α} (hfrom : FromSet next Y x)
    (hsure : Inevitable next (· ∈ Y) (fun _ => False) x) {c d : α}
    (hc : Hits next (· ∈ Y) x c) (hd : Hits next (· ∈ Y) x d) : c = d := by
  induction hsure generalizing c d with
  | here hx =>
      rw [hits_of_mem (S := (· ∈ Y)) hx] at hc hd
      exact hc.trans hd.symm
  | @next x _ hne hall ih =>
      by_contra hcd
      obtain ⟨y, hy⟩ := List.exists_mem_of_ne_nil _ hne
      obtain ⟨e, he⟩ := exists_hits (hall y hy)
      -- otherwise the edge to a successor decides which one it is
      refine hY x hfrom y ⟨hy, ⟨e, he, fun e' he' => ?_⟩, ?_, Or.inl ⟨c, d, hcd, hc, hd⟩⟩
      · exact ih y hy (hfrom.tail hy) he' he
      · exact alwaysMeets_iff.2 (hall y hy)

/-- **The start of an offending edge is in every closed set above.** -/
theorem StronglyClosed.mem_of_offends (hY : StronglyClosed next Y) (hXY : X ⊆ Y) {p r : α}
    (hfrom : FromSet next X p) (h : Offends next X p r) : p ∈ Y := by
  by_contra hp
  have hfromY : FromSet next Y p := hfrom.mono hXY
  have hsure : Inevitable next (· ∈ X) (fun _ => False) r := alwaysMeets_iff.1 h.sure
  have hsureY : Inevitable next (· ∈ Y) (fun _ => False) r :=
    hsure.mono (fun x hx => hXY hx) fun _ => id
  obtain ⟨b, hb⟩ := exists_hits hsureY
  -- the edge does not offend against `Y`, so that from `p` also `b` alone comes first, for sure
  have hquiet : ¬ (Branches next Y p ∨ ¬ AlwaysMeets next Y p) := fun hdecides =>
    hY p hfromY r ⟨h.edge, ⟨b, hb, fun c hc => hY.hits_unique (hfromY.tail h.edge) hsureY hc hb⟩,
      alwaysMeets_iff.2 hsureY, hdecides⟩
  push Not at hquiet
  obtain ⟨hbranch, hmeets⟩ := hquiet
  have hpb : Hits next (· ∈ Y) p b := (hits_of_not_mem (S := (· ∈ Y)) hp).2 ⟨r, h.edge, hb⟩
  have honly : ∀ z, Hits next (· ∈ Y) p z → z = b := by
    intro z hz
    by_contra hne
    exact hbranch ⟨z, b, hne, hz, hpb⟩
  -- and `b` lies between `r` and the single first member of `X`
  obtain ⟨a, -, ha⟩ := h.single
  have hbsure : Inevitable next (· ∈ X) (fun _ => False) b := hsure.hits (fun x hx => hXY hx) hb
  obtain ⟨c, d, hcd, hc, hd⟩ | hnot := h.decides
  · have hfirst : ∀ y, Hits next (· ∈ X) p y → y = a := by
      intro y hy
      obtain ⟨z, hz, hzy⟩ := exists_hits_between hXY hy
      obtain rfl := honly z hz
      exact ha y (hb.trans hXY hzy)
    exact hcd ((hfirst c hc).trans (hfirst d hd).symm)
  · refine hnot (alwaysMeets_iff.2 ?_)
    refine inevitable_of_hits (S := (· ∈ Y)) (fun _ => False.elim) (alwaysMeets_iff.1 hmeets) ?_
    intro z hz
    exact honly z hz ▸ hbsure

/-! ## Growing -/

theorem subset_of_grows (h : ReflTransGen (Grows next) X Y) : X ⊆ Y := by
  induction h with
  | refl => exact fun _ => id
  | tail _ hstep ih =>
      obtain ⟨p, -, -, -, rfl⟩ := hstep
      exact ih.trans (Set.subset_insert _ _)

theorem StronglyClosed.subset_of_grows {Z : Set α} (hZ : StronglyClosed next Z) (hXZ : X ⊆ Z)
    (h : ReflTransGen (Grows next) X Y) : Y ⊆ Z := by
  induction h with
  | refl => exact hXZ
  | tail _ hstep ih =>
      obtain ⟨p, r, hfrom, hoffends, rfl⟩ := hstep
      exact Set.insert_subset (hZ.mem_of_offends ih hfrom hoffends) ih

/-- **A closed set that is come to is the least one.** -/
theorem isLeast_of_grows (h : ReflTransGen (Grows next) X Y) (hY : StronglyClosed next Y) :
    IsLeast {Z | X ⊆ Z ∧ StronglyClosed next Z} Y :=
  ⟨⟨Cape.Library.subset_of_grows h, hY⟩, fun _ hZ => hZ.2.subset_of_grows hZ.1 h⟩

end Cape.Library
