import Mathlib.Data.BitVec
import Cape.Library.Inevitable
import Cape.Library.Visits

/-!
# A search that counts down successors

Backwards from a target: every vertex has a counter, at first the number of its successors. A vertex
that is taken from the pending ones counts down the counters of its predecessors, and a vertex whose
counter comes to 0 is marked and pending. The counters have `w` bits.

The target is pending at the start already. When its own counter comes to 0 it is pending a second
time, and its predecessors are counted down twice for it. `Counted` says which vertices are marked
then (`marked_iff`); those that only the second count marks are the `Miscounted` ones
(`counted_iff`).
-/

set_option autoImplicit false

namespace Cape.Library.Countdown

universe u

variable {α : Type u}

/-- The marks, the counters, and the vertices that are pending, the next one first. -/
structure State (α : Type u) (w : Nat) where
  marked : α → Bool
  counter : α → BitVec w
  pending : List α

section Search

variable [DecidableEq α] {w : Nat}

/-- A predecessor is counted down. -/
def visit (s : State α w) (x : α) : State α w :=
  let c := s.counter x - 1
  let counter := Function.update s.counter x c
  if c = 0 then ⟨Function.update s.marked x true, counter, x :: s.pending⟩
  else { s with counter := counter }

variable (next prev : α → List α)

/-- Until nothing is pending; `none` when the fuel is spent. -/
def run : Nat → State α w → Option (α → Bool)
  | 0, _ => none
  | fuel + 1, s =>
      match s.pending with
      | [] => some s.marked
      | n :: rest => run fuel ((prev n).foldl visit { s with pending := rest })

/-- The search from a target; the marks at the start are given. -/
def search (w : Nat) (marked : α → Bool) (target : α) (fuel : Nat) : Option (α → Bool) :=
  run prev fuel
    (⟨Function.update marked target true, fun x => BitVec.ofNat w (next x).length, [target]⟩ :
      State α w)

end Search

/-! ## What is marked -/

variable (next : α → List α)

/-- All ways from the successors of the target come back to it. -/
def Revisited (t : α) : Prop := next t ≠ [] ∧ ∀ y ∈ next t, Reaching next t y

/-- The vertices that are counted in: those whose successors all are, and, when the target is
revisited, those of its predecessors that have all successors but one counted in. -/
inductive Counted (t : α) : α → Prop
  | target : Counted t t
  | all {x : α} : next x ≠ [] → (∀ y ∈ next x, Counted t y) → Counted t x
  | skip {x z : α} : Revisited next t → t ∈ next x → (∀ y ∈ next x, y ≠ z → Counted t y) →
      Counted t x

/-- The vertices that are counted in although some way from them avoids the target. -/
inductive Miscounted (t : α) : α → Prop
  | skip {x z : α} : Revisited next t → t ∈ next x → ¬ Reaching next t x →
      (∀ y ∈ next x, y ≠ z → ¬ Reaching next t y → Miscounted t y) → Miscounted t x
  | carry {x : α} : next x ≠ [] → ¬ Reaching next t x →
      (∀ y ∈ next x, ¬ Reaching next t y → Miscounted t y) → Miscounted t x

variable {next}

theorem Counted.of_reaching {t x : α} (h : Reaching next t x) : Counted next t x := by
  induction h with
  | here hx => exact hx ▸ .target
  | next _ hne _ ih => exact .all hne ih

theorem Miscounted.not_reaching {t x : α} (h : Miscounted next t x) : ¬ Reaching next t x := by
  cases h with
  | skip _ _ hnot _ => exact hnot
  | carry _ hnot _ => exact hnot

theorem counted_iff {t x : α} :
    Counted next t x ↔ Reaching next t x ∨ Miscounted next t x := by
  constructor
  · intro h
    induction h with
    | target => exact Or.inl (.here rfl)
    | @all x hne _ ih =>
        by_cases hx : Reaching next t x
        · exact Or.inl hx
        · exact Or.inr (.carry hne hx fun y hy hnot => (ih y hy).resolve_left hnot)
    | @skip x z hrev ht _ ih =>
        by_cases hx : Reaching next t x
        · exact Or.inl hx
        · exact Or.inr (.skip hrev ht hx fun y hy hne hnot => (ih y hy hne).resolve_left hnot)
  · rintro (h | h)
    · exact .of_reaching h
    · induction h with
      | skip hrev ht _ _ ih =>
          exact .skip hrev ht fun y hy hne => (em (Reaching next t y)).elim .of_reaching
            fun hnot => ih y hy hne hnot
      | carry hne _ _ ih =>
          exact .all hne fun y hy => (em (Reaching next t y)).elim .of_reaching
            fun hnot => ih y hy hnot

/-! ## Sums over successors -/

section Sums

variable [DecidableEq α] {l : List α} {f : α → Nat} {t : α}

theorem sum_map_eq (l : List α) (t : α) : (l.map fun y => if y = t then 1 else 0).sum = l.count t := by
  induction l with
  | nil => rfl
  | cons y l ih =>
      rw [List.map_cons, List.sum_cons, ih, List.count_cons]
      by_cases h : y = t
      · simp [h, Nat.add_comm]
      · simp [h]

/-- One vertex comes twice, and all others but one come. -/
theorem length_le_sum (ht : t ∈ l) (hl : l.Nodup) {z : α} (htwo : 2 ≤ f t)
    (hge : ∀ y ∈ l, y ≠ z → 1 ≤ f y) : l.length ≤ (l.map f).sum := by
  have hle : ∀ y ∈ l, 1 + (if y = t then 1 else 0) ≤ f y + if y = z then 1 else 0 := by
    intro y hy
    split_ifs with hyt hz hz
    · subst hyt
      omega
    · subst hyt
      omega
    · omega
    · have := hge y hy hz
      omega
  have hsum := List.sum_le_sum hle
  rw [List.sum_map_add, List.sum_map_add, sum_map_eq, sum_map_eq] at hsum
  have hone : l.count t = 1 := List.count_eq_one_of_mem hl ht
  have hz := List.nodup_iff_count_le_one.1 hl z
  have hlen : (l.map fun _ => 1).sum = l.length := by simp
  omega

/-- At most one vertex is missing when one comes twice. -/
theorem exists_missing (hl : l.Nodup) (hle : ∀ y ∈ l, f y ≤ 1 + if y = t then 1 else 0)
    (hsum : l.length ≤ (l.map f).sum) : ∃ z, ∀ y ∈ l, y ≠ z → 1 ≤ f y := by
  by_cases hall : ∀ y ∈ l, 1 ≤ f y
  · exact ⟨t, fun y hy _ => hall y hy⟩
  · push Not at hall
    obtain ⟨z, hz, hzero⟩ := hall
    refine ⟨z, fun y hy hne => ?_⟩
    by_contra hy0
    -- two missing vertices leave too little
    have hle' : ∀ x ∈ l, f x + ((if x = z then 1 else 0) + if x = y then 1 else 0) ≤
        1 + if x = t then 1 else 0 := by
      intro x hx
      have := hle x hx
      by_cases hxz : x = z
      · have hxy : x ≠ y := fun h => hne (h.symm.trans hxz)
        rw [if_pos hxz, if_neg hxy, hxz]
        omega
      · by_cases hxy : x = y
        · rw [if_neg hxz, if_pos hxy, hxy]
          omega
        · rw [if_neg hxz, if_neg hxy]
          omega
    have hsum' := List.sum_le_sum hle'
    rw [List.sum_map_add, List.sum_map_add, List.sum_map_add, sum_map_eq, sum_map_eq,
      sum_map_eq] at hsum'
    have hcz : l.count z = 1 := List.count_eq_one_of_mem hl hz
    have hcy : l.count y = 1 := List.count_eq_one_of_mem hl hy
    have hct := List.nodup_iff_count_le_one.1 hl t
    have hlen : (l.map fun _ => 1).sum = l.length := by simp
    omega

end Sums

/-! ## The invariant -/

section Invariant

variable [DecidableEq α] {w : Nat} {prev : α → List α}

theorem visit_of_eq {s : State α w} {x : α} (h : s.counter x - 1 = 0) : visit s x =
    ⟨Function.update s.marked x true, Function.update s.counter x (s.counter x - 1),
      x :: s.pending⟩ :=
  if_pos h

theorem visit_of_ne {s : State α w} {x : α} (h : ¬ s.counter x - 1 = 0) : visit s x =
    { s with counter := Function.update s.counter x (s.counter x - 1) } :=
  if_neg h

theorem counter_visit (s : State α w) (y x : α) :
    (visit s y).counter x = if x = y then s.counter x - 1 else s.counter x := by
  have hupdate : (visit s y).counter = Function.update s.counter y (s.counter y - 1) := by
    by_cases h : s.counter y - 1 = 0
    · rw [visit_of_eq h]
    · rw [visit_of_ne h]
  rw [hupdate, Function.update_apply]
  split
  · next h => rw [h]
  · rfl

theorem counter_foldl_visit {l : List α} (hl : l.Nodup) (s : State α w) (x : α) :
    (l.foldl visit s).counter x = if x ∈ l then s.counter x - 1 else s.counter x := by
  induction l generalizing s with
  | nil => rfl
  | cons y l ih =>
      obtain ⟨hy, hl⟩ := List.nodup_cons.1 hl
      rw [List.foldl_cons, ih hl, counter_visit]
      by_cases hxy : x = y
      · subst hxy
        simp [hy]
      · simp [hxy]

theorem count_foldl_visit {l : List α} (hl : l.Nodup) (s : State α w) (x : α) :
    (l.foldl visit s).pending.count x =
      s.pending.count x + if x ∈ l ∧ s.counter x - 1 = 0 then 1 else 0 := by
  induction l generalizing s with
  | nil => simp
  | cons y l ih =>
      obtain ⟨hy, hl⟩ := List.nodup_cons.1 hl
      have hcount : (visit s y).pending.count x =
          s.pending.count x + if x = y ∧ s.counter x - 1 = 0 then 1 else 0 := by
        by_cases hz : s.counter y - 1 = 0
        · rw [visit_of_eq hz, List.count_cons]
          by_cases hxy : x = y
          · subst hxy
            rw [if_pos (beq_self_eq_true x), if_pos ⟨rfl, hz⟩]
          · rw [if_neg fun h => hxy (beq_iff_eq.1 h).symm, if_neg fun h => hxy h.1]
        · rw [visit_of_ne hz, if_neg]
          · rfl
          · rintro ⟨rfl, h⟩
            exact hz h
      rw [List.foldl_cons, ih hl, counter_visit, hcount]
      by_cases hxy : x = y
      · subst hxy
        simp [hy]
      · simp [hxy]

theorem marked_foldl_visit {l : List α} (hl : l.Nodup) (s : State α w) (x : α) :
    (l.foldl visit s).marked x = true ↔
      s.marked x = true ∨ (x ∈ l ∧ s.counter x - 1 = 0) := by
  induction l generalizing s with
  | nil => simp
  | cons y l ih =>
      obtain ⟨hy, hl⟩ := List.nodup_cons.1 hl
      have hmarked : (visit s y).marked x = true ↔
          s.marked x = true ∨ (x = y ∧ s.counter x - 1 = 0) := by
        by_cases hz : s.counter y - 1 = 0
        · rw [visit_of_eq hz]
          show Function.update s.marked y true x = true ↔ _
          rw [Function.update_apply]
          by_cases hxy : x = y
          · subst hxy
            simp only [if_true, true_and]
            exact iff_of_true trivial (Or.inr hz)
          · simp [hxy]
        · rw [visit_of_ne hz]
          refine ⟨Or.inl, fun h => h.resolve_right ?_⟩
          rintro ⟨rfl, hx⟩
          exact hz hx
      rw [List.foldl_cons, ih hl, counter_visit, hmarked]
      by_cases hxy : x = y
      · subst hxy
        simp [hy]
      · simp [hxy]

/-- How often a vertex was counted down when its successors were taken so often. -/
def received (next : α → List α) (taken : α → Nat) (x : α) : Nat := ((next x).map taken).sum

/-- The counters do not wrap around before they come to 0, nor come to it again. -/
theorem counter_eq_zero_iff {len r : Nat} (hlen : len < 2 ^ w) (hr : r + 1 ≤ 2 * len) :
    BitVec.ofNat w len - BitVec.ofNat w r - 1 = 0 ↔ r + 1 = len := by
  have hsucc : BitVec.ofNat w r + 1 = BitVec.ofNat w (r + 1) := (BitVec.ofNat_add r 1).symm
  rw [sub_sub, hsucc, sub_eq_zero, ← BitVec.toNat_inj, BitVec.toNat_ofNat, BitVec.toNat_ofNat,
    Nat.mod_eq_of_lt hlen]
  obtain hlt | hge := Nat.lt_or_ge (r + 1) (2 ^ w)
  · rw [Nat.mod_eq_of_lt hlt]
    exact eq_comm
  · rw [Nat.mod_eq_sub_mod hge, Nat.mod_eq_of_lt (by omega)]
    omega

/-- What is counted after every vertex `x` was taken `taken x` times: a vertex becomes pending for
being a target, and once more when its counter comes to 0. -/
structure Counts (next : α → List α) (T : α → Prop) [DecidablePred T] (s : State α w)
    (taken : α → Nat) : Prop where
  counter : ∀ x, s.counter x =
    BitVec.ofNat w (next x).length - BitVec.ofNat w (received next taken x)
  pushed : ∀ x, taken x + s.pending.count x =
    (if T x then 1 else 0) +
      if next x ≠ [] ∧ (next x).length ≤ received next taken x then 1 else 0
  marked : ∀ x, s.marked x = true ↔ 1 ≤ taken x + s.pending.count x

section Counts

variable {T : α → Prop} [DecidablePred T] {n : α} {s : State α w} {taken : α → Nat} {rest : List α}

theorem received_step (hnext : ∀ x, (next x).Nodup) (hmem : ∀ x y, x ∈ prev y ↔ y ∈ next x)
    (taken : α → Nat) (n x : α) : received next (fun x => taken x + if x = n then 1 else 0) x =
      received next taken x + if x ∈ prev n then 1 else 0 := by
  show ((next x).map fun y => taken y + if y = n then 1 else 0).sum = _
  rw [List.sum_map_add, sum_map_eq]
  by_cases hx : x ∈ prev n
  · rw [if_pos hx, List.count_eq_one_of_mem (hnext x) ((hmem x n).1 hx)]
    rfl
  · rw [if_neg hx, List.count_eq_zero.2 fun hn => hx ((hmem x n).2 hn)]
    rfl

/-- What is taken was pending. -/
theorem moved (hpending : s.pending = n :: rest) (x : α) :
    (taken x + if x = n then 1 else 0) + rest.count x = taken x + s.pending.count x := by
  rw [hpending, List.count_cons]
  by_cases hx : x = n
  · simp [hx]
    omega
  · simp [hx, Ne.symm hx]

/-- No vertex is taken more often than it was pending. -/
theorem Counts.taken_le (h : Counts next T s taken) (x : α) :
    taken x + s.pending.count x ≤ 1 + if T x then 1 else 0 := by
  have := h.pushed x
  split_ifs at this ⊢ <;> omega

theorem Counts.received_le (h : Counts next T s taken) (hpending : s.pending = n :: rest) (x : α) :
    received next (fun x => taken x + if x = n then 1 else 0) x ≤ 2 * (next x).length := by
  have hle : ∀ y ∈ (next x).map fun y => taken y + if y = n then 1 else 0, y ≤ 2 := by
    intro k hk
    obtain ⟨y, -, rfl⟩ := List.mem_map.1 hk
    have hmoved : (taken y + if y = n then 1 else 0) + rest.count y = taken y + s.pending.count y :=
      moved hpending y
    have htaken := h.taken_le y
    split_ifs at hmoved htaken ⊢ <;> omega
  have hsum := List.sum_le_card_nsmul _ 2 hle
  rw [List.length_map, smul_eq_mul, Nat.mul_comm] at hsum
  exact hsum

variable (hdeg : ∀ x, (next x).length < 2 ^ w) (hnext : ∀ x, (next x).Nodup)
  (hprev : ∀ x, (prev x).Nodup) (hmem : ∀ x y, x ∈ prev y ↔ y ∈ next x)

include hdeg hnext hmem in
/-- The counters that come to 0 are those of the vertices that were counted down just often
enough. -/
theorem Counts.fires_iff (h : Counts next T s taken) (hpending : s.pending = n :: rest) (x : α) :
    (x ∈ prev n ∧ s.counter x - 1 = 0) ↔ x ∈ prev n ∧
      received next (fun x => taken x + if x = n then 1 else 0) x = (next x).length := by
  refine and_congr_right fun hx => ?_
  have hle := h.received_le hpending x
  rw [received_step hnext hmem, if_pos hx] at hle ⊢
  rw [h.counter, counter_eq_zero_iff (hdeg x) hle]

include hdeg hnext hprev hmem in
theorem Counts.count_step (h : Counts next T s taken) (hpending : s.pending = n :: rest) (x : α) :
    (taken x + if x = n then 1 else 0) +
        ((prev n).foldl visit { s with pending := rest }).pending.count x =
      taken x + s.pending.count x + if x ∈ prev n ∧
        received next (fun x => taken x + if x = n then 1 else 0) x = (next x).length
      then 1 else 0 := by
  rw [count_foldl_visit (hprev n), ← moved hpending x]
  simp only [← h.fires_iff hdeg hnext hmem hpending]
  exact (Nat.add_assoc _ _ _).symm

include hdeg hnext hprev hmem in
/-- A vertex that is pending now was pending before, or has completed. -/
theorem Counts.pending_step (h : Counts next T s taken) (hpending : s.pending = n :: rest) {x : α}
    (hx : 1 ≤ (taken x + if x = n then 1 else 0) +
      ((prev n).foldl visit { s with pending := rest }).pending.count x) :
    1 ≤ taken x + s.pending.count x ∨ (x ∈ prev n ∧
      received next (fun x => taken x + if x = n then 1 else 0) x = (next x).length) := by
  rw [h.count_step hdeg hnext hprev hmem hpending] at hx
  split_ifs at hx with hfire
  · exact Or.inr hfire
  · exact Or.inl hx

include hdeg hnext hprev hmem in
/-- **The counts are kept** when a pending vertex is taken. -/
theorem Counts.step (h : Counts next T s taken) (hpending : s.pending = n :: rest) :
    Counts next T ((prev n).foldl visit { s with pending := rest })
      (fun x => taken x + if x = n then 1 else 0) := by
  refine ⟨fun x => ?_, fun x => ?_, fun x => ?_⟩
  · rw [counter_foldl_visit (hprev n), received_step hnext hmem]
    show (if x ∈ prev n then s.counter x - 1 else s.counter x) = _
    rw [h.counter]
    split
    · rw [BitVec.ofNat_add, sub_sub]
      rfl
    · rfl
  · rw [h.count_step hdeg hnext hprev hmem hpending, h.pushed, received_step hnext hmem]
    by_cases hx : x ∈ prev n
    · -- the counter of a predecessor passes 0 just now, or has or has not before
      have hne : next x ≠ [] := List.ne_nil_of_mem ((hmem x n).1 hx)
      simp only [hx, hne, true_and, ne_eq, not_false_eq_true, if_true]
      split_ifs <;> omega
    · simp only [hx, false_and, if_false, Nat.add_zero]
  · rw [marked_foldl_visit (hprev n), h.count_step hdeg hnext hprev hmem hpending]
    show s.marked x = true ∨ (x ∈ prev n ∧ s.counter x - 1 = 0) ↔ _
    rw [h.fires_iff hdeg hnext hmem hpending, h.marked]
    split_ifs with hfire
    · exact ⟨fun _ => by omega, fun _ => Or.inr hfire⟩
    · exact ⟨fun hor => hor.resolve_right hfire, Or.inl⟩

end Counts

/-- The search from `t` after every vertex `x` was taken `taken x` times. -/
structure Invariant (next : α → List α) (t : α) (s : State α w) (taken : α → Nat) : Prop where
  counter : ∀ x, s.counter x =
    BitVec.ofNat w (next x).length - BitVec.ofNat w (received next taken x)
  pushed : ∀ x, taken x + s.pending.count x =
    (if x = t then 1 else 0) +
      if next x ≠ [] ∧ (next x).length ≤ received next taken x then 1 else 0
  marked : ∀ x, s.marked x = true ↔ 1 ≤ taken x + s.pending.count x
  early : taken t ≤ 1 → ∀ x, 1 ≤ taken x + s.pending.count x → Reaching next t x
  twice : 2 ≤ taken t + s.pending.count t → Revisited next t
  counted : ∀ x, 1 ≤ taken x + s.pending.count x → Counted next t x

theorem Invariant.start (t : α) : Invariant next t
    (⟨Function.update (fun _ => false) t true, fun x => BitVec.ofNat w (next x).length, [t]⟩ :
      State α w) (fun _ => 0) := by
  have hnone : ∀ x, received next (fun _ => 0) x = 0 := fun x => by simp [received]
  have hpending : ∀ x, [t].count x = if x = t then 1 else 0 := by
    intro x
    by_cases hx : x = t
    · simp [hx]
    · simp [hx, Ne.symm hx]
  have hlen : ∀ x, ¬ (next x ≠ [] ∧ (next x).length ≤ 0) := by
    rintro x ⟨hne, hlen⟩
    exact hne (List.length_eq_zero_iff.1 (Nat.le_zero.1 hlen))
  have honly : ∀ x, 1 ≤ 0 + [t].count x → x = t := by
    intro x hx
    rw [hpending] at hx
    by_contra hne
    simp [hne] at hx
  refine ⟨fun x => by simp [hnone], fun x => ?_, fun x => ?_, fun _ x hx => ?_, fun h => ?_,
    fun x hx => ?_⟩
  · rw [hpending, hnone, if_neg (hlen x)]
    omega
  · by_cases hx : x = t
    · subst hx
      simp
    · simp [hx, Ne.symm hx]
  · exact .here (honly x hx)
  · simp at h
  · exact honly x hx ▸ .target

theorem Invariant.counts {t : α} {s : State α w} {taken : α → Nat} (h : Invariant next t s taken) :
    Counts next (· = t) s taken :=
  ⟨h.counter, h.pushed, h.marked⟩

section Step

variable {t n : α} {s : State α w} {taken : α → Nat} {rest : List α}

/-- When a vertex completes and the target was taken once at most, all its successors were taken. -/
theorem all_taken {x : α} (hle : ∀ y, taken y ≤ 1 + if y = t then 1 else 0)
    (honce : t ∈ next x → taken t ≤ 1) (hsum : received next taken x = (next x).length) :
    ∀ y ∈ next x, 1 ≤ taken y := by
  intro y hy
  refine (eq_one_of_sum_of_le (fun z hz => ?_) hsum.ge y hy).ge
  by_cases hzt : z = t
  · exact hzt ▸ honce (hzt ▸ hz)
  · simpa [hzt] using hle z

/-- **The invariant is kept** when a pending vertex is taken. -/
theorem Invariant.step (hdeg : ∀ x, (next x).length < 2 ^ w) (hnext : ∀ x, (next x).Nodup)
    (hprev : ∀ x, (prev x).Nodup) (hmem : ∀ x y, x ∈ prev y ↔ y ∈ next x)
    (h : Invariant next t s taken) (hpending : s.pending = n :: rest) :
    Invariant next t ((prev n).foldl visit { s with pending := rest })
      (fun x => taken x + if x = n then 1 else 0) := by
  let taken' : α → Nat := fun x => taken x + if x = n then 1 else 0
  have hkept := h.counts.step hdeg hnext hprev hmem hpending
  have hmoved : ∀ x, taken' x + rest.count x = taken x + s.pending.count x := moved hpending
  have hle : ∀ x, taken' x ≤ 1 + if x = t then 1 else 0 := by
    intro x
    have := h.counts.taken_le x
    have := hmoved x
    omega
  have hwas : ∀ x, 1 ≤ taken' x → 1 ≤ taken x + s.pending.count x := by
    intro x hx
    have := hmoved x
    omega
  have hne : ∀ x ∈ prev n, next x ≠ [] := fun x hx => List.ne_nil_of_mem ((hmem x n).1 hx)
  have hcases : ∀ x, 1 ≤ taken' x +
      ((prev n).foldl visit { s with pending := rest }).pending.count x →
      1 ≤ taken x + s.pending.count x ∨
        (x ∈ prev n ∧ received next taken' x = (next x).length) :=
    fun x => h.counts.pending_step hdeg hnext hprev hmem hpending
  -- before the target is taken twice, a vertex completes only when all ways lead to the target
  have hreach : ∀ x, taken t ≤ 1 → (t ∈ next x → taken' t ≤ 1) → x ∈ prev n →
      received next taken' x = (next x).length → ∀ y ∈ next x, Reaching next t y :=
    fun x hearly honce _ hsum y hy =>
      h.early hearly y (hwas y (all_taken hle honce hsum y hy))
  refine ⟨hkept.counter, hkept.pushed, hkept.marked, fun hearly x hx => ?_, fun htwo => ?_,
    fun x hx => ?_⟩
  · have hearly : taken' t ≤ 1 := hearly
    have hbefore : taken t ≤ 1 := by
      have : taken t ≤ taken' t := Nat.le_add_right _ _
      omega
    obtain hold | ⟨hx, hsum⟩ := hcases x hx
    · exact h.early hbefore x hold
    · exact .of_all (hne x hx) (hreach x hbefore (fun _ => hearly) hx hsum)
  · by_cases hold : 2 ≤ taken t + s.pending.count t
    · exact h.twice hold
    · rw [h.counts.count_step hdeg hnext hprev hmem hpending] at htwo
      have hfire : t ∈ prev n ∧ received next taken' t = (next t).length := by
        by_contra hnot
        rw [if_neg hnot] at htwo
        exact hold htwo
      have := hmoved t
      exact ⟨hne t hfire.1, hreach t (by omega) (fun _ => by omega) hfire.1 hfire.2⟩
  · obtain hold | ⟨hx, hsum⟩ := hcases x hx
    · exact h.counted x hold
    · have hin : ∀ y, 1 ≤ taken' y → Counted next t y := fun y hy => h.counted y (hwas y hy)
      by_cases honce : t ∈ next x → taken' t ≤ 1
      · exact .all (hne x hx) fun y hy => hin y (all_taken hle honce hsum y hy)
      · push Not at honce
        obtain ⟨ht, htwo⟩ := honce
        have := hmoved t
        obtain ⟨z, hz⟩ := exists_missing (hnext x) (fun y _ => hle y) hsum.ge
        exact .skip (h.twice (by omega)) ht fun y hy hyz => hin y (hz y hy hyz)

end Step

/-- **When nothing is pending, the counted vertices are marked.** -/
theorem Invariant.marked_iff {t : α} {s : State α w} {taken : α → Nat}
    (hnext : ∀ x, (next x).Nodup) (h : Invariant next t s taken) (hdone : s.pending = []) (x : α) :
    s.marked x = true ↔ Counted next t x := by
  have hcount : ∀ x, s.pending.count x = 0 := fun x => by simp [hdone]
  have hcompletes : ∀ x, next x ≠ [] → (next x).length ≤ received next taken x → 1 ≤ taken x := by
    intro x hne hsum
    have hone : (if next x ≠ [] ∧ (next x).length ≤ received next taken x then 1 else 0) = 1 :=
      if_pos ⟨hne, hsum⟩
    have := h.pushed x
    have := hcount x
    omega
  have hall : ∀ x, next x ≠ [] → (∀ y ∈ next x, 1 ≤ taken y) →
      (next x).length ≤ received next taken x := by
    intro x _ hy
    simpa [received] using List.card_nsmul_le_sum ((next x).map taken) 1 (by simpa using hy)
  have htaken : ∀ x, Reaching next t x → 1 ≤ taken x := by
    intro x hx
    induction hx with
    | @here x hx =>
        have := h.pushed x
        rw [hcount, if_pos hx] at this
        omega
    | @next x _ hne _ ih => exact hcompletes x hne (hall x hne ih)
  rw [h.marked, hcount, Nat.add_zero]
  constructor
  · intro hx
    exact h.counted x (by omega)
  · intro hx
    induction hx with
    | target => exact htaken t (.here rfl)
    | @all x hne _ ih => exact hcompletes x hne (hall x hne ih)
    | @skip x z hrev ht _ ih =>
        -- the target is taken at the start, and again when it is complete
        have htwo : 2 ≤ taken t := by
          have := h.pushed t
          rw [hcount, if_pos rfl,
            if_pos ⟨hrev.1, hall t hrev.1 fun y hy => htaken y (hrev.2 y hy)⟩] at this
          omega
        exact hcompletes x (List.ne_nil_of_mem ht) (length_le_sum ht (hnext x) htwo ih)

variable [Fintype α]

/-- All vertices together are taken at most once each, and the target once more. -/
theorem Invariant.sum_taken_le {t : α} {s : State α w} {taken : α → Nat}
    (h : Invariant next t s taken) : ∑ x, taken x ≤ Fintype.card α + 1 := by
  have hle : ∀ x ∈ Finset.univ, taken x ≤ 1 + if x = t then 1 else 0 := by
    intro x _
    have := h.counts.taken_le x
    omega
  calc ∑ x, taken x ≤ ∑ x, (1 + if x = t then 1 else 0) := Finset.sum_le_sum hle
    _ = Fintype.card α + 1 := by
      rw [Finset.sum_add_distrib, Finset.sum_ite_eq', if_pos (Finset.mem_univ t)]
      simp

theorem Invariant.run (hdeg : ∀ x, (next x).length < 2 ^ w) (hnext : ∀ x, (next x).Nodup)
    (hprev : ∀ x, (prev x).Nodup) (hmem : ∀ x y, x ∈ prev y ↔ y ∈ next x) {t : α} :
    ∀ {fuel : Nat} {s : State α w} {taken : α → Nat}, Invariant next t s taken →
      Fintype.card α + 2 ≤ fuel + ∑ x, taken x →
      ∃ m, Countdown.run prev fuel s = some m ∧ ∀ x, m x = true ↔ Counted next t x := by
  intro fuel
  induction fuel with
  | zero =>
      intro s taken h hfuel
      have := h.sum_taken_le
      omega
  | succ fuel ih =>
      intro s taken h hfuel
      cases hpending : s.pending with
      | nil =>
          refine ⟨s.marked, ?_, h.marked_iff hnext hpending⟩
          simp only [Countdown.run, hpending]
      | cons n rest =>
          have hsum : ∑ x, (taken x + if x = n then 1 else 0) = ∑ x, taken x + 1 := by
            rw [Finset.sum_add_distrib, Finset.sum_ite_eq', if_pos (Finset.mem_univ n)]
          obtain ⟨m, hrun, hm⟩ := ih (h.step hdeg hnext hprev hmem hpending) (by omega)
          refine ⟨m, ?_, hm⟩
          simp only [Countdown.run, hpending]
          exact hrun

/-- **What the search marks**, when no vertex has `2 ^ w` successors or more. -/
theorem search_spec (hdeg : ∀ x, (next x).length < 2 ^ w) (hnext : ∀ x, (next x).Nodup)
    (hprev : ∀ x, (prev x).Nodup) (hmem : ∀ x y, x ∈ prev y ↔ y ∈ next x) (t : α) {fuel : Nat}
    (hfuel : Fintype.card α + 2 ≤ fuel) :
    ∃ m, search next prev w (fun _ => false) t fuel = some m ∧
      ∀ x, m x = true ↔ Counted next t x :=
  (Invariant.start t).run hdeg hnext hprev hmem (by simpa using hfuel)

end Invariant

end Cape.Library.Countdown
