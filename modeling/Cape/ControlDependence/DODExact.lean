import Cape.ControlDependence.DODRanganath
import Cape.Library.Circuit
import Cape.Library.FinLiterals

/-!
# What `DOD` computes

The nodes on all maximal paths from a predicate lie on a circuit when two of them may come first
(`Fork`), and the graph `Ap` is that circuit. The walks of `computeDOD` go round it once
(`Tour`); the colours are in two blocks exactly when there are dependent nodes.

`DOD.compute_countsRight` and `DOD.compute_agrees`: on graphs where no predicate is miscounted the result
is the relation, and that of `DODRanganath`. `DOD.wrong_wayOut` and `DOD.disagrees`: not on others.
-/

set_option autoImplicit false

namespace Cape.ControlDependence

open Cape.Library Relation

namespace DOD

variable {G : CDGraph}

/-! ## The edges of `Ap` -/

theorem mem_firstReachable (nodes : Finset G.Node) (start c : G.Node) :
    c ∈ firstReachable nodes start ↔ First G.successors (· ∈ nodes) start c := by
  have honward : ∀ x y, y ∈ onward nodes x ↔ Off G.successors (· ∈ nodes) x y := by
    intro x y
    rw [onward]
    split
    · next hx => exact iff_of_false List.not_mem_nil fun h => h.1 hx
    · next hx => exact (and_iff_right hx).symm
  rw [firstReachable]
  rw [List.mem_filter, Worklist.mem_order_from _ _ _ (by simp), decide_eq_true_iff]
  simp only [honward]
  constructor
  · rintro ⟨⟨y, hy, hway⟩, hc⟩
    exact ⟨y, hy, hc, hway⟩
  · rintro ⟨y, hy, hc, hway⟩
    exact ⟨⟨y, hy, hway⟩, hc⟩

theorem nodup_firstReachable (nodes : Finset G.Node) (start : G.Node) :
    (firstReachable nodes start).Nodup := by
  obtain ⟨hnodup, hseen⟩ := Worklist.nodup_foldl_see .stack (G.successors start) (w := ⟨∅, []⟩)
    List.nodup_nil fun x hx => absurd hx List.not_mem_nil
  exact (Worklist.nodup_order _ _ _ hnodup hseen).filter _

theorem mem_colorOf (nodes : Finset G.Node) (succ c : G.Node) :
    c ∈ colorOf nodes succ ↔ Hits G.successors (· ∈ nodes) succ c := by
  rw [colorOf]
  split
  · next h => rw [hits_of_mem (S := (· ∈ nodes)) h, Finset.mem_singleton]
  · next h =>
      rw [hits_of_not_mem (S := (· ∈ nodes)) h, List.mem_toFinset, mem_firstReachable]

/-! ## Once round -/

/-- Places on a circuit of `Ap`, in the order of its edges. -/
structure Tour (A : ColoredAp G) (place : Nat → G.Node) (round : Nat) : Prop where
  single : ∀ k, A.single (place k) = some (place (k + 1))
  pos : 0 < round
  back : place round = place 0
  inj : ∀ k < round, ∀ l < round, place k = place l → k = l

section Tours

variable {A : ColoredAp G} {place : Nat → G.Node} {round : Nat}

/-- The last place with `P` from `i` up to before `k`, or else `n1`. -/
def Last (place : Nat → G.Node) (P : G.Node → Bool) (i k : Nat) (n1 o : Option G.Node) : Prop :=
  (∃ j, i ≤ j ∧ j < k ∧ P (place j) = true ∧ (∀ j', j < j' → j' < k → P (place j') = false) ∧
      o = some (place j)) ∨
    (∀ j, i ≤ j → j < k → P (place j) = false) ∧ o = n1

theorem last_cons {P : G.Node → Bool} {i k : Nat} {n1 o : Option G.Node} (hik : i < k)
    (h : Last place P (i + 1) k (if P (place i) then some (place i) else n1) o) :
    Last place P i k n1 o := by
  obtain ⟨j, hij, hjk, hrest⟩ | ⟨hnone, ho⟩ := h
  · exact Or.inl ⟨j, by omega, hjk, hrest⟩
  · cases hP : P (place i) with
    | true =>
        refine Or.inl ⟨i, Nat.le_refl i, hik, hP, fun j hij hjk => hnone j hij hjk, ?_⟩
        rw [ho, hP, if_pos rfl]
    | false =>
        refine Or.inr ⟨fun j hij hjk => ?_, by rw [ho, hP, if_neg Bool.false_ne_true]⟩
        obtain rfl | hlt := Nat.eq_or_lt_of_le hij
        · exact hP
        · exact hnone j hlt hjk

/-- **`find`** goes to the first place with `P2`, or once round. -/
theorem Tour.find_spec (h : Tour A place round) (P1 P2 : G.Node → Bool) :
    ∀ (fuel i : Nat) (n1 : Option G.Node), i < round → round - i ≤ fuel →
      ∃ o k, i ≤ k ∧ (∀ j, i ≤ j → j < k → P2 (place j) = false) ∧
        ((k < round ∧ P2 (place k) = true ∧ Last place P1 i (k + 1) n1 o ∧
            A.find P1 P2 (place 0) fuel n1 (place i) = some (o, some (place k))) ∨
          (k = round ∧ Last place P1 i round n1 o ∧
            A.find P1 P2 (place 0) fuel n1 (place i) = some (o, none))) := by
  intro fuel
  induction fuel with
  | zero =>
      intro i n1 hi hfuel
      omega
  | succ fuel ih =>
      intro i n1 hi hfuel
      simp only [ColoredAp.find]
      -- the search stops here, goes on to the next place, or has come round
      cases hP2 : P2 (place i) with
      | true =>
          rw [if_pos rfl]
          refine ⟨_, i, Nat.le_refl i, fun j hij hji => by omega,
            Or.inl ⟨hi, hP2, last_cons (Nat.lt_succ_self i) ?_, rfl⟩⟩
          exact Or.inr ⟨fun j hij hji => by omega, rfl⟩
      | false =>
          rw [if_neg Bool.false_ne_true, h.single, Option.bind_some]
          have hclear : ∀ {k : Nat}, (∀ j, i + 1 ≤ j → j < k → P2 (place j) = false) →
              ∀ j, i ≤ j → j < k → P2 (place j) = false := by
            intro k hk j hij hjk
            obtain rfl | hlt := Nat.eq_or_lt_of_le hij
            · exact hP2
            · exact hk j hlt hjk
          by_cases hend : i + 1 = round
          · rw [if_pos (by rw [hend, h.back])]
            refine ⟨_, round, hi.le, hclear fun j hij hjk => by omega,
              Or.inr ⟨rfl, last_cons hi ?_, rfl⟩⟩
            exact Or.inr ⟨fun j hij hjk => by omega, rfl⟩
          · have hi' : i + 1 < round := by omega
            rw [if_neg fun heq => Nat.succ_ne_zero i (h.inj _ hi' _ h.pos heq)]
            obtain ⟨o, k, hik, hk, hcases⟩ := ih _ _ hi' (by omega)
            refine ⟨o, k, by omega, hclear hk, ?_⟩
            obtain ⟨hlt, hP, hlast, hfind⟩ | ⟨heq, hlast, hfind⟩ := hcases
            · exact Or.inl ⟨hlt, hP, last_cons (by omega) hlast, hfind⟩
            · exact Or.inr ⟨heq, last_cons hi hlast, hfind⟩

/-- **A segment** goes up to before the next colour. -/
theorem Tour.segment_spec (h : Tour A place round) {k : Nat}
    (hcolored : A.isColored (place k) = true) :
    ∀ (fuel i : Nat), i < k → k - i ≤ fuel →
      (∀ j, i < j → j < k → A.isColored (place j) = false) →
      ∃ l, A.segment (place k) fuel (place i) = some l ∧
        ∀ x, x ∈ l ↔ ∃ j, i ≤ j ∧ j < k ∧ x = place j := by
  intro fuel
  induction fuel with
  | zero =>
      intro i hik hfuel _
      omega
  | succ fuel ih =>
      intro i hik hfuel hclear
      simp only [ColoredAp.segment]
      rw [h.single, Option.bind_some]
      by_cases hend : i + 1 = k
      · rw [hend, if_pos hcolored, if_pos rfl]
        refine ⟨_, rfl, fun x => ?_⟩
        rw [List.mem_singleton]
        constructor
        · exact fun hx => ⟨i, Nat.le_refl i, hik, hx⟩
        · rintro ⟨j, hij, hjk, hx⟩
          obtain rfl : j = i := by omega
          exact hx
      · -- the next place has no colour: the segment goes on
        rw [if_neg (by rw [hclear (i + 1) (Nat.lt_succ_self i) (by omega)]; exact Bool.false_ne_true)]
        obtain ⟨l, hl, hmem⟩ := ih (i + 1) (by omega) (by omega)
          fun j hij hjk => hclear j (by omega) hjk
        refine ⟨place i :: l, by rw [hl]; rfl, fun x => ?_⟩
        rw [List.mem_cons, hmem]
        constructor
        · rintro (hx | ⟨j, hij, hjk, hx⟩)
          · exact ⟨i, Nat.le_refl i, hik, hx⟩
          · exact ⟨j, by omega, hjk, hx⟩
        · rintro ⟨j, hij, hjk, hx⟩
          obtain rfl | hlt := Nat.eq_or_lt_of_le hij
          · exact Or.inl hx
          · exact Or.inr ⟨j, hlt, hjk, hx⟩

/-- **The walk of `checkAp`** comes once round. -/
theorem Tour.visit_spec (h : Tour A place round) {p : G.Node} (hp : ∀ k, place k ≠ p) :
    ∀ (fuel i : Nat) (visited : Finset G.Node), i < round → round - i ≤ fuel →
      (∀ x, x ∈ visited ↔ ∃ j < i, x = place j) →
      ∃ v, A.visit p (place 0) fuel visited (place i) = some v ∧
        ∀ x, x ∈ v ↔ ∃ j < round, x = place j := by
  intro fuel
  induction fuel with
  | zero =>
      intro i _ hi hfuel _
      omega
  | succ fuel ih =>
      intro i visited hi hfuel hvisited
      have hnew : place i ∉ visited := by
        rw [hvisited]
        rintro ⟨j, hj, heq⟩
        have := h.inj i hi j (by omega) heq
        omega
      have hinsert : ∀ x, x ∈ insert (place i) visited ↔ ∃ j < i + 1, x = place j := by
        intro x
        rw [Finset.mem_insert, hvisited]
        constructor
        · rintro (hx | ⟨j, hj, hx⟩)
          · exact ⟨i, Nat.lt_succ_self i, hx⟩
          · exact ⟨j, by omega, hx⟩
        · rintro ⟨j, hj, hx⟩
          obtain rfl | hlt := Nat.eq_or_lt_of_le (Nat.le_of_lt_succ hj)
          · exact Or.inl hx
          · exact Or.inr ⟨j, hlt, hx⟩
      simp only [ColoredAp.visit]
      rw [if_neg (not_or.2 ⟨hp i, hnew⟩), h.single, Option.bind_some]
      by_cases hend : i + 1 = round
      · -- the tour is back at its start
        rw [if_pos (by rw [hend, h.back])]
        exact ⟨_, rfl, fun x => by rw [hinsert, hend]⟩
      · have hi' : i + 1 < round := by omega
        rw [if_neg fun heq => Nat.succ_ne_zero i (h.inj _ hi' _ h.pos heq)]
        exact ih _ _ hi' (by omega) hinsert

/-- The blue places are those up to `i` and after `j`, the red ones are between. -/
def Apart (A : ColoredAp G) (place : Nat → G.Node) (round i j : Nat) : Prop :=
  i < j ∧ j < round ∧ (∀ c < round, A.isBlue (place c) = true → c ≤ i ∨ j < c) ∧
    ∀ c < round, A.isRed (place c) = true → i < c ∧ c ≤ j

/-- Where the colours change: `b` and `r` are the last places of the first blue and the first red
block, `b'` and `r'` the first ones after them. -/
structure Blocks (A : ColoredAp G) (place : Nat → G.Node) (round b r' r b' : Nat) : Prop where
  blue : A.isBlue (place b) = true
  no_blue : ∀ j, b < j → j < r' → A.isBlue (place j) = false
  red' : A.isRed (place r') = true
  no_red : ∀ j < r', A.isRed (place j) = false
  red : A.isRed (place r) = true
  no_red' : ∀ j, r < j → j < b' → A.isRed (place j) = false
  no_blue' : ∀ j, r' ≤ j → j < b' → A.isBlue (place j) = false
  blue' : A.isBlue (place b') = true
  lt : b < r'
  le : r' ≤ r
  lt' : r < b'
  le' : b' ≤ round

/-- **Two blocks only**: then they can be told apart, from the end of each up to the next one. -/
theorem Blocks.apart_iff {b r' r b' : Nat} (h : Blocks A place round b r' r b')
    (honly : ∀ j, b' ≤ j → j < round → A.isRed (place j) = false) (x : G.Node) :
    ((∃ j, b ≤ j ∧ j < r' ∧ x = place j) ∨ ∃ j, r ≤ j ∧ j < b' ∧ x = place j) ↔
      ∃ i j, Apart A place round i j ∧ (x = place i ∨ x = place j) := by
  have hlt := h.lt
  have hle := h.le
  have hlt' := h.lt'
  have hle' := h.le'
  -- between the blocks the places have one colour at most, so a cut can only lie there
  have hblue : ∀ c, A.isBlue (place c) = true → c ≤ b ∨ b' ≤ c := by
    intro c hc
    by_contra hnot
    push Not at hnot
    obtain hcr | hrc := Nat.lt_or_ge c r'
    · rw [h.no_blue c hnot.1 hcr] at hc
      cases hc
    · rw [h.no_blue' c hrc hnot.2] at hc
      cases hc
  have hred : ∀ c < round, A.isRed (place c) = true → r' ≤ c ∧ c ≤ r := by
    intro c hcround hc
    by_contra hnot
    have hor : c < r' ∨ (r < c ∧ c < b') ∨ b' ≤ c := by omega
    obtain hcr | ⟨hrc, hcb⟩ | hbc := hor
    · rw [h.no_red c hcr] at hc
      cases hc
    · rw [h.no_red' c hrc hcb] at hc
      cases hc
    · rw [honly c hbc hcround] at hc
      cases hc
  have happart : ∀ i j, b ≤ i → i < r' → r ≤ j → j < b' → Apart A place round i j := by
    intro i j hbi hir hrj hjb
    refine ⟨by omega, by omega, fun c _ hc => ?_, fun c hcround hc => ?_⟩
    · have := hblue c hc
      omega
    · have := hred c hcround hc
      omega
  constructor
  · rintro (⟨j, hbj, hjr, hx⟩ | ⟨j, hrj, hjb, hx⟩)
    · exact ⟨j, r, happart j r hbj hjr (Nat.le_refl r) hlt', Or.inl hx⟩
    · exact ⟨b, j, happart b j (Nat.le_refl b) hlt hrj hjb, Or.inr hx⟩
  · rintro ⟨i, j, ⟨hij, hjround, hblues, hreds⟩, hx⟩
    have hr' := hreds r' (by omega) h.red'
    have hr := hreds r (by omega) h.red
    have hb := hblues b (by omega) h.blue
    have hjb : j < b' := by
      obtain heq | hlt := Nat.eq_or_lt_of_le hle'
      · omega
      · have := hblues b' hlt h.blue'
        omega
    obtain hx | hx := hx
    · exact Or.inl ⟨i, by omega, by omega, hx⟩
    · exact Or.inr ⟨j, by omega, hjb, hx⟩

/-- With a third block, they cannot. -/
theorem Blocks.not_apart {b r' r b' : Nat} (h : Blocks A place round b r' r b') {k : Nat}
    (hk : b' ≤ k) (hround : k < round) (hred : A.isRed (place k) = true) (i j : Nat) :
    ¬ Apart A place round i j := by
  rintro ⟨hij, hjround, hblues, hreds⟩
  have hle := h.le
  have hlt' := h.lt'
  have hr' := hreds r' (by omega) h.red'
  have hb' := hblues b' (by omega) h.blue'
  have hk' := hreds k hround hred
  omega

/-- **`constructBinaryRelation`** takes the nodes from the end of each block up to the next one. -/
theorem Tour.construct_spec (h : Tour A place round) {b r' r b' : Nat}
    (hblocks : Blocks A place round b r' r b') {fuel : Nat} (hfuel : round ≤ fuel) :
    ∃ l, A.constructBinaryRelation (place b) (place b') (place r') (place r) fuel = some l ∧
      ∀ x, x ∈ l ↔ (∃ j, b ≤ j ∧ j < r' ∧ x = place j) ∨ ∃ j, r ≤ j ∧ j < b' ∧ x = place j := by
  have hlt := hblocks.lt
  have hle := hblocks.le
  have hlt' := hblocks.lt'
  have hle' := hblocks.le'
  have hcolored : ∀ j, A.isColored (place j) = (A.isBlue (place j) || A.isRed (place j)) :=
    fun _ => rfl
  obtain ⟨l₁, hl₁, hmem₁⟩ := h.segment_spec
    (by rw [hcolored, hblocks.red', Bool.or_true]) fuel b hlt (by omega) fun j hbj hjr => by
      rw [hcolored, hblocks.no_blue j hbj hjr, hblocks.no_red j hjr]
      rfl
  obtain ⟨l₂, hl₂, hmem₂⟩ := h.segment_spec
    (by rw [hcolored, hblocks.blue', Bool.true_or]) fuel r hlt' (by omega) fun j hrj hjb => by
      rw [hcolored, hblocks.no_blue' j (by omega) hjb, hblocks.no_red' j hrj hjb]
      rfl
  refine ⟨l₁ ++ l₂, ?_, fun x => by rw [List.mem_append, hmem₁, hmem₂]⟩
  rw [ColoredAp.constructBinaryRelation]
  rw [hl₁, Option.bind_some, hl₂]
  rfl

/-- **The walks of `computeDOD`** find out whether there are two blocks only. -/
theorem Tour.computeDOD_spec (h : Tour A place round) (hcheck : A.checkAp = true)
    (hfirst : A.nodes.find? (· ∈ A.blues) = some (place 0)) (hblue : A.isBlue (place 0) = true)
    (hdisjoint : ∀ x, A.isBlue x = true → A.isRed x = false)
    (hred : ∃ c < round, A.isRed (place c) = true) {fuel : Nat} (hfuel : round ≤ fuel) :
    ∃ l, A.computeDOD fuel = some l ∧
      ∀ x, x ∈ l ↔ ∃ i j, Apart A place round i j ∧ (x = place i ∨ x = place j) := by
  have hnot : ∀ {k : Nat}, A.isRed (place k) = true → A.isBlue (place k) = true → False := by
    intro k hr hb
    rw [hdisjoint _ hb] at hr
    cases hr
  rw [ColoredAp.computeDOD]
  rw [if_pos hcheck, hfirst, Option.bind_some]
  -- from the first blue node to the first red one
  obtain ⟨o₁, r', -, hclear₁, ⟨hround₁, hred', hlast₁, hfind₁⟩ | ⟨rfl, -, -⟩⟩ :=
    h.find_spec A.isBlue A.isRed fuel 0 none h.pos (by omega)
  · obtain ⟨b, -, hbr, hb, hb_last, rfl⟩ | ⟨hnone, -⟩ := hlast₁
    · have hbr' : b ≠ r' := fun heq => hnot hred' (heq ▸ hb)
      simp only [hfind₁, Option.bind_some]
      -- from there to the next blue one, or once round
      obtain ⟨o₂, b', hrb, hclear₂, hcases₂⟩ :=
        h.find_spec A.isRed A.isBlue fuel r' none hround₁ (by omega)
      have hmake : ∀ {k : Nat}, k ≤ b' + 1 → b' ≤ k → b' ≤ round →
          A.isBlue (place b') = true → Last place A.isRed r' k none o₂ → r' < b' →
          ∃ r, o₂ = some (place r) ∧ Blocks A place round b r' r b' := by
        intro k hk hk' hround hb' hlast hrb
        obtain ⟨r, hr'r, hrk, hr, hr_last, rfl⟩ | ⟨hnone, -⟩ := hlast
        · have hrb' : r ≠ b' := fun heq => hnot hr (heq ▸ hb')
          exact ⟨r, rfl, hb, fun j hbj hjr => hb_last j hbj (by omega), hred',
            fun j hjr => hclear₁ j (Nat.zero_le j) hjr, hr,
            fun j hrj hjb => hr_last j hrj (by omega), fun j hrj hjb => hclear₂ j hrj hjb, hb',
            by omega, hr'r, by omega, hround⟩
        · rw [hnone r' (Nat.le_refl r') (by omega)] at hred'
          cases hred'
      obtain ⟨hround₂, hb', hlast₂, hfind₂⟩ | ⟨rfl, hlast₂, hfind₂⟩ := hcases₂
      · have hne : r' ≠ b' := fun heq => hnot hred' (heq ▸ hb')
        obtain ⟨r, rfl, hblocks⟩ :=
          hmake (Nat.le_refl _) (Nat.le_succ _) hround₂.le hb' hlast₂ (by omega)
        simp only [hfind₂, Option.bind_some]
        -- from there looking for red ones, up to the end of the round
        obtain ⟨o₃, k, hbk, hclear₃, ⟨hround₃, hk, hlast₃, hfind₃⟩ | ⟨rfl, hlast₃, hfind₃⟩⟩ :=
          h.find_spec A.isRed A.isRed fuel b' none hround₂ (by omega)
        · obtain ⟨_, -, -, -, -, rfl⟩ | ⟨hnone, -⟩ := hlast₃
          · simp only [hfind₃, Option.bind_some]
            refine ⟨[], rfl, fun x => iff_of_false List.not_mem_nil ?_⟩
            rintro ⟨i, j, hapart, -⟩
            exact hblocks.not_apart hbk hround₃ hk i j hapart
          · rw [hnone k hbk (Nat.lt_succ_self k)] at hk
            cases hk
        · obtain ⟨j, hbj, hjk, hj, -, -⟩ | ⟨-, rfl⟩ := hlast₃
          · rw [hclear₃ j hbj hjk] at hj
            cases hj
          · simp only [hfind₃, Option.bind_some]
            obtain ⟨l, hl, hmem⟩ := h.construct_spec hblocks hfuel
            exact ⟨l, hl, fun x => (hmem x).trans (hblocks.apart_iff hclear₃ x)⟩
      · obtain ⟨r, rfl, hblocks⟩ := hmake (Nat.le_succ _) (Nat.le_refl _) (Nat.le_refl _)
          (h.back ▸ hblue) hlast₂ hround₁
        simp only [hfind₂, Option.bind_some]
        obtain ⟨l, hl, hmem⟩ := h.construct_spec hblocks hfuel
        rw [h.back] at hl
        exact ⟨l, hl, fun x => (hmem x).trans
          (hblocks.apart_iff (fun j hbj hjk => by omega) x)⟩
    · rw [hnone 0 (Nat.le_refl 0) (Nat.succ_pos r')] at hblue
      cases hblue
  · obtain ⟨c, hc, hcred⟩ := hred
    rw [hclear₁ c (Nat.zero_le c) hc] at hcred
    cases hcred

end Tours

/-! ## The relation -/

theorem dod_iff {p n m : G.Node} : G.DOD p n m ↔
    (G.Reaching n p ∧ G.Reaching m p) ∧ n ≠ m ∧
      (∃ s ∈ G.successors p, Inevitable G.successors (· = n) (· = m) s) ∧
        ∃ s ∈ G.successors p, Inevitable G.successors (· = m) (· = n) s := by
  rw [CDGraph.DOD]
  simp only [onAllPaths_iff, reachedBefore_iff]
  constructor
  · rintro ⟨hn, hm, ⟨s, hs, hne, hnm⟩, s', hs', -, hmn⟩
    exact ⟨⟨hn, hm⟩, hne, ⟨s, hs, hnm⟩, s', hs', hmn⟩
  · rintro ⟨⟨hn, hm⟩, hne, ⟨s, hs, hnm⟩, s', hs', hmn⟩
    exact ⟨hn, hm, ⟨s, hs, hne, hnm⟩, s', hs', hne.symm, hmn⟩

theorem dod_symm {p n m : G.Node} (h : G.DOD p n m) : G.DOD p m n := by
  obtain ⟨hboth, hne, hfirst, hsecond⟩ := dod_iff.1 h
  exact dod_iff.2 ⟨hboth.symm, hne.symm, hsecond, hfirst⟩

/-- The predicate itself is not one of the two. -/
theorem dod_ne {p n m : G.Node} (h : G.DOD p n m) : n ≠ p := by
  obtain ⟨⟨-, hm⟩, hne, hfirst, -⟩ := dod_iff.1 h
  intro heq
  exact DODRanganath.ne_of_reaching hne (heq ▸ hm) hfirst heq.symm

section Predicate

variable {p s1 s2 : G.Node} {nodes : Finset G.Node}

/-- The two successors decide differently. -/
theorem dod_split (hsucc : G.successors p = [s1, s2]) {n m : G.Node} (h : G.DOD p n m) :
    (Inevitable G.successors (· = n) (· = m) s1 ∧ Inevitable G.successors (· = m) (· = n) s2) ∨
      (Inevitable G.successors (· = m) (· = n) s1 ∧
        Inevitable G.successors (· = n) (· = m) s2) := by
  obtain ⟨-, hne, ⟨s, hs, hnm⟩, s', hs', hmn⟩ := dod_iff.1 h
  have hcases : ∀ {x : G.Node}, x ∈ G.successors p → x = s1 ∨ x = s2 := by
    simp [hsucc]
  obtain rfl | rfl := hcases hs
  · obtain rfl | rfl := hcases hs'
    · exact absurd hmn (hnm.asymm hne)
    · exact Or.inl ⟨hnm, hmn⟩
  · obtain rfl | rfl := hcases hs'
    · exact Or.inr ⟨hmn, hnm⟩
    · exact absurd hmn (hnm.asymm hne)

/-- A node that both successors may come to first leaves nothing to decide. -/
theorem not_dod_of_hits (hsucc : G.successors p = [s1, s2])
    (hnodes : ∀ n, n ∈ nodes ↔ G.Reaching n p) {c : G.Node}
    (h1 : Hits G.successors (· ∈ nodes) s1 c) (h2 : Hits G.successors (· ∈ nodes) s2 c)
    (n m : G.Node) : ¬ G.DOD p n m := by
  intro h
  obtain ⟨⟨hn, hm⟩, hne, -⟩ := dod_iff.1 h
  have hgoal : ∀ {k : G.Node}, G.Reaching k p → ∀ x, x = k → x ∈ nodes := fun hk x hx =>
    hx ▸ (hnodes _).2 hk
  obtain ⟨hfirst, hsecond⟩ | ⟨hfirst, hsecond⟩ := dod_split hsucc h
  · exact (hfirst.hits (hgoal hn) h1).asymm hne (hsecond.hits (hgoal hm) h2)
  · exact (hfirst.hits (hgoal hm) h1).asymm hne.symm (hsecond.hits (hgoal hn) h2)

/-- From both successors some node of `Ap` is hit first. -/
theorem exists_hits_succ (hnodes : ∀ n, n ∈ nodes ↔ G.Reaching n p) {n : G.Node}
    (hn : G.Reaching n p) (hnp : n ≠ p) {s : G.Node} (hs : s ∈ G.successors p) :
    ∃ c, Hits G.successors (· ∈ nodes) s c := by
  have hreach : G.Reaching n s := (hn.of_ne hnp.symm).2 s hs
  exact exists_hits
    (hreach.mono (fun x (hx : x = n) => hx ▸ (hnodes n).2 hn) fun _ => id)

theorem length_filter_nodes (nodes : Finset G.Node) :
    (G.nodes.filter (· ∈ nodes)).length = nodes.card := by
  rw [← List.toFinset_card_of_nodup (G.nodup_nodes.filter _)]
  congr 1
  ext x
  simp

/-- A list without duplicates, with just one member. -/
theorem eq_singleton {l : List G.Node} (hl : l.Nodup) {c : G.Node} (hc : ∀ x, x ∈ l ↔ x = c) :
    l = [c] := by
  cases l with
  | nil => exact absurd ((hc c).2 rfl) List.not_mem_nil
  | cons a rest =>
      obtain rfl := (hc a).1 List.mem_cons_self
      cases rest with
      | nil => rfl
      | cons b rest =>
          obtain rfl := (hc b).1 (List.mem_cons_of_mem _ List.mem_cons_self)
          exact absurd List.mem_cons_self (List.nodup_cons.1 hl).1

/-! ## The circuit -/

/-- The node that comes next in `Ap`. -/
def nextOn (nodes : Finset G.Node) (n : G.Node) : G.Node :=
  ((firstReachable nodes n).head?).getD n

section Circuit

variable {a b : G.Node} (hnodes : ∀ n, n ∈ nodes ↔ G.Reaching n p)
  (hfork : Fork G.successors p a b)
include hnodes

theorem mem_nodes_eq : (fun x => x ∈ nodes) = Sure G.successors p :=
  funext fun x => propext (hnodes x)

theorem mem_firstReachable_sure (start c : G.Node) :
    c ∈ firstReachable nodes start ↔ First G.successors (Sure G.successors p) start c := by
  rw [mem_firstReachable, mem_nodes_eq hnodes]

include hfork

/-- Behind the fork, every node has one edge. -/
theorem firstReachable_eq {n : G.Node} (hn : Sure G.successors p n) (hnp : n ≠ p) :
    firstReachable nodes n = [nextOn nodes n] ∧
      First G.successors (Sure G.successors p) n (nextOn nodes n) := by
  obtain ⟨c, hc⟩ := hfork.exists_first hn hnp
  have heq : firstReachable nodes n = [c] := by
    refine eq_singleton (nodup_firstReachable nodes n) fun x => ?_
    rw [mem_firstReachable_sure hnodes]
    constructor
    · exact fun hx => hfork.first_unique hn hnp hx hc
    · rintro rfl
      exact hc
  have hnext : nextOn nodes n = c := by
    rw [nextOn]
    rw [heq]
    rfl
  rw [hnext]
  exact ⟨heq, hc⟩

theorem first_nextOn : ∀ n, Sure G.successors p n → n ≠ p →
    First G.successors (Sure G.successors p) n (nextOn nodes n) := fun _ hn hnp =>
  (firstReachable_eq hnodes hfork hn hnp).2

/-- **The circuit is a tour.** -/
theorem tour {A : ColoredAp G} (hA : A.successors = firstReachable nodes) {n : G.Node}
    (hn : Sure G.successors p n) (hnp : n ≠ p) :
    Tour A (fun k => (nextOn nodes)^[k] n) (Function.minimalPeriod (nextOn nodes) n) where
  single := by
    intro k
    obtain ⟨hk, hkp⟩ := hfork.sure_iterate (first_nextOn hnodes hfork) hn hnp k
    show getSingleSuccessor (A.successors _) = _
    rw [hA, (firstReachable_eq hnodes hfork hk hkp).1]
    exact congrArg some (Function.iterate_succ_apply' (nextOn nodes) k n).symm
  pos := Function.minimalPeriod_pos_of_mem_periodicPts
    (hfork.mem_periodicPts (first_nextOn hnodes hfork) hn hnp)
  back := Function.iterate_minimalPeriod
  inj := fun _ hk _ hl => (Function.iterate_eq_iterate_iff_of_lt_minimalPeriod hk hl).1

/-- A round takes all nodes of `Ap` but the predicate. -/
theorem mem_round {n : G.Node} (hn : Sure G.successors p n) (hnp : n ≠ p) (x : G.Node) :
    (∃ j < Function.minimalPeriod (nextOn nodes) n, x = (nextOn nodes)^[j] n) ↔
      x ∈ nodes.erase p := by
  rw [Finset.mem_erase, hnodes]
  constructor
  · rintro ⟨j, -, rfl⟩
    exact (hfork.sure_iterate (first_nextOn hnodes hfork) hn hnp j).symm
  · rintro ⟨hxp, hx⟩
    obtain ⟨j, hj, hjx⟩ := hfork.exists_place (first_nextOn hnodes hfork) hn hnp hx hxp
    exact ⟨j, hj, hjx.symm⟩

theorem minimalPeriod_le {n : G.Node} (hn : Sure G.successors p n) (hnp : n ≠ p) :
    Function.minimalPeriod (nextOn nodes) n ≤ nodes.card := by
  have hle := Finset.card_le_card_of_injOn (s := Finset.range (Function.minimalPeriod (nextOn nodes) n))
    (t := nodes) (fun k => (nextOn nodes)^[k] n)
    (fun k _ => (hnodes _).2 (hfork.sure_iterate (first_nextOn hnodes hfork) hn hnp k).1)
    (fun k hk l hl => (Function.iterate_eq_iterate_iff_of_lt_minimalPeriod
      (by simpa using hk) (by simpa using hl)).1)
  rwa [Finset.card_range] at hle

/-- **The assertions of `checkAp` hold.** -/
theorem checkAp_eq_true {A : ColoredAp G} (hAnodes : A.nodes = G.nodes.filter (· ∈ nodes))
    (hA : A.successors = firstReachable nodes) : A.checkAp = true := by
  have hp : p ∈ nodes := (hnodes p).2 (.here rfl)
  have hother : ∀ x, x ∈ nodes → x ≠ p → Sure G.successors p x ∧
      A.successors x = [nextOn nodes x] := fun x hx hxp =>
    ⟨(hnodes x).1 hx, hA ▸ (firstReachable_eq hnodes hfork ((hnodes x).1 hx) hxp).1⟩
  -- the predicate is the only node with several edges
  have hmany : 1 < (A.successors p).length := by
    rw [hA]
    by_contra hlen
    have ha := (mem_firstReachable_sure hnodes p a).2 hfork.first
    have hb := (mem_firstReachable_sure hnodes p b).2 hfork.second
    match hl : firstReachable nodes p with
    | [] => simp [hl] at ha
    | [c] =>
        rw [hl, List.mem_singleton] at ha hb
        exact hfork.ne (ha.trans hb.symm)
    | _ :: _ :: _ => simp [hl] at hlen
  have hmemA : ∀ x, x ∈ A.nodes ↔ x ∈ nodes := fun x => by simp [hAnodes]
  have hnodupA : A.nodes.Nodup := hAnodes ▸ G.nodup_nodes.filter _
  obtain ⟨l₁, l₂, hsplit⟩ := List.append_of_mem ((hmemA p).2 hp)
  rw [hsplit] at hnodupA
  have hl₁ : ∀ x ∈ l₁, x ∈ nodes ∧ x ≠ p := by
    intro x hx
    refine ⟨(hmemA x).1 (by simp [hsplit, hx]), ?_⟩
    rintro rfl
    exact (List.nodup_append.1 hnodupA).2.2 x hx x List.mem_cons_self rfl
  have hl₂ : ∀ x ∈ l₂, x ∈ nodes ∧ x ≠ p := by
    intro x hx
    refine ⟨(hmemA x).1 (by simp [hsplit, hx]), ?_⟩
    rintro rfl
    exact (List.nodup_cons.1 (List.nodup_append.1 hnodupA).2.1).1 hx
  have hdrop : (A.nodes.dropWhile fun n => (A.successors n).length ≤ 1) = p :: l₂ := by
    rw [hsplit, List.dropWhile_append_of_pos, List.dropWhile_cons_of_neg]
    · simpa using hmany
    · intro x hx
      simp [(hother x (hl₁ x hx).1 (hl₁ x hx).2).2]
  -- the first edge of the predicate leads to the cycle
  obtain ⟨c, hc⟩ : ∃ c, (A.successors p).head? = some c := by
    cases hl : A.successors p with
    | nil => simp [hl] at hmany
    | cons c l => exact ⟨c, rfl⟩
  have hfirst : First G.successors (Sure G.successors p) p c := by
    refine (mem_firstReachable_sure hnodes p c).1 ?_
    rw [← hA]
    exact List.mem_of_head? hc
  obtain ⟨_, -, hcs, -⟩ := id hfirst
  have hcp := hfork.ne_of_first_start hfirst
  have hround := minimalPeriod_le hnodes hfork hcs hcp
  have hlength : A.nodes.length = nodes.card := by rw [hAnodes, length_filter_nodes]
  obtain ⟨v, hv, hmemv⟩ := (tour hnodes hfork hA hcs hcp).visit_spec
    (fun k => (hfork.sure_iterate (first_nextOn hnodes hfork) hcs hcp k).2)
    (A.nodes.length + 1) 0 ∅ (tour hnodes hfork hA hcs hcp).pos (by omega)
    (fun x => by simp)
  have hcard : v.card = A.nodes.length - 1 := by
    have : v = nodes.erase p := Finset.ext fun x => by
      rw [hmemv, mem_round hnodes hfork hcs hcp]
    rw [this, Finset.card_erase_of_mem hp, hlength]
  have hrest : l₂.all (fun n => (A.successors n).length = 1 && A.single n ≠ some n) = true := by
    rw [List.all_eq_true]
    intro x hx
    obtain ⟨hxs, hxone⟩ := hother x (hl₂ x hx).1 (hl₂ x hx).2
    have hsingle : A.single x = some (nextOn nodes x) := getSingleSuccessor_eq_some.2 hxone
    have hself : nextOn nodes x ≠ x := by
      intro heq
      have hnext := first_nextOn hnodes hfork x hxs (hl₂ x hx).2
      rw [heq] at hnext
      exact hfork.first_ne_self hxs (hl₂ x hx).2 hnext
    simp [hxone, hsingle, hself]
  rw [ColoredAp.checkAp]
  rw [hdrop]
  simp only [hrest, Bool.true_and, hc, Option.any_some]
  rw [show A.visit p c (A.nodes.length + 1) ∅ c = some v from hv]
  simp [hcard]

/-- **Places that can be told apart are dependent**, and the other way round. -/
theorem apart_iff_dod (hsucc : G.successors p = [s1, s2]) {A : ColoredAp G}
    (hblues : A.blues = colorOf nodes s1) (hreds : A.reds = colorOf nodes s2) {n : G.Node}
    (hn : Sure G.successors p n) (hnp : n ≠ p) (hblue : A.isBlue n = true) {i j : Nat}
    (hij : i < j) (hj : j < Function.minimalPeriod (nextOn nodes) n) :
    Apart A (fun k => (nextOn nodes)^[k] n) (Function.minimalPeriod (nextOn nodes) n) i j ↔
      G.DOD p ((nextOn nodes)^[i] n) ((nextOn nodes)^[j] n) := by
  have hf := first_nextOn hnodes hfork
  have hsure := hfork.sure_iterate hf hn hnp
  have hmem : ∀ k, (nextOn nodes)^[k] n ∈ nodes := fun k => (hnodes _).2 (hsure k).1
  have hisBlue : ∀ x, A.isBlue x = true ↔ Hits G.successors (· ∈ nodes) s1 x := fun x => by
    rw [← mem_colorOf, ← hblues]
    exact decide_eq_true_iff
  have hisRed : ∀ x, A.isRed x = true ↔ Hits G.successors (· ∈ nodes) s2 x := fun x => by
    rw [← mem_colorOf, ← hreds]
    exact decide_eq_true_iff
  have hne : (nextOn nodes)^[i] n ≠ (nextOn nodes)^[j] n := fun heq =>
    hij.ne ((Function.iterate_eq_iterate_iff_of_lt_minimalPeriod (hij.trans hj) hj).1 heq)
  have hgoal : ∀ {k : Nat} (x : G.Node), x = (nextOn nodes)^[k] n → x ∈ nodes := fun x hx =>
    hx ▸ hmem _
  constructor
  · rintro ⟨-, -, hbluec, hredc⟩
    -- what is so from the places of a colour is so from the successor
    have hfrom : ∀ {goal bad : G.Node → Prop}, (∀ x, bad x → x ∈ nodes) → ∀ s ∈ G.successors p,
        (∀ c < Function.minimalPeriod (nextOn nodes) n,
          Hits G.successors (· ∈ nodes) s ((nextOn nodes)^[c] n) →
            Inevitable G.successors goal bad ((nextOn nodes)^[c] n)) →
        Inevitable G.successors goal bad s := by
      intro goal bad hbad s hs hall
      have hreach : G.Reaching n s := (hn.of_ne hnp.symm).2 s hs
      have hinev : Inevitable G.successors (· ∈ nodes) (fun _ => False) s :=
        hreach.mono (fun x (hx : x = n) => hx ▸ (hnodes n).2 hn) fun _ => id
      refine inevitable_of_hits hbad hinev fun c hc => ?_
      have hcs : Sure G.successors p c := (hnodes c).1 hc.1
      have hcp : c ≠ p := by
        refine hfork.ne_of_first_start ⟨s, hs, ?_⟩
        rw [← mem_nodes_eq hnodes]
        exact hc
      obtain ⟨k, hk, rfl⟩ := hfork.exists_place hf hn hnp hcs hcp
      exact hall k hk hc
    refine dod_iff.2 ⟨⟨(hsure i).1, (hsure j).1⟩, hne, ⟨s1, by simp [hsucc], ?_⟩, s2, by simp [hsucc], ?_⟩
    · exact hfrom hgoal s1 (by simp [hsucc]) fun c hc hhit =>
        (hfork.before_iff hf hn hnp hij hj hc).1.2 (hbluec c hc ((hisBlue _).2 hhit))
    · exact hfrom hgoal s2 (by simp [hsucc]) fun c hc hhit =>
        (hfork.before_iff hf hn hnp hij hj hc).2.2 (hredc c hc ((hisRed _).2 hhit))
  · intro hdod
    obtain ⟨hfirst, hsecond⟩ | ⟨hfirst, -⟩ := dod_split hsucc hdod
    · refine ⟨hij, hj, fun c hc hcolor => ?_, fun c hc hcolor => ?_⟩
      · exact (hfork.before_iff hf hn hnp hij hj hc).1.1 (hfirst.hits hgoal ((hisBlue _).1 hcolor))
      · exact (hfork.before_iff hf hn hnp hij hj hc).2.1 (hsecond.hits hgoal ((hisRed _).1 hcolor))
    · -- from the blue place 0 the earlier one comes first
      have hzero := (hfork.before_iff hf hn hnp hij hj (Nat.zero_lt_of_lt hj)).2.1
        (hfirst.hits hgoal ((hisBlue n).1 hblue))
      exact absurd hzero.1 (Nat.not_lt_zero i)

/-- **What `computeDOD` finds** behind a fork. -/
theorem computeDOD_of_fork (hsucc : G.successors p = [s1, s2])
    (hdisjoint : ¬ (colorOf nodes s1 ∩ colorOf nodes s2).Nonempty) {fuel : Nat}
    (hfuel : G.size ≤ fuel) :
    ∃ l, (⟨G.nodes.filter (· ∈ nodes), firstReachable nodes, colorOf nodes s1, colorOf nodes s2⟩ :
        ColoredAp G).computeDOD fuel = some l ∧ ∀ x, x ∈ l ↔ ∃ m, G.DOD p x m := by
  let A : ColoredAp G :=
    ⟨G.nodes.filter (· ∈ nodes), firstReachable nodes, colorOf nodes s1, colorOf nodes s2⟩
  have hf := first_nextOn hnodes hfork
  have hsure : ∀ {s c : G.Node}, s ∈ G.successors p → c ∈ colorOf nodes s →
      Sure G.successors p c ∧ c ≠ p := by
    intro s c hs hc
    have hhit := (mem_colorOf nodes s c).1 hc
    refine ⟨(hnodes c).1 hhit.1, hfork.ne_of_first_start ⟨s, hs, ?_⟩⟩
    rw [← mem_nodes_eq hnodes]
    exact hhit
  have hexists : ∀ s ∈ G.successors p, ∃ c, c ∈ colorOf nodes s := by
    intro s hs
    obtain ⟨c, hc⟩ := exists_hits_succ hnodes hfork.sure_first hfork.first_ne hs
    exact ⟨c, (mem_colorOf nodes s c).2 hc⟩
  -- the first blue node
  obtain ⟨n, hn⟩ : ∃ n, A.nodes.find? (· ∈ A.blues) = some n := by
    obtain ⟨c, hc⟩ := hexists s1 (by simp [hsucc])
    cases hfind : A.nodes.find? (· ∈ A.blues) with
    | some n => exact ⟨n, rfl⟩
    | none =>
        have hcnodes : c ∈ A.nodes :=
          List.mem_filter.2 ⟨G.mem_nodes c, by simpa using ((mem_colorOf nodes s1 c).1 hc).1⟩
        have := List.find?_eq_none.1 hfind c hcnodes
        exact absurd (decide_eq_true (show c ∈ A.blues from hc)) this
  have hnblue : A.isBlue n = true := List.find?_some hn
  obtain ⟨hns, hnp⟩ := hsure (s := s1) (by simp [hsucc]) (of_decide_eq_true hnblue)
  have hplace : ∀ {x : G.Node}, Sure G.successors p x → x ≠ p →
      ∃ k < Function.minimalPeriod (nextOn nodes) n, (nextOn nodes)^[k] n = x := fun hx hxp =>
    hfork.exists_place hf hns hnp hx hxp
  have hred : ∃ c < Function.minimalPeriod (nextOn nodes) n, A.isRed ((nextOn nodes)^[c] n) = true := by
    obtain ⟨c, hc⟩ := hexists s2 (by simp [hsucc])
    obtain ⟨hcs, hcp⟩ := hsure (by simp [hsucc]) hc
    obtain ⟨k, hk, rfl⟩ := hplace hcs hcp
    exact ⟨k, hk, decide_eq_true hc⟩
  have hround : Function.minimalPeriod (nextOn nodes) n ≤ fuel := by
    have hcard := Finset.card_le_univ nodes
    rw [Fintype.card_fin] at hcard
    exact (minimalPeriod_le hnodes hfork hns hnp).trans (hcard.trans hfuel)
  obtain ⟨l, hl, hmem⟩ := (tour hnodes hfork (A := A) rfl hns hnp).computeDOD_spec
    (checkAp_eq_true hnodes hfork rfl rfl) hn hnblue
    (fun x hb => by
      rw [Bool.eq_false_iff]
      exact fun hr => hdisjoint
        ⟨x, Finset.mem_inter.2 ⟨of_decide_eq_true hb, of_decide_eq_true hr⟩⟩)
    hred hround
  refine ⟨l, hl, fun x => (hmem x).trans ?_⟩
  constructor
  · rintro ⟨i, j, hapart, hx⟩
    have hdod := (apart_iff_dod hnodes hfork hsucc (A := A) rfl rfl hns hnp hnblue hapart.1
      hapart.2.1).1 hapart
    obtain rfl | rfl := hx
    · exact ⟨_, hdod⟩
    · exact ⟨_, dod_symm hdod⟩
  · rintro ⟨m, hdod⟩
    obtain ⟨⟨hx, hm⟩, hne, -⟩ := dod_iff.1 hdod
    obtain ⟨i, hi, rfl⟩ := hplace hx (dod_ne hdod)
    obtain ⟨j, hj, rfl⟩ := hplace hm (dod_ne (dod_symm hdod))
    have hij : i ≠ j := fun heq => hne (heq ▸ rfl)
    obtain hlt | hgt := Nat.lt_or_gt_of_ne hij
    · exact ⟨i, j, (apart_iff_dod hnodes hfork hsucc (A := A) rfl rfl hns hnp hnblue hlt hj).2 hdod,
        Or.inl rfl⟩
    · exact ⟨j, i, (apart_iff_dod hnodes hfork hsucc (A := A) rfl rfl hns hnp hnblue hgt hi).2
        (dod_symm hdod), Or.inr rfl⟩

end Circuit

end Predicate

/-- **The nodes that depend on a predicate** are found when its nodes are right. -/
theorem dependents_spec {colors : AllMaxPath.Colors G} {p : G.Node}
    (hp : (G.successors p).length = 2) (hcolors : ∀ n, n ∈ colors p ↔ G.Reaching n p) {fuel : Nat}
    (hfuel : G.size ≤ fuel) :
    ∃ l, dependents colors p fuel = some l ∧ ∀ n, n ∈ l ↔ ∃ m, G.DOD p n m := by
  obtain ⟨s1, s2, hsucc⟩ := List.length_eq_two.1 hp
  have hself : p ∈ colors p := (hcolors p).2 (.here rfl)
  have hempty : (∀ n m, ¬ G.DOD p n m) → ∀ n, n ∈ ([] : List G.Node) ↔ ∃ m, G.DOD p n m :=
    fun hnone n => iff_of_false List.not_mem_nil fun ⟨m, hm⟩ => hnone n m hm
  rw [dependents, createColoredAp, createAp]
  rw [if_pos hp, if_pos hself]
  by_cases hfew : (G.nodes.filter (· ∈ colors p)).length < 3
  · rw [if_pos hfew]
    refine ⟨[], rfl, hempty fun n m hdod => ?_⟩
    -- the predicate and the two nodes are three
    obtain ⟨⟨hn, hm⟩, hne, -⟩ := dod_iff.1 hdod
    rw [length_filter_nodes] at hfew
    have hsub : ({p, n, m} : Finset G.Node) ⊆ colors p := by
      intro x hx
      simp only [Finset.mem_insert, Finset.mem_singleton] at hx
      obtain rfl | rfl | rfl := hx
      · exact hself
      · exact (hcolors _).2 hn
      · exact (hcolors _).2 hm
    have hcard : ({p, n, m} : Finset G.Node).card = 3 :=
      Finset.card_eq_three.2 ⟨p, n, m, (dod_ne hdod).symm, (dod_ne (dod_symm hdod)).symm, hne, rfl⟩
    have := Finset.card_le_card hsub
    omega
  · rw [if_neg hfew]
    by_cases hone : (firstReachable (colors p) p).length < 2
    · rw [if_pos hone]
      refine ⟨[], rfl, hempty fun n m hdod => ?_⟩
      obtain ⟨⟨hn, -⟩, -⟩ := dod_iff.1 hdod
      obtain ⟨c, hc⟩ := exists_hits_succ hcolors hn (dod_ne hdod) (s := s1) (by simp [hsucc])
      obtain ⟨d, hd⟩ := exists_hits_succ hcolors hn (dod_ne hdod) (s := s2) (by simp [hsucc])
      have hcmem := (mem_firstReachable (colors p) p c).2 ⟨s1, by simp [hsucc], hc⟩
      have hdmem := (mem_firstReachable (colors p) p d).2 ⟨s2, by simp [hsucc], hd⟩
      -- there is only one edge
      have hcd : c = d := by
        match hl : firstReachable (colors p) p with
        | [] => simp [hl] at hcmem
        | [e] =>
            rw [hl, List.mem_singleton] at hcmem hdmem
            exact hcmem.trans hdmem.symm
        | _ :: _ :: _ =>
            rw [hl] at hone
            simp at hone
      exact not_dod_of_hits hsucc hcolors hc (hcd ▸ hd) n m hdod
    · rw [if_neg hone]
      simp only [Option.bind_some, hsucc]
      by_cases hboth : (colorOf (colors p) s1 ∩ colorOf (colors p) s2).Nonempty
      · rw [if_pos hboth]
        obtain ⟨c, hc⟩ := hboth
        obtain ⟨hc1, hc2⟩ := Finset.mem_inter.1 hc
        exact ⟨[], rfl, hempty (not_dod_of_hits hsucc hcolors ((mem_colorOf _ _ _).1 hc1)
          ((mem_colorOf _ _ _).1 hc2))⟩
      · rw [if_neg hboth]
        obtain ⟨a, b, hab⟩ : ∃ a b, Fork G.successors p a b := by
          have hnodup := nodup_firstReachable (colors p) p
          match hl : firstReachable (colors p) p with
          | [] => simp [hl] at hone
          | [e] => simp [hl] at hone
          | a :: b :: rest =>
              rw [hl] at hnodup
              refine ⟨a, b, (mem_firstReachable_sure hcolors p a).1 (by simp [hl]),
                (mem_firstReachable_sure hcolors p b).1 (by simp [hl]), ?_⟩
              rintro rfl
              exact (List.nodup_cons.1 hnodup).1 List.mem_cons_self
        exact computeDOD_of_fork hcolors hab hsucc hboth hfuel

/-! ## All predicates -/

theorem foldlM_spec {colors : AllMaxPath.Colors G} {fuel : Nat} (hfuel : G.size ≤ fuel)
    {l : List G.Node} (hl : ∀ p ∈ l, (G.successors p).length = 2 ∧
      ∀ n, n ∈ colors p ↔ G.Reaching n p) (r : Result G.Node) :
    ∃ r', l.foldlM (fun r p => computeDOD colors fuel p r) r = some r' ∧
      ∀ n p, p ∈ r'.CD n ↔ (p ∈ l ∧ ∃ m, G.DOD p n m) ∨ p ∈ r.CD n := by
  induction l generalizing r with
  | nil => exact ⟨r, rfl, fun n p => by simp⟩
  | cons p l ih =>
      obtain ⟨⟨hp, hcolors⟩, hl⟩ := List.forall_mem_cons.1 hl
      obtain ⟨deps, hdeps, hmem⟩ := dependents_spec hp hcolors hfuel
      obtain ⟨r', hr', hmem'⟩ := ih hl (deps.foldl (fun r n => r.add n p) r)
      refine ⟨r', ?_, fun n q => ?_⟩
      · rw [List.foldlM_cons]
        simp only [computeDOD] at hr' ⊢
        rw [hdeps]
        exact hr'
      · rw [hmem', mem_foldl_add, hmem, List.mem_cons]
        constructor
        · rintro (⟨hq, hdod⟩ | ⟨rfl, hdod⟩ | hr)
          · exact Or.inl ⟨Or.inr hq, hdod⟩
          · exact Or.inl ⟨Or.inl rfl, hdod⟩
          · exact Or.inr hr
        · rintro (⟨rfl | hq, hdod⟩ | hr)
          · exact Or.inr (Or.inl ⟨rfl, hdod⟩)
          · exact Or.inl ⟨hq, hdod⟩
          · exact Or.inr (Or.inr hr)

/-- Only predicates decide. -/
theorem mem_predicates_of_dod {p n m : G.Node} (h : G.DOD p n m) : p ∈ G.predicates := by
  obtain ⟨-, hne, ⟨s, hs, hnm⟩, s', hs', hmn⟩ := dod_iff.1 h
  refine G.mem_predicates_of_ne hs hs' ?_
  rintro rfl
  exact hnm.asymm hne hmn

/-- No predicate is counted as having a node on all its maximal paths that it has not. -/
def CountsRight (G : CDGraph) : Prop :=
  ∀ p ∈ G.predicates, ∀ n, ¬ NTSCD.Miscounted G n p

/-- What `compute` leaves when the predicates are counted right. -/
theorem compute_spec (G : CDGraph) (h : ∀ p ∈ G.predicates, (G.successors p).length = 2)
    (hright : CountsRight G) (extra : Nat) :
    ∃ r, compute G (G.size + 2 + extra) = some r ∧
      ∀ n p, p ∈ r.CD n ↔ p ∈ G.predicates ∧ ∃ m, G.DOD p n m := by
  obtain ⟨colors, hcolors, hmem⟩ := AllMaxPath.compute_spec
    (DODNTSCD.length_successors_lt h) (Nat.le_add_right (G.size + 2) extra)
  obtain ⟨r, hr, hmemr⟩ := foldlM_spec
    (show G.size ≤ G.size + 2 + extra by omega) (l := G.predicates)
    (fun p hp => ⟨h p hp, fun n => by
      rw [hmem, Countdown.counted_iff]
      exact or_iff_left (hright p hp n)⟩)
    .empty
  refine ⟨r, ?_, fun n p => ?_⟩
  · rw [compute]
    rw [hcolors]
    exact hr
  · rw [hmemr]
    simp only [Result.not_mem_empty, or_false]

/-- **`DOD` is exact** where the predicates are counted right. -/
theorem compute_countsRight (G : CDGraph) (h : ∀ p ∈ G.predicates, (G.successors p).length = 2)
    (hright : CountsRight G) (extra : Nat) :
    ∃ r, compute G (G.size + 2 + extra) = some r ∧ ∀ n p, p ∈ r.CD n ↔ ∃ m, G.DOD p n m := by
  obtain ⟨r, hr, hmem⟩ := compute_spec G h hright extra
  refine ⟨r, hr, fun n p => ?_⟩
  rw [hmem]
  exact and_iff_right_of_imp fun ⟨m, hdod⟩ => mem_predicates_of_dod hdod

/-- The two definitions of the relation agree where there are two successors. -/
theorem dependent_iff_dod {p n m : G.Node} (hp : (G.successors p).length = 2) (hne : n ≠ m) :
    DODRanganath.Dependent p n m ↔ G.DOD p n m := by
  constructor
  · rintro ⟨⟨hmn, hnm⟩, ⟨s', hs', hsecond⟩, s, hs, hfirst⟩
    have hreach : G.Reaching n s := hfirst.mono (fun _ => id) fun _ => False.elim
    have hreach' : G.Reaching m s' := hsecond.mono (fun _ => id) fun _ => False.elim
    have hss : s ≠ s' := by
      rintro rfl
      exact hfirst.asymm hne hsecond
    obtain ⟨s1, s2, hsucc⟩ := List.length_eq_two.1 hp
    have hcases : ∀ x ∈ G.successors p, x = s ∨ x = s' := by
      rw [hsucc] at hs hs' ⊢
      simp only [List.mem_cons, List.not_mem_nil, or_false] at hs hs' ⊢
      rintro x (rfl | rfl)
      · obtain rfl | rfl := hs
        · exact Or.inl rfl
        · exact Or.inr (hs'.resolve_right fun heq => hss heq.symm).symm
      · obtain rfl | rfl := hs
        · exact Or.inr (hs'.resolve_left fun heq => hss heq.symm).symm
        · exact Or.inl rfl
    have hnil : G.successors p ≠ [] := List.ne_nil_of_mem hs
    refine dod_iff.2 ⟨⟨.of_all hnil fun x hx => ?_, .of_all hnil fun x hx => ?_⟩, hne, ⟨s, hs, hfirst⟩,
      s', hs', hsecond⟩
    · obtain rfl | rfl := hcases x hx
      · exact hreach
      · exact hreach'.trans hnm
    · obtain rfl | rfl := hcases x hx
      · exact hreach.trans hmn
      · exact hreach'
  · intro hdod
    obtain ⟨⟨hn, hm⟩, -, hfirst, hsecond⟩ := dod_iff.1 hdod
    -- on the way to the first node the other one is still to come
    have hnext : ∀ {k l s : G.Node}, s ∈ G.successors p → G.Reaching l p → p ≠ l →
        Inevitable G.successors (· = k) (· = l) s → G.Reaching l k := by
      intro k l s hs hl hpl hinev
      obtain ⟨_, rfl, hway⟩ := hinev.exists_way
      exact hl.along (.head ⟨hpl, hs⟩ hway)
    obtain ⟨s, hs, hfirst⟩ := hfirst
    obtain ⟨s', hs', hsecond⟩ := hsecond
    exact ⟨⟨hnext hs hm (dod_ne (dod_symm hdod)).symm hfirst,
      hnext hs' hn (dod_ne hdod).symm hsecond⟩, ⟨s', hs', hsecond⟩, s, hs, hfirst⟩

/-- **Both algorithms agree** where the predicates are counted right. -/
theorem compute_agrees (G : CDGraph) (h : ∀ p ∈ G.predicates, (G.successors p).length = 2)
    (hright : CountsRight G) (extra : Nat) :
    ∃ r r', compute G (G.size + 2 + extra) = some r ∧
      DODRanganath.compute G (G.size + 1 + extra) = some r' ∧ r.CD = r'.CD := by
  obtain ⟨r, hr, hmem⟩ := compute_spec G h hright extra
  obtain ⟨r', hr', hmem'⟩ := DODRanganath.compute_spec (Nat.le_add_right (G.size + 1) extra)
  refine ⟨r, r', hr, hr', funext fun n => Finset.ext fun p => ?_⟩
  rw [hmem, (hmem' n p).1]
  constructor
  · rintro ⟨hp, m, hdod⟩
    obtain ⟨-, hne, -⟩ := dod_iff.1 hdod
    exact ⟨hp, m, hne.symm, (dependent_iff_dod (h p hp) hne).2 hdod⟩
  · rintro ⟨hp, m, hne, hdep⟩
    exact ⟨hp, m, (dependent_iff_dod (h p hp) hne.symm).1 hdep⟩

/-- All nodes lie on all maximal paths from node 0. -/
theorem countsRight_twoWays : CountsRight DODNTSCD.twoWays := by
  have hone : ∀ n a b : DODNTSCD.twoWays.Node, DODNTSCD.twoWays.successors a = [b] →
      DODNTSCD.twoWays.Reaching n b → DODNTSCD.twoWays.Reaching n a := by
    intro n a b hab hb
    refine .of_all (by simp [hab]) fun y hy => ?_
    rw [hab, List.mem_singleton] at hy
    exact hy ▸ hb
  have hpredicates : ∀ p ∈ DODNTSCD.twoWays.predicates, p = ⟨0, by decide⟩ := by decide
  have hsuccessors : ∀ s ∈ DODNTSCD.twoWays.successors ⟨0, by decide⟩,
      s = ⟨1, by decide⟩ ∨ s = ⟨2, by decide⟩ := by decide
  have hall : ∀ n : DODNTSCD.twoWays.Node,
      n = ⟨0, by decide⟩ ∨ n = ⟨1, by decide⟩ ∨ n = ⟨2, by decide⟩ := by decide
  intro p hp n hmis
  obtain rfl := hpredicates p hp
  refine hmis.not_reaching ?_
  obtain rfl | rfl | rfl := hall n
  · exact .here rfl
  · refine .of_all (by decide) fun s hs => ?_
    obtain rfl | rfl := hsuccessors s hs
    · exact .here rfl
    · exact hone _ _ ⟨1, by decide⟩ rfl (.here rfl)
  · refine .of_all (by decide) fun s hs => ?_
    obtain rfl | rfl := hsuccessors s hs
    · exact hone _ _ ⟨2, by decide⟩ rfl (.here rfl)
    · exact .here rfl

theorem compute_countsRight_twoWays : ∃ r, compute DODNTSCD.twoWays 5 = some r ∧
    ∀ n p, p ∈ r.CD n ↔ ∃ m, DODNTSCD.twoWays.DOD p n m :=
  compute_countsRight DODNTSCD.twoWays (by decide) countsRight_twoWays 0

theorem compute_agrees_twoWays : ∃ r r', compute DODNTSCD.twoWays 5 = some r ∧
    DODRanganath.compute DODNTSCD.twoWays 4 = some r' ∧ r.CD = r'.CD :=
  compute_agrees DODNTSCD.twoWays (by decide) countsRight_twoWays 0

/-- Node 0 enters a loop of two nodes at node 1, or comes to node 3, where the way leads to the other
node of the loop or to the exit 4. -/
def wayOut : CDGraph := .ofSuccessors 5 ![[1, 3], [2], [1], [2, 4], []] (by decide)

/-- **Dependences too many**: node 3 counts as coming to the loop for sure, since the loop is counted
twice. -/
theorem wrong_wayOut : ∃ r, compute wayOut 7 = some r ∧
    ¬ ∀ n p, p ∈ r.CD n ↔ ∃ m, wayOut.DOD p n m := by
  have hcode : ((compute wayOut 7).any fun r =>
      decide ((⟨0, by decide⟩ : wayOut.Node) ∈ r.CD ⟨1, by decide⟩)) = true := by decide
  obtain ⟨r, hr, hmem⟩ := (Option.any_eq_true _ _).1 hcode
  refine ⟨r, hr, fun h => ?_⟩
  obtain ⟨m, hdod⟩ := (h _ _).1 (of_decide_eq_true hmem)
  obtain ⟨⟨hreach, -⟩, -⟩ := dod_iff.1 hdod
  -- the way to the exit avoids the loop
  have hthree := (hreach.of_ne (fun h => by cases h)).2 ⟨3, by decide⟩ (by decide)
  have hfour := (hthree.of_ne (fun h => by cases h)).2 ⟨4, by decide⟩ (by decide)
  exact (hfour.of_ne (fun h => by cases h)).1 rfl

/-- **`DODRanganath` does not agree** there. -/
theorem disagrees : ∃ r r', compute wayOut 7 = some r ∧
    DODRanganath.compute wayOut 6 = some r' ∧ r.CD ≠ r'.CD := by
  have hcode : ((compute wayOut 7).any fun r =>
      decide ((⟨0, by decide⟩ : wayOut.Node) ∈ r.CD ⟨1, by decide⟩)) = true := by decide
  have hcode' : ((DODRanganath.compute wayOut 6).any fun r =>
      decide ((⟨0, by decide⟩ : wayOut.Node) ∉ r.CD ⟨1, by decide⟩)) = true := by decide
  obtain ⟨r, hr, hmem⟩ := (Option.any_eq_true _ _).1 hcode
  obtain ⟨r', hr', hmem'⟩ := (Option.any_eq_true _ _).1 hcode'
  refine ⟨r, r', hr, hr', fun heq => of_decide_eq_true hmem' ?_⟩
  rw [← heq]
  exact of_decide_eq_true hmem

end DOD

end Cape.ControlDependence
