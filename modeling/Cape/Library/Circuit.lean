import Mathlib.Dynamics.PeriodicPts.Lemmas
import Cape.Library.Inevitable

/-!
# The circuit behind a fork

Of the vertices on all maximal paths from `p`, a way meets some first (`Hits`, and `First` after at
least one edge). When two different ones come first after `p`, all of them but `p` lie on one
circuit: from each of them one comes next on all ways (`Fork.first_unique`), none leads back to `p`
(`Fork.not_back`), and going on from one comes to all (`Fork.exists_iterate`).

`Fork.before_iff` says by the places on the circuit which of two vertices comes before the other.
-/

set_option autoImplicit false

namespace Cape.Library

open Relation

universe u

variable {α : Type u} (next : α → List α)

/-- A way from `y` meets `c` as the first vertex of `S`. -/
def Hits (S : α → Prop) (y c : α) : Prop := S c ∧ ReflTransGen (Off next S) y c

/-- After an edge, a way from `x` meets `c` as the first vertex of `S`. -/
def First (S : α → Prop) (x c : α) : Prop := ∃ y ∈ next x, Hits next S y c

variable {next} {S : α → Prop}

/-! ## First hits -/

theorem hits_of_mem {x c : α} (hx : S x) : Hits next S x c ↔ c = x := by
  constructor
  · rintro ⟨-, hway⟩
    obtain rfl | ⟨_, hstep, -⟩ := ReflTransGen.cases_head hway
    · rfl
    · exact absurd hx hstep.1
  · rintro rfl
    exact ⟨hx, .refl⟩

theorem hits_of_not_mem {x c : α} (hx : ¬ S x) : Hits next S x c ↔ First next S x c := by
  constructor
  · rintro ⟨hc, hway⟩
    obtain rfl | ⟨y, hstep, hrest⟩ := ReflTransGen.cases_head hway
    · exact absurd hc hx
    · exact ⟨y, hstep.2, hc, hrest⟩
  · rintro ⟨y, hy, hc, hway⟩
    exact ⟨hc, .head ⟨hx, hy⟩ hway⟩

/-- A way outside `S` avoids each vertex of `S`. -/
theorem off_of_mem {n x y : α} (hn : S n) (h : ReflTransGen (Off next S) x y) :
    ReflTransGen (Off next (· = n)) x y :=
  ReflTransGen.mono (fun a _ hstep => ⟨fun heq : a = n => hstep.1 (heq ▸ hn), hstep.2⟩) _ _ h

/-- Where `S` is inevitable, some vertex is hit first. -/
theorem exists_hits {bad : α → Prop} {x : α} (h : Inevitable next S bad x) :
    ∃ c, Hits next S x c := by
  induction h with
  | @here x hx => exact ⟨x, hx, .refl⟩
  | @next x _ hne _ ih =>
      by_cases hx : S x
      · exact ⟨x, hx, .refl⟩
      · obtain ⟨y, hy⟩ := List.exists_mem_of_ne_nil _ hne
        obtain ⟨c, hc, hway⟩ := ih y hy
        exact ⟨c, hc, .head ⟨hx, hy⟩ hway⟩

/-- What is inevitable from all first hits is so from before them. -/
theorem inevitable_of_hits {goal bad bad' : α → Prop} (hbad : ∀ x, bad x → S x) {x : α}
    (h : Inevitable next S bad' x) (hhits : ∀ c, Hits next S x c → Inevitable next goal bad c) :
    Inevitable next goal bad x := by
  induction h with
  | @here x hx => exact hhits x ⟨hx, .refl⟩
  | @next x _ hne _ ih =>
      by_cases hx : S x
      · exact hhits x ⟨hx, .refl⟩
      · refine .next (fun hb => hx (hbad x hb)) hne fun y hy => ih y hy fun c hc => ?_
        exact hhits c ((hits_of_not_mem hx).2 ⟨y, hy, hc⟩)

theorem Inevitable.hits {goal bad : α → Prop} (hgoal : ∀ x, goal x → S x) {x c : α}
    (h : Inevitable next goal bad x) (hc : Hits next S x c) : Inevitable next goal bad c :=
  h.along (ReflTransGen.mono (fun _ _ hstep => ⟨fun hg => hstep.1 (hgoal _ hg), hstep.2⟩) _ _ hc.2)

/-- Of two vertices, one comes last on a way. -/
theorem last_of_two {a b t : α} (hab : a ≠ b) (h : ReflTransGen (Off next fun _ => False) a t) :
    ReflTransGen (Off next (· = b)) a t ∨ ReflTransGen (Off next (· = a)) b t := by
  have hall : ∀ x, ReflTransGen (Off next fun _ => False) x t →
      ReflTransGen (Off next fun y => y = a ∨ y = b) x t ∨
        ReflTransGen (Off next (· = b)) a t ∨ ReflTransGen (Off next (· = a)) b t := by
    intro x hx
    induction hx using ReflTransGen.head_induction_on with
    | refl => exact Or.inl .refl
    | @head x y hstep _ ih =>
        obtain hclear | hlast := ih
        · by_cases hxa : x = a
          · subst hxa
            exact Or.inr (Or.inl (.head ⟨hab, hstep.2⟩
              (off_of_mem (S := fun y => y = x ∨ y = b) (Or.inr rfl) hclear)))
          · by_cases hxb : x = b
            · subst hxb
              exact Or.inr (Or.inr (.head ⟨hxa, hstep.2⟩
                (off_of_mem (S := fun y => y = a ∨ y = x) (Or.inl rfl) hclear)))
            · exact Or.inl (.head ⟨fun hor => hor.elim hxa hxb, hstep.2⟩ hclear)
        · exact Or.inr hlast
  obtain hclear | hlast := hall a h
  · exact Or.inl (off_of_mem (S := fun y => y = a ∨ y = b) (Or.inr rfl) hclear)
  · exact hlast

/-! ## Behind a fork -/

/-- The vertices on all maximal paths from `p`. -/
abbrev Sure (next : α → List α) (p n : α) : Prop := Reaching next n p

/-- Two different vertices on all maximal paths from `p` may come first after it. -/
structure Fork (next : α → List α) (p a b : α) : Prop where
  first : First next (Sure next p) p a
  second : First next (Sure next p) p b
  ne : a ≠ b

namespace Fork

variable {p a b : α}

theorem symm (h : Fork next p a b) : Fork next p b a := ⟨h.second, h.first, h.ne.symm⟩

theorem sure_first (h : Fork next p a b) : Sure next p a := by
  obtain ⟨_, -, ha, -⟩ := h.first
  exact ha

/-- The first vertex is not `p` again. -/
theorem first_ne (h : Fork next p a b) : a ≠ p := by
  rintro rfl
  obtain ⟨y, hy, -, hway⟩ := h.first
  have hb := h.symm.sure_first
  exact hb.no_cycle (TransGen.head' ⟨h.ne, hy⟩ (off_of_mem (S := Sure next a) hb hway))

/-- Nor is any other one that may come first. -/
theorem ne_of_first_start (h : Fork next p a b) {c : α} (hc : First next (Sure next p) p c) :
    c ≠ p := by
  by_cases hca : c = a
  · exact hca ▸ h.first_ne
  · exact first_ne ⟨hc, h.first, hca⟩

/-- From the vertices that come first, all others are inevitable. -/
theorem reaching_first (h : Fork next p a b) {m : α} (hm : Sure next p m) (hmp : m ≠ p) :
    Reaching next m a := by
  obtain ⟨y, hy, -, hway⟩ := h.first
  exact hm.along (.head ⟨hmp.symm, hy⟩ (off_of_mem (S := Sure next p) hm hway))

/-- A way round through `p` misses none of them. -/
theorem no_round {n c z : α} (hn : Sure next p n) (hnp : n ≠ p)
    (hc : First next (Sure next p) p c) (hway : ReflTransGen (Off next (· = n)) c z) (hzn : z ≠ n) :
    ¬ First next (Sure next p) z p := by
  rintro ⟨y, hy, -, hback⟩
  obtain ⟨x, hx, -, hthere⟩ := hc
  have hround : ReflTransGen (Off next (· = n)) x p :=
    (off_of_mem (S := Sure next p) hn hthere).trans
      (hway.trans (.head ⟨hzn, hy⟩ (off_of_mem (S := Sure next p) hn hback)))
  exact hn.no_cycle (TransGen.head' ⟨hnp.symm, hx⟩ hround)

/-- None of them leads back to `p`. -/
theorem not_back (h : Fork next p a b) {z : α} (hz : Sure next p z) (hzp : z ≠ p) :
    ¬ First next (Sure next p) z p := by
  have ha := h.sure_first
  have hb := h.symm.sure_first
  by_cases hza : z = a
  · exact no_round hb h.symm.first_ne h.first (hza ▸ .refl) (hza ▸ h.ne)
  · by_cases hzb : z = b
    · exact no_round ha h.first_ne h.second (hzb ▸ .refl) hza
    · obtain ⟨_, rfl, hway⟩ := (h.reaching_first hz hzp).exists_way
      obtain hway | hway := last_of_two h.ne hway
      · exact no_round hb h.symm.first_ne h.first hway hzb
      · exact no_round ha h.first_ne h.second hway hza

/-- From each of them all others are inevitable. -/
theorem reaching (h : Fork next p a b) {n m : α} (hn : Sure next p n) (hnp : n ≠ p)
    (hm : Sure next p m) (hmp : m ≠ p) : Reaching next m n := by
  obtain ⟨_, rfl, hway⟩ := (h.reaching_first hn hnp).exists_way
  obtain hway | hway := last_of_two h.ne hway
  · have hb := (h.reaching_first h.symm.sure_first h.symm.first_ne).along hway
    exact Reaching.trans hb (h.symm.reaching_first hm hmp)
  · have ha := (h.symm.reaching_first h.sure_first h.first_ne).along hway
    exact Reaching.trans ha (h.reaching_first hm hmp)

theorem ne_of_first (h : Fork next p a b) {n c : α} (hn : Sure next p n) (hnp : n ≠ p)
    (hc : First next (Sure next p) n c) : c ≠ p := by
  rintro rfl
  exact h.not_back hn hnp hc

/-- A way from a vertex to the next one and back misses no third one. -/
theorem no_return (h : Fork next p a b) {n c d : α} (hn : Sure next p n) (hnp : n ≠ p)
    (hc : First next (Sure next p) n c) (hd : Sure next p d) (hdp : d ≠ p) (hnd : n ≠ d) :
    ¬ ReflTransGen (Off next (· = d)) c n := by
  intro hway
  obtain ⟨y, hy, -, hthere⟩ := hc
  have hround := (off_of_mem (S := Sure next p) hd hthere).trans hway
  exact (h.reaching hn hnp hd hdp).no_cycle (TransGen.head' ⟨hnd, hy⟩ hround)

/-- **Just one of them comes next** after each. -/
theorem first_unique (h : Fork next p a b) {n c d : α} (hn : Sure next p n) (hnp : n ≠ p)
    (hc : First next (Sure next p) n c) (hd : First next (Sure next p) n d) : c = d := by
  by_contra hcd
  have hcp := h.ne_of_first hn hnp hc
  have hdp := h.ne_of_first hn hnp hd
  have hcs : Sure next p c := hc.choose_spec.2.1
  have hds : Sure next p d := hd.choose_spec.2.1
  by_cases hnd : n = d
  · exact h.no_return hn hnp hd hcs hcp (fun heq => hcd (heq.symm.trans hnd)) (hnd ▸ .refl)
  · by_cases hnc : n = c
    · exact h.no_return hn hnp hc hds hdp hnd (hnc ▸ .refl)
    · obtain ⟨_, rfl, hway⟩ := (h.reaching hcs hcp hn hnp).exists_way
      obtain hway | hway := last_of_two hcd hway
      · exact h.no_return hn hnp hc hds hdp hnd hway
      · exact h.no_return hn hnp hd hcs hcp hnc hway

theorem exists_other (h : Fork next p a b) (n : α) : ∃ m, Sure next p m ∧ m ≠ p ∧ n ≠ m := by
  by_cases hna : n = a
  · exact ⟨b, h.symm.sure_first, h.symm.first_ne, hna ▸ h.ne⟩
  · exact ⟨a, h.sure_first, h.first_ne, hna⟩

/-- Beyond each of them, they stay inevitable. -/
theorem inevitable_next (h : Fork next p a b) {n y : α} (hn : Sure next p n) (hnp : n ≠ p)
    (hy : y ∈ next n) : Inevitable next (Sure next p) (fun _ => False) y := by
  obtain ⟨m, hm, hmp, hnm⟩ := h.exists_other n
  have hreach := ((h.reaching hn hnp hm hmp).of_ne hnm).2 y hy
  exact hreach.mono (fun x (hx : x = m) => hx ▸ hm) fun _ => id

theorem exists_first (h : Fork next p a b) {n : α} (hn : Sure next p n) (hnp : n ≠ p) :
    ∃ c, First next (Sure next p) n c := by
  obtain ⟨m, hm, hmp, hnm⟩ := h.exists_other n
  obtain ⟨y, hy⟩ := List.exists_mem_of_ne_nil _ ((h.reaching hn hnp hm hmp).of_ne hnm).1
  obtain ⟨c, hc⟩ := exists_hits (h.inevitable_next hn hnp hy)
  exact ⟨c, y, hy, hc⟩

theorem first_ne_self (h : Fork next p a b) {n : α} (hn : Sure next p n) (hnp : n ≠ p) :
    ¬ First next (Sure next p) n n := by
  intro hself
  obtain ⟨m, hm, hmp, hnm⟩ := h.exists_other n
  exact h.no_return hn hnp hself hm hmp hnm .refl

/-! ## Round the circuit -/

section Round

variable {f : α → α} (h : Fork next p a b)
  (hf : ∀ n, Sure next p n → n ≠ p → First next (Sure next p) n (f n))
include h hf

theorem sure_next {n : α} (hn : Sure next p n) (hnp : n ≠ p) : Sure next p (f n) ∧ f n ≠ p :=
  ⟨(hf n hn hnp).choose_spec.2.1, h.ne_of_first hn hnp (hf n hn hnp)⟩

theorem sure_iterate {n : α} (hn : Sure next p n) (hnp : n ≠ p) :
    ∀ k, Sure next p (f^[k] n) ∧ f^[k] n ≠ p := by
  intro k
  induction k with
  | zero => exact ⟨hn, hnp⟩
  | succ k ih =>
      rw [Function.iterate_succ_apply']
      exact h.sure_next hf ih.1 ih.2

/-- **Going on comes to all of them.** -/
theorem exists_iterate {n m : α} (hn : Sure next p n) (hnp : n ≠ p) (hm : Sure next p m)
    (hmp : m ≠ p) : ∃ k, f^[k] n = m := by
  have hall : ∀ x, Reaching next m x → ∀ c, Hits next (Sure next p) x c → c ≠ p →
      ∃ k, f^[k] c = m := by
    intro x hx
    induction hx with
    | @here x hxm =>
        intro c hc _
        have hxs : Sure next p x := hxm ▸ hm
        exact ⟨0, ((hits_of_mem hxs).1 hc).trans hxm⟩
    | @next x _ _ _ ih =>
        intro c hc hcp
        by_cases hxs : Sure next p x
        · obtain rfl := (hits_of_mem hxs).1 hc
          obtain ⟨y, hy, hhit⟩ := hf c hxs hcp
          obtain ⟨k, hk⟩ := ih y hy (f c) hhit (h.sure_next hf hxs hcp).2
          exact ⟨k + 1, hk⟩
        · obtain ⟨y, hy, hhit⟩ := (hits_of_not_mem hxs).1 hc
          exact ih y hy c hhit hcp
  exact hall n (h.reaching hn hnp hm hmp) n ((hits_of_mem hn).2 rfl) hnp

/-- Each of them comes again. -/
theorem mem_periodicPts {n : α} (hn : Sure next p n) (hnp : n ≠ p) : n ∈ Function.periodicPts f := by
  obtain ⟨hfn, hfnp⟩ := h.sure_next hf hn hnp
  obtain ⟨k, hk⟩ := h.exists_iterate hf hfn hfnp hn hnp
  exact ⟨k + 1, Nat.succ_pos k, hk⟩

/-- Each has a place in one round from another. -/
theorem exists_place {n m : α} (hn : Sure next p n) (hnp : n ≠ p) (hm : Sure next p m)
    (hmp : m ≠ p) : ∃ k < Function.minimalPeriod f n, f^[k] n = m := by
  obtain ⟨k, hk⟩ := h.exists_iterate hf hn hnp hm hmp
  refine ⟨k % Function.minimalPeriod f n, Nat.mod_lt _ ?_, ?_⟩
  · exact Function.minimalPeriod_pos_of_mem_periodicPts (h.mem_periodicPts hf hn hnp)
  · rw [Function.iterate_mod_minimalPeriod_eq, hk]

/-- What comes first from the next one does so from each but the other. -/
theorem before_of_next {n m x : α} (hn : Sure next p n) (hnp : n ≠ p) (hm : Sure next p m)
    (hx : Sure next p x) (hxp : x ≠ p) (hxm : x ≠ m)
    (hnext : Inevitable next (· = n) (· = m) (f x)) : Inevitable next (· = n) (· = m) x := by
  by_cases hxn : x = n
  · exact .here hxn
  · refine .next hxm ((h.reaching hx hxp hn hnp).of_ne hxn).1 fun y hy => ?_
    refine inevitable_of_hits (fun z (hz : z = m) => hz ▸ hm) (h.inevitable_next hx hxp hy)
      fun c hc => ?_
    rw [h.first_unique hx hxp ⟨y, hy, hc⟩ (hf x hx hxp)]
    exact hnext

/-- A vertex comes first when the other one is not on the way to it. -/
theorem before_of_walk {n m : α} (hn : Sure next p n) (hnp : n ≠ p) (hm : Sure next p m) :
    ∀ {d : Nat} {x : α}, Sure next p x → x ≠ p → (∀ k < d, f^[k] x ≠ m) → f^[d] x = n →
      Inevitable next (· = n) (· = m) x := by
  intro d
  induction d with
  | zero => exact fun _ _ _ hend => .here hend
  | succ d ih =>
      intro x hx hxp havoid hend
      obtain ⟨hfx, hfxp⟩ := h.sure_next hf hx hxp
      refine h.before_of_next hf hn hnp hm hx hxp (havoid 0 (Nat.succ_pos d)) ?_
      exact ih hfx hfxp (fun k hk => havoid (k + 1) (Nat.succ_lt_succ hk)) hend

/-- **Which of two comes first**, by the places of the vertices in a round from `n`. -/
theorem before_iff {n : α} (hn : Sure next p n) (hnp : n ≠ p) {i j c : Nat} (hij : i < j)
    (hj : j < Function.minimalPeriod f n) (hc : c < Function.minimalPeriod f n) :
    (Inevitable next (· = f^[i] n) (· = f^[j] n) (f^[c] n) ↔ c ≤ i ∨ j < c) ∧
      (Inevitable next (· = f^[j] n) (· = f^[i] n) (f^[c] n) ↔ i < c ∧ c ≤ j) := by
  have hsure := h.sure_iterate hf hn hnp
  have hplace : ∀ {k l : Nat}, k < Function.minimalPeriod f n → l < Function.minimalPeriod f n →
      f^[k] n = f^[l] n → k = l := fun hk hl heq =>
    (Function.iterate_eq_iterate_iff_of_lt_minimalPeriod hk hl).1 heq
  have hi : i < Function.minimalPeriod f n := hij.trans hj
  have hne : f^[i] n ≠ f^[j] n := fun heq => hij.ne (hplace hi hj heq)
  have hwalk : ∀ k, f^[k] (f^[c] n) = f^[k + c] n := fun k =>
    (Function.iterate_add_apply f k c n).symm
  have hfirst : c ≤ i ∨ j < c → Inevitable next (· = f^[i] n) (· = f^[j] n) (f^[c] n) := by
    rintro (hci | hjc)
    · refine h.before_of_walk hf (hsure i).1 (hsure i).2 (hsure j).1 (hsure c).1 (hsure c).2
        (d := i - c) (fun k hk => ?_) ?_
      · rw [hwalk]
        intro heq
        have := hplace (by omega) hj heq
        omega
      · rw [hwalk, Nat.sub_add_cancel hci]
    · -- once round
      refine h.before_of_walk hf (hsure i).1 (hsure i).2 (hsure j).1 (hsure c).1 (hsure c).2
        (d := i + Function.minimalPeriod f n - c) (fun k hk => ?_) ?_
      · rw [hwalk]
        intro heq
        obtain hlt | hge := Nat.lt_or_ge (k + c) (Function.minimalPeriod f n)
        · have := hplace hlt hj heq
          omega
        · rw [← Nat.sub_add_cancel hge, Function.iterate_add_minimalPeriod_eq] at heq
          have := hplace (by omega) hj heq
          omega
      · rw [hwalk, Nat.sub_add_cancel (by omega), Function.iterate_add_minimalPeriod_eq]
  have hsecond : i < c ∧ c ≤ j → Inevitable next (· = f^[j] n) (· = f^[i] n) (f^[c] n) := by
    rintro ⟨hic, hcj⟩
    refine h.before_of_walk hf (hsure j).1 (hsure j).2 (hsure i).1 (hsure c).1 (hsure c).2
      (d := j - c) (fun k hk => ?_) ?_
    · rw [hwalk]
      intro heq
      have := hplace (by omega) hi heq
      omega
    · rw [hwalk, Nat.sub_add_cancel hcj]
  refine ⟨⟨fun hinev => ?_, hfirst⟩, ⟨fun hinev => ?_, hsecond⟩⟩
  · by_contra hnot
    exact hinev.asymm hne (hsecond (by omega))
  · by_contra hnot
    exact hinev.asymm hne.symm (hfirst (by omega))

end Round

end Fork

end Cape.Library
