import Mathlib.Data.Fintype.Card
import Mathlib.Data.Fintype.Prod
import Mathlib.Logic.Relation
import Mathlib.Tactic

/-!
# Summaries of procedures that call one another

A procedure is a list of items: contributions of its own, and calls, which contribute the summary of
the callee. A request computes the summary of a procedure depth first and keeps the summaries of all
procedures on the way. A procedure counts as known as soon as its computation starts; a recursive
call then contributes what its summary has so far.

A procedure is an entry when it is requested, or called by a procedure that it does not reach. When
among procedures that reach each other at most one is an entry, the summary of every entry has the
contributions of all procedures that it reaches (`complete_requests`).
-/

set_option autoImplicit false

namespace Cape.Library

universe u v w

variable {S : Type u} {M : Type v} {F : Type w}

/-- What a procedure does to its summary, in order. -/
inductive Item (S : Type u) (M : Type v) where
  | own (add : M → M)
  | call (callee : S)

/-- The known procedures and the summaries. -/
structure Summaries (S : Type u) (M : Type v) where
  known : S → Bool
  summary : S → M

namespace Summaries

variable [DecidableEq S]

/-- The summary of one procedure is changed. -/
def modify (s : S) (g : M → M) (st : Summaries S M) : Summaries S M :=
  { st with summary := Function.update st.summary s (g (st.summary s)) }

def setKnown (s : S) (st : Summaries S M) : Summaries S M :=
  { st with known := Function.update st.known s true }

@[simp] theorem known_modify (s : S) (g : M → M) (st : Summaries S M) :
    (st.modify s g).known = st.known := rfl

@[simp] theorem summary_modify_self (s : S) (g : M → M) (st : Summaries S M) :
    (st.modify s g).summary s = g (st.summary s) := Function.update_self _ _ _

theorem summary_modify_of_ne {s x : S} (h : x ≠ s) (g : M → M) (st : Summaries S M) :
    (st.modify s g).summary x = st.summary x := Function.update_of_ne h _ _

@[simp] theorem summary_setKnown (s : S) (st : Summaries S M) :
    (st.setKnown s).summary = st.summary := rfl

theorem known_setKnown (s x : S) (st : Summaries S M) :
    (st.setKnown s).known x = true ↔ x = s ∨ st.known x = true := by
  by_cases h : x = s
  · simp [setKnown, h]
  · simp [setKnown, h]

/-- One item of the procedure `s`; `request` computes the callee. -/
def take (join : M → M → M) (request : S → Summaries S M → Summaries S M) (s : S) :
    Summaries S M → Item S M → Summaries S M
  | st, .own g => st.modify s g
  | st, .call c => (request c st).modify s fun m => join m ((request c st).summary c)

end Summaries

open Summaries

variable [DecidableEq S] (items : S → List (Item S M)) (join : M → M → M)

/-- The summary of a procedure is requested. -/
def request : Nat → S → Summaries S M → Summaries S M
  | 0, _, st => st
  | fuel + 1, s, st =>
      if st.known s then st
      else (items s).foldl (take join (request fuel) s) (st.setKnown s)

/-- One request after the other. -/
def requests (fuel : Nat) (rs : List S) (st : Summaries S M) : Summaries S M :=
  rs.foldl (fun st r => request items join fuel r st) st

/-- `s` calls `c`. -/
def Calls (s c : S) : Prop := Item.call c ∈ items s

/-- How many procedures are not known. -/
def unknowns [Fintype S] (st : Summaries S M) : Nat :=
  (Finset.univ.filter fun s => st.known s = false).card

variable (holds : M → F → Prop)

/-- The procedure contributes the fact. -/
def Contributes (s : S) (f : F) : Prop := ∃ g, Item.own g ∈ items s ∧ ∀ m, holds (g m) f

/-- Contributions and calls add to a summary. -/
structure Additive : Prop where
  own : ∀ s g, Item.own g ∈ items s → ∀ m f, holds m f → holds (g m) f
  left : ∀ m m' f, holds m f → holds (join m m') f
  right : ∀ m m' f, holds m' f → holds (join m m') f

variable {items join holds}

/-! ## One request -/

/-- What a request of `s`, which was not known in `st`, did up to `st'`: `calls` and `gives` are the
calls and the contributions that were dealt with. -/
structure Progress (items : S → List (Item S M)) (holds : M → F → Prop) (calls : S → S → Prop)
    (gives : S → F → Prop) (s : S) (st st' : Summaries S M) : Prop where
  known : ∀ x, st.known x = true → st'.known x = true ∧ st'.summary x = st.summary x
  self : st'.known s = true
  /-- the callees of what became known are known -/
  closed : ∀ x, st.known x = false → st'.known x = true → ∀ c, calls x c → st'.known c = true
  /-- what became known was called from what became known -/
  chain : ∀ x, st.known x = false → st'.known x = true →
    Relation.ReflTransGen (fun a b => Calls items a b ∧ st.known b = false) s x
  contributes : ∀ x, st.known x = false → st'.known x = true → ∀ f, gives x f →
    holds (st'.summary s) f
  passes : ∀ x, st.known x = false → st'.known x = true → ∀ c, calls x c → st.known c = true →
    ∀ f, holds (st.summary c) f → holds (st'.summary s) f

/-- All of `s` was dealt with. -/
abbrev Requested (items : S → List (Item S M)) (holds : M → F → Prop) :=
  Progress items holds (Calls items) (Contributes items holds)

/-- The calls, with the items `l` of `s` only. -/
def CallsIn (items : S → List (Item S M)) (s : S) (l : List (Item S M)) (x c : S) : Prop :=
  if x = s then Item.call c ∈ l else Calls items x c

/-- The contributions, with the items `l` of `s` only. -/
def ContributesIn (items : S → List (Item S M)) (holds : M → F → Prop) (s : S)
    (l : List (Item S M)) (x : S) (f : F) : Prop :=
  if x = s then ∃ g, Item.own g ∈ l ∧ ∀ m, holds (g m) f else Contributes items holds x f

theorem callsIn_items (s x c : S) : CallsIn items s (items s) x c ↔ Calls items x c := by
  rw [CallsIn]
  split
  · next h => rw [h, Calls]
  · exact Iff.rfl

theorem contributesIn_items (s x : S) (f : F) :
    ContributesIn items holds s (items s) x f ↔ Contributes items holds x f := by
  rw [ContributesIn]
  split
  · next h => rw [h, Contributes]
  · exact Iff.rfl

omit [DecidableEq S] in
theorem Progress.mono {calls calls' : S → S → Prop} {gives gives' : S → F → Prop} {s : S}
    {st st' : Summaries S M} (h : Progress items holds calls gives s st st')
    (hcalls : ∀ x c, calls' x c → calls x c) (hgives : ∀ x f, gives' x f → gives x f) :
    Progress items holds calls' gives' s st st' where
  known := h.known
  self := h.self
  closed := fun x hx hx' c hc => h.closed x hx hx' c (hcalls x c hc)
  chain := h.chain
  contributes := fun x hx hx' f hf => h.contributes x hx hx' f (hgives x f hf)
  passes := fun x hx hx' c hc => h.passes x hx hx' c (hcalls x c hc)

theorem Progress.start {s : S} {st : Summaries S M} :
    Progress items holds (CallsIn items s []) (ContributesIn items holds s []) s st
      (st.setKnown s) := by
  have hnew : ∀ x, st.known x = false → (st.setKnown s).known x = true → x = s := by
    intro x hx hx'
    obtain h | h := (known_setKnown s x st).1 hx'
    · exact h
    · rw [hx] at h
      cases h
  refine ⟨fun x hx => ⟨(known_setKnown s x st).2 (Or.inr hx), rfl⟩,
    (known_setKnown s s st).2 (Or.inl rfl), fun x hx hx' c hc => ?_, fun x hx hx' => ?_,
    fun x hx hx' f hf => ?_, fun x hx hx' c hc _ => ?_⟩
  · rw [CallsIn, if_pos (hnew x hx hx')] at hc
    cases hc
  · rw [hnew x hx hx']
  · rw [ContributesIn, if_pos (hnew x hx hx')] at hf
    obtain ⟨g, hg, -⟩ := hf
    cases hg
  · rw [CallsIn, if_pos (hnew x hx hx')] at hc
    cases hc

/-- The summary of `s` grows. -/
theorem Progress.modify {calls : S → S → Prop} {gives : S → F → Prop} {s : S} {g : M → M}
    {st st' : Summaries S M} (h : Progress items holds calls gives s st st')
    (hs : st.known s = false)
    (hg : ∀ f, holds (st'.summary s) f → holds (g (st'.summary s)) f) :
    Progress items holds calls gives s st (st'.modify s g) := by
  have hkeeps : ∀ f, holds (st'.summary s) f → holds ((st'.modify s g).summary s) f := by
    rw [summary_modify_self]
    exact hg
  refine ⟨fun x hx => ?_, h.self, h.closed, h.chain,
    fun x hx hx' f hf => hkeeps f (h.contributes x hx hx' f hf),
    fun x hx hx' c hc hk f hf => hkeeps f (h.passes x hx hx' c hc hk f hf)⟩
  have hne : x ≠ s := by
    rintro rfl
    rw [hs] at hx
    cases hx
  exact ⟨(h.known x hx).1, (summary_modify_of_ne hne g st').trans (h.known x hx).2⟩

/-- A contribution of `s` was dealt with. -/
theorem Progress.own {s : S} {l : List (Item S M)} {g : M → M} {st st' : Summaries S M}
    (h : Progress items holds (CallsIn items s l) (ContributesIn items holds s l) s st st')
    (hg : ∀ f, (∀ m, holds (g m) f) → holds (st'.summary s) f) :
    Progress items holds (CallsIn items s (l ++ [.own g]))
      (ContributesIn items holds s (l ++ [.own g])) s st st' := by
  have hcalls : ∀ x c, CallsIn items s (l ++ [Item.own g]) x c → CallsIn items s l x c := by
    intro x c hc
    unfold CallsIn at hc ⊢
    split
    · next heq => simpa [heq] using hc
    · next hne => rwa [if_neg hne] at hc
  refine ⟨h.known, h.self, fun x hx hx' c hc => h.closed x hx hx' c (hcalls x c hc), h.chain,
    fun x hx hx' f hf => ?_, fun x hx hx' c hc => h.passes x hx hx' c (hcalls x c hc)⟩
  by_cases heq : x = s
  · rw [ContributesIn, if_pos heq] at hf
    obtain ⟨g', hg', hf⟩ := hf
    obtain hg' | hg' := List.mem_append.1 hg'
    · apply h.contributes x hx hx' f
      rw [ContributesIn, if_pos heq]
      exact ⟨g', hg', hf⟩
    · have heq' : g' = g := by simpa using hg'
      exact hg f (heq' ▸ hf)
  · apply h.contributes x hx hx' f
    rw [ContributesIn, if_neg heq] at hf ⊢
    exact hf

/-- A call of `s` was dealt with. -/
theorem Progress.call {s c : S} {l : List (Item S M)} {st st' : Summaries S M}
    (h : Progress items holds (CallsIn items s l) (ContributesIn items holds s l) s st st')
    (hk : st'.known c = true)
    (hp : st.known c = true → ∀ f, holds (st.summary c) f → holds (st'.summary s) f) :
    Progress items holds (CallsIn items s (l ++ [.call c]))
      (ContributesIn items holds s (l ++ [.call c])) s st st' := by
  have hcalls : ∀ x c', CallsIn items s (l ++ [Item.call c]) x c' →
      CallsIn items s l x c' ∨ (x = s ∧ c' = c) := by
    intro x c' hc'
    unfold CallsIn at hc' ⊢
    by_cases heq : x = s
    · rw [if_pos heq] at hc' ⊢
      simpa [heq] using hc'
    · rw [if_neg heq] at hc' ⊢
      exact Or.inl hc'
  refine ⟨h.known, h.self, fun x hx hx' c' hc' => ?_, h.chain, fun x hx hx' f hf => ?_,
    fun x hx hx' c' hc' hk' f hf => ?_⟩
  · obtain hc' | ⟨-, rfl⟩ := hcalls x c' hc'
    · exact h.closed x hx hx' c' hc'
    · exact hk
  · apply h.contributes x hx hx' f
    unfold ContributesIn at hf ⊢
    by_cases heq : x = s
    · rw [if_pos heq] at hf ⊢
      simpa using hf
    · rw [if_neg heq] at hf ⊢
      exact hf
  · obtain hc' | ⟨-, rfl⟩ := hcalls x c' hc'
    · exact h.passes x hx hx' c' hc' hk' f hf
    · exact hp hk' f hf

/-- A callee was requested, and its summary went into that of `s`. -/
theorem Progress.requested {calls : S → S → Prop} {gives : S → F → Prop} {s c : S} {g : M → M}
    {st st' st'' : Summaries S M} (h : Progress items holds calls gives s st st')
    (hs : st.known s = false) (hc : Calls items s c) (hnew : st'.known c = false)
    (hreq : Requested items holds c st' st'')
    (hcalls : ∀ x c, x ≠ s → calls x c → Calls items x c)
    (hgives : ∀ x f, x ≠ s → gives x f → Contributes items holds x f)
    (hleft : ∀ f, holds (st''.summary s) f → holds (g (st''.summary s)) f)
    (hright : ∀ f, holds (st''.summary c) f → holds (g (st''.summary s)) f) :
    Progress items holds calls gives s st (st''.modify s g) := by
  obtain ⟨hself, hsame⟩ := hreq.known s h.self
  have hkeeps : ∀ f, holds (st'.summary s) f → holds ((st''.modify s g).summary s) f := by
    intro f hf
    rw [summary_modify_self]
    exact hleft f (hsame ▸ hf)
  have hgets : ∀ f, holds (st''.summary c) f → holds ((st''.modify s g).summary s) f := by
    intro f hf
    rw [summary_modify_self]
    exact hright f hf
  -- what the request made known was not known at the start
  have hold : ∀ x, st'.known x = false → st.known x = false := by
    intro x hx
    cases hk : st.known x with
    | false => rfl
    | true => exact absurd (h.known x hk).1 (by simp [hx])
  have hne : ∀ x, st'.known x = false → x ≠ s := by
    rintro x hx rfl
    rw [h.self] at hx
    cases hx
  have hchain : ∀ x, st'.known x = false → st''.known x = true →
      Relation.ReflTransGen (fun a b => Calls items a b ∧ st.known b = false) s x := by
    intro x hx hx'
    apply Relation.ReflTransGen.head ⟨hc, hold c hnew⟩
    exact Relation.ReflTransGen.mono (fun a b hab => ⟨hab.1, hold b hab.2⟩) _ _ (hreq.chain x hx hx')
  refine ⟨fun x hx => ?_, hself, fun x hx hx' c' hc' => ?_, fun x hx hx' => ?_,
    fun x hx hx' f hf => ?_, fun x hx hx' c' hc' hk f hf => ?_⟩
  · have hne : x ≠ s := by
      rintro rfl
      rw [hs] at hx
      cases hx
    obtain ⟨hknown, hsummary⟩ := h.known x hx
    obtain ⟨hknown', hsummary'⟩ := hreq.known x hknown
    exact ⟨hknown', (summary_modify_of_ne hne g st'').trans (hsummary'.trans hsummary)⟩
  · cases hk : st'.known x with
    | true => exact (hreq.known c' (h.closed x hx hk c' hc')).1
    | false => exact hreq.closed x hk hx' c' (hcalls x c' (hne x hk) hc')
  · cases hk : st'.known x with
    | true => exact h.chain x hx hk
    | false => exact hchain x hk hx'
  · cases hk : st'.known x with
    | true => exact hkeeps f (h.contributes x hx hk f hf)
    | false => exact hgets f (hreq.contributes x hk hx' f (hgives x f (hne x hk) hf))
  · cases hk' : st'.known x with
    | true => exact hkeeps f (h.passes x hx hk' c' hc' hk f hf)
    | false =>
        obtain ⟨hknown, hsummary⟩ := h.known c' hk
        apply hgets f
        exact hreq.passes x hk' hx' c' (hcalls x c' (hne x hk') hc') hknown f (hsummary ▸ hf)

omit [DecidableEq S] in
theorem unknowns_lt [Fintype S] {s : S} {st st' : Summaries S M}
    (h : ∀ x, st.known x = true → st'.known x = true) (hs : st.known s = false)
    (hs' : st'.known s = true) : unknowns st' < unknowns st := by
  apply Finset.card_lt_card
  refine ⟨fun x hx => ?_, fun hsub => ?_⟩
  · simp only [Finset.mem_filter, Finset.mem_univ, true_and] at hx ⊢
    cases hk : st.known x with
    | false => rfl
    | true =>
        rw [h x hk] at hx
        cases hx
  · have hmem := hsub (Finset.mem_filter.2 ⟨Finset.mem_univ s, hs⟩)
    rw [Finset.mem_filter, hs'] at hmem
    cases hmem.2

/-- The request of a known procedure does nothing. -/
theorem request_of_known {fuel : Nat} {c : S} {st : Summaries S M} (h : st.known c = true) :
    request items join fuel c st = st := by
  cases fuel with
  | zero => rfl
  | succ fuel => simp [request, h]

/-- One item of `s`, when the requests of callees deal with everything. -/
theorem Progress.take (hadd : Additive items join holds) {fuel : Nat} {s : S}
    {l : List (Item S M)} {i : Item S M} {st st' : Summaries S M}
    (h : Progress items holds (CallsIn items s l) (ContributesIn items holds s l) s st st')
    (hs : st.known s = false) (hi : i ∈ items s)
    (hreq : ∀ c, st'.known c = false →
      Requested items holds c st' (request items join fuel c st')) :
    Progress items holds (CallsIn items s (l ++ [i])) (ContributesIn items holds s (l ++ [i])) s st
      (Summaries.take join (request items join fuel) s st' i) := by
  cases i with
  | own g =>
      have hgrows := h.modify hs fun f hf => hadd.own s g hi _ f hf
      apply hgrows.own
      intro f hf
      rw [summary_modify_self]
      exact hf _
  | call c =>
      cases hk : st'.known c with
      | true =>
          -- the summary of the callee is there, and is joined as it is
          have hgrows := h.modify (g := fun m => join m (st'.summary c)) hs
            fun f hf => hadd.left _ _ f hf
          show Progress _ _ _ _ _ _ ((request items join fuel c st').modify s fun m =>
            join m ((request items join fuel c st').summary c))
          rw [request_of_known hk]
          apply hgrows.call hk
          intro hc f hf
          rw [summary_modify_self]
          apply hadd.right
          rw [(h.known c hc).2]
          exact hf
      | false =>
          have hgrows := h.requested
            (g := fun m => join m ((request items join fuel c st').summary c)) hs hi hk
            (hreq c hk) (fun x c' hne hc' => by rwa [CallsIn, if_neg hne] at hc')
            (fun x f hne hf => by rwa [ContributesIn, if_neg hne] at hf)
            (fun f hf => hadd.left _ _ f hf) fun f hf => hadd.right _ _ f hf
          apply hgrows.call (hreq c hk).self
          intro hc
          rw [(h.known c hc).1] at hk
          cases hk

/-- What holds of a prefix of the list and the state after it, when every item keeps it. -/
theorem foldl_prefix {α β : Type*} {f : β → α → β} {J : List α → β → Prop} {l : List α} {b : β}
    (hstart : J [] b)
    (hstep : ∀ pre i post b', l = pre ++ i :: post → J pre b' → J (pre ++ [i]) (f b' i)) :
    J l (l.foldl f b) := by
  have hkey : ∀ post pre b', l = pre ++ post → J pre b' → J l (post.foldl f b') := by
    intro post
    induction post with
    | nil =>
        intro pre b' hl h
        rw [hl, List.append_nil]
        exact h
    | cons i post ih =>
        intro pre b' hl h
        exact ih (pre ++ [i]) (f b' i) (by simp [hl]) (hstep pre i post b' hl h)
  exact hkey l [] b rfl hstart

/-- A property of a request, from the items of the procedure. -/
theorem request_induction {fuel : Nat} {s : S} {st : Summaries S M}
    {J : List (Item S M) → Summaries S M → Prop} (hs : st.known s = false)
    (hstart : J [] (st.setKnown s))
    (hstep : ∀ pre i st', i ∈ items s → J pre st' →
      J (pre ++ [i]) (Summaries.take join (request items join fuel) s st' i)) :
    J (items s) (request items join (fuel + 1) s st) := by
  have hrun : request items join (fuel + 1) s st =
      (items s).foldl (Summaries.take join (request items join fuel) s) (st.setKnown s) := by
    simp [request, hs]
  rw [hrun]
  apply foldl_prefix hstart
  intro pre i post st' hl h
  exact hstep pre i st' (by simp [hl]) h

/-- **One request.** With fuel for all procedures that are not known it deals with everything. -/
theorem requested_request [Fintype S] (hadd : Additive items join holds) :
    ∀ {fuel : Nat} {s : S} {st : Summaries S M}, unknowns st < fuel → st.known s = false →
      Requested items holds s st (request items join fuel s st) := by
  intro fuel
  induction fuel with
  | zero => exact fun h _ => by omega
  | succ fuel ih =>
      intro s st hfuel hs
      have hall : Progress items holds (CallsIn items s (items s))
          (ContributesIn items holds s (items s)) s st (request items join (fuel + 1) s st) := by
        apply request_induction (J := fun pre st' => Progress items holds (CallsIn items s pre)
          (ContributesIn items holds s pre) s st st') hs Progress.start
        intro pre i st' hi h
        apply h.take hadd hs hi
        intro c hk
        have := unknowns_lt (fun x hx => (h.known x hx).1) hs h.self
        exact ih (by omega) hk
      exact hall.mono (fun x c => (callsIn_items s x c).2) fun x f => (contributesIn_items s x f).2

/-! ## Entries -/

section Graph

variable (calls : S → S → Prop)

/-- `s` calls `c`, directly or not, or is `c`. -/
def CallReaches : S → S → Prop := Relation.ReflTransGen calls

/-- A requested procedure reaches `x`. -/
def Live (rs : List S) (x : S) : Prop := ∃ r ∈ rs, CallReaches calls r x

/-- `x` is requested, or called by a procedure that it does not reach. -/
def IsEntry (rs : List S) (x : S) : Prop :=
  x ∈ rs ∨ ∃ u, Live calls rs u ∧ calls u x ∧ ¬ CallReaches calls x u

/-- Among procedures that reach each other at most one is an entry. -/
def OneEntry (rs : List S) : Prop :=
  ∀ x y, IsEntry calls rs x → IsEntry calls rs y → CallReaches calls x y → CallReaches calls y x → x = y

end Graph

variable (items holds)

/-- The summary has the contributions of all procedures that `x` reaches. -/
def Complete (st : Summaries S M) (x : S) : Prop :=
  ∀ w f, CallReaches (Calls items) x w → Contributes items holds w f → holds (st.summary x) f

/-- Every known procedure is reached by, and reaches, a known entry. -/
def EntriesCalled (rs : List S) (st : Summaries S M) : Prop :=
  ∀ y, st.known y = true → ∃ e, st.known e = true ∧ IsEntry (Calls items) rs e ∧ CallReaches (Calls items) e y ∧
    CallReaches (Calls items) y e

variable {items holds}

omit [DecidableEq S] in
theorem Requested.reaches {s x : S} {st st' : Summaries S M} (h : Requested items holds s st st')
    (hx : st.known x = false) (hx' : st'.known x = true) : CallReaches (Calls items) s x :=
  Relation.ReflTransGen.mono (fun _ _ hab => hab.1) _ _ (h.chain x hx hx')

omit [DecidableEq S] in
theorem Live.reaches {rs : List S} {x y : S} (h : Live (Calls items) rs x) (hxy : CallReaches (Calls items) x y) :
    Live (Calls items) rs y := by
  obtain ⟨r, hr, hreach⟩ := h
  exact ⟨r, hr, hreach.trans hxy⟩

omit [DecidableEq S] in
/-- What became known shares its cycle with an entry that became known. -/
theorem Requested.exists_entry {rs : List S} {s : S} {st st' : Summaries S M}
    (h : Requested items holds s st st') (hlive : Live (Calls items) rs s) (hs : st.known s = false)
    (hentry : IsEntry (Calls items) rs s) {x : S} (hx : st.known x = false) (hx' : st'.known x = true) :
    ∃ e, st.known e = false ∧ IsEntry (Calls items) rs e ∧ CallReaches (Calls items) e x ∧ CallReaches (Calls items) x e := by
  have hchain := h.chain x hx hx'
  clear hx hx'
  induction hchain with
  | refl => exact ⟨s, hs, hentry, .refl, .refl⟩
  | @tail a b hsa hab ih =>
      obtain ⟨e, he, hentry, hea, hae⟩ := ih
      by_cases hback : CallReaches (Calls items) b a
      · exact ⟨e, he, hentry, hea.tail hab.1, hback.trans hae⟩
      · -- the call enters another cycle
        have hsa' : CallReaches (Calls items) s a :=
          Relation.ReflTransGen.mono (fun _ _ hab => hab.1) _ _ hsa
        exact ⟨b, hab.2, Or.inr ⟨a, hlive.reaches hsa', hab.1, hback⟩, .refl, .refl⟩

omit [DecidableEq S] in
/-- **The entry itself.** When it is requested, the entries that are known already are complete or
reach it. -/
theorem complete_of_requested {rs : List S} (hone : OneEntry (Calls items) rs) {x : S}
    {st st' : Summaries S M} (h : Requested items holds x st st') (hlive : Live (Calls items) rs x)
    (hx : st.known x = false) (hentry : IsEntry (Calls items) rs x) (hentered : EntriesCalled items rs st)
    (hpending : ∀ y, st.known y = true → IsEntry (Calls items) rs y →
      Complete items holds st y ∨ CallReaches (Calls items) y x) : Complete items holds st' x := by
  intro w f hreach hf
  -- the first procedure on the way to `w` that was known before
  have hway : ∀ v, CallReaches (Calls items) x v → (st.known v = false ∧ st'.known v = true) ∨
      ∃ u y, st.known u = false ∧ st'.known u = true ∧ Calls items u y ∧ st.known y = true ∧
        CallReaches (Calls items) y v := by
    intro v hv
    induction hv with
    | refl => exact Or.inl ⟨hx, h.self⟩
    | @tail a b _ hab ih =>
        obtain ⟨ha, ha'⟩ | ⟨u, y, hu, hu', hcall, hy, hya⟩ := ih
        · cases hb : st.known b with
          | false => exact Or.inl ⟨rfl, h.closed a ha ha' b hab⟩
          | true => exact Or.inr ⟨a, b, ha, ha', hab, hb, .refl⟩
        · exact Or.inr ⟨u, y, hu, hu', hcall, hy, hya.tail hab⟩
  obtain ⟨hw, hw'⟩ | ⟨u, y, hu, hu', hcall, hy, hyw⟩ := hway w hreach
  · exact h.contributes w hw hw' f hf
  · -- `y` is not on the cycle of its caller: the entry of that cycle was not known
    have hnot : ¬ CallReaches (Calls items) y u := by
      intro hyu
      obtain ⟨e, he, hentry', heu, hue⟩ := h.exists_entry hlive hx hentry hu hu'
      obtain ⟨e', he', hentry'', hey, hye⟩ := hentered y hy
      have hsame : e' = e := hone e' e hentry'' hentry' ((hey.trans hyu).trans hue)
        ((heu.tail hcall).trans hye)
      rw [hsame, he] at he'
      cases he'
    have hxu := h.reaches hu hu'
    obtain hcomplete | hyx := hpending y hy (Or.inr ⟨u, hlive.reaches hxu, hcall, hnot⟩)
    · exact h.passes u hu hu' y hcall hy f (hcomplete w f hyw hf)
    · exact absurd (hyx.trans hxu) hnot

/-- What a request leaves: every entry that became known is complete. -/
structure Settles (items : S → List (Item S M)) (holds : M → F → Prop) (rs : List S)
    (st st' : Summaries S M) : Prop where
  complete : ∀ y, st.known y = false → st'.known y = true → IsEntry (Calls items) rs y →
    Complete items holds st' y
  entered : EntriesCalled items rs st'

omit [DecidableEq S] in
theorem Complete.congr {st st' : Summaries S M} {y : S} (h : st'.summary y = st.summary y)
    (hy : Complete items holds st y) : Complete items holds st' y := by
  intro w f hreach hf
  rw [h]
  exact hy w f hreach hf

omit [DecidableEq S] in
theorem EntriesCalled.congr {rs : List S} {st st' : Summaries S M} (h : st'.known = st.known)
    (hst : EntriesCalled items rs st) : EntriesCalled items rs st' := by
  rw [EntriesCalled]
  rw [h]
  exact hst

theorem EntriesCalled.setKnown {rs : List S} {s : S} {st : Summaries S M} (h : EntriesCalled items rs st)
    (hentry : IsEntry (Calls items) rs s ∨ ∃ e, st.known e = true ∧ IsEntry (Calls items) rs e ∧
      CallReaches (Calls items) e s ∧ CallReaches (Calls items) s e) : EntriesCalled items rs (st.setKnown s) := by
  intro y hy
  obtain rfl | hy := (known_setKnown s y st).1 hy
  · obtain hentry | ⟨e, he, hentry, hes, hse⟩ := hentry
    · exact ⟨y, (known_setKnown y y st).2 (Or.inl rfl), hentry, .refl, .refl⟩
    · exact ⟨e, (known_setKnown y e st).2 (Or.inr he), hentry, hes, hse⟩
  · obtain ⟨e, he, hentry, hey, hye⟩ := h y hy
    exact ⟨e, (known_setKnown s e st).2 (Or.inr he), hentry, hey, hye⟩

theorem settles_request [Fintype S] (hadd : Additive items join holds) {rs : List S}
    (hone : OneEntry (Calls items) rs) :
    ∀ {fuel : Nat} {s : S} {st : Summaries S M}, unknowns st < fuel → st.known s = false →
      Live (Calls items) rs s → EntriesCalled items rs st →
      (IsEntry (Calls items) rs s ∨ ∃ e, st.known e = true ∧ IsEntry (Calls items) rs e ∧ CallReaches (Calls items) e s ∧
        CallReaches (Calls items) s e) →
      (∀ y, st.known y = true → IsEntry (Calls items) rs y →
        Complete items holds st y ∨ CallReaches (Calls items) y s) →
      Settles items holds rs st (request items join fuel s st) := by
  intro fuel
  induction fuel with
  | zero => exact fun h => by omega
  | succ fuel ih =>
      intro s st hfuel hs hlive hentered hentry hpending
      have hfinal := requested_request hadd hfuel hs
      have hall : Progress items holds (CallsIn items s (items s))
            (ContributesIn items holds s (items s)) s st (request items join (fuel + 1) s st) ∧
          (∀ y, y ≠ s → st.known y = false →
            (request items join (fuel + 1) s st).known y = true → IsEntry (Calls items) rs y →
              Complete items holds (request items join (fuel + 1) s st) y) ∧
          EntriesCalled items rs (request items join (fuel + 1) s st) := by
        -- the invariant of the loop over the items: `pre` are those that are done
        apply request_induction (J := fun pre st' => Progress items holds (CallsIn items s pre)
            (ContributesIn items holds s pre) s st st' ∧
          (∀ y, y ≠ s → st.known y = false → st'.known y = true → IsEntry (Calls items) rs y →
            Complete items holds st' y) ∧ EntriesCalled items rs st') hs
        · refine ⟨Progress.start, fun y hne hy hy' _ => ?_, hentered.setKnown hentry⟩
          obtain h | h := (known_setKnown s y st).1 hy'
          · exact absurd h hne
          · rw [hy] at h
            cases h
        · rintro pre i st' hi ⟨h, hcomplete, hentered'⟩
          have hfuel' : unknowns st' < fuel := by
            have := unknowns_lt (fun x hx => (h.known x hx).1) hs h.self
            omega
          refine ⟨h.take hadd hs hi fun c hk => requested_request hadd hfuel' hk, ?_⟩
          cases i with
          | own g =>
              refine ⟨fun y hne hy hy' hentry => ?_, hentered'.congr rfl⟩
              exact (hcomplete y hne hy hy' hentry).congr (summary_modify_of_ne hne g st')
          | call c =>
              cases hk : st'.known c with
              | true =>
                  show _ ∧ EntriesCalled items rs ((request items join fuel c st').modify s fun m =>
                    join m ((request items join fuel c st').summary c))
                  rw [Summaries.take, request_of_known hk]
                  refine ⟨fun y hne hy hy' hentry => ?_, hentered'.congr rfl⟩
                  exact (hcomplete y hne hy hy' hentry).congr (summary_modify_of_ne hne _ st')
              | false =>
                  have hreq := requested_request hadd hfuel' hk
                  -- the callee is an entry unless it calls back, and then an entry of this cycle is known
                  have hsettles := ih hfuel' hk (hlive.reaches (.single hi)) hentered' (by
                    by_cases hback : CallReaches (Calls items) c s
                    · obtain ⟨e, he, hentry, hes, hse⟩ := hentered' s h.self
                      exact Or.inr ⟨e, he, hentry, hes.tail hi, hback.trans hse⟩
                    · exact Or.inl (Or.inr ⟨s, hlive, hi, hback⟩)) (by
                    intro y hy hentry
                    by_cases hys : y = s
                    · exact Or.inr (hys ▸ .single hi)
                    · cases hold : st.known y with
                      | true =>
                          obtain hy | hy := hpending y hold hentry
                          · exact Or.inl (hy.congr (h.known y hold).2)
                          · exact Or.inr (hy.tail hi)
                      | false => exact Or.inl (hcomplete y hys hold hy hentry))
                  refine ⟨fun y hne hy hy' hentry => ?_, hsettles.entered.congr rfl⟩
                  -- what was complete before the request stays so, what it made known is complete by induction
                  have hcallee : Complete items holds (request items join fuel c st') y := by
                    cases hnew : st'.known y with
                    | true => exact (hcomplete y hne hy hnew hentry).congr (hreq.known y hnew).2
                    | false => exact hsettles.complete y hnew hy' hentry
                  apply hcallee.congr
                  exact summary_modify_of_ne hne
                    (fun m => join m ((request items join fuel c st').summary c)) _
      refine ⟨fun y hy hy' hentry' => ?_, hall.2.2⟩
      by_cases hys : y = s
      · subst hys
        exact complete_of_requested hone hfinal hlive hs hentry' hentered hpending
      · exact hall.2.1 y hys hy hy' hentry'

/-! ## Requests -/

/-- The start: nothing is known. -/
def nothingKnown (m : M) : Summaries S M := ⟨fun _ => false, fun _ => m⟩

/-- **After every request the summary of the requested procedure is complete**, when there is one
entry among procedures that reach each other. -/
theorem complete_requests [Fintype S] (hadd : Additive items join holds) {rs : List S}
    (hone : OneEntry (Calls items) rs) (m : M) {fuel : Nat} (hfuel : Fintype.card S < fuel)
    {rs₁ rs₂ : List S} {r : S} (hrs : rs = rs₁ ++ r :: rs₂) :
    Complete items holds (requests items join fuel (rs₁ ++ [r]) (nothingKnown m)) r := by
  have hunknowns : ∀ st : Summaries S M, unknowns st < fuel := fun st =>
    lt_of_le_of_lt (Finset.card_le_univ _) hfuel
  -- after some requests, all known entries are complete, and the requested ones are known
  have hkey : ∀ rs₁ rs₂, rs = rs₁ ++ rs₂ →
      (∀ y, (requests items join fuel rs₁ (nothingKnown m)).known y = true → IsEntry (Calls items) rs y →
        Complete items holds (requests items join fuel rs₁ (nothingKnown m)) y) ∧
      EntriesCalled items rs (requests items join fuel rs₁ (nothingKnown m)) ∧
      ∀ r ∈ rs₁, (requests items join fuel rs₁ (nothingKnown m)).known r = true := by
    intro rs₁
    induction rs₁ using List.reverseRecOn with
    | nil => exact fun rs₂ _ => ⟨nofun, nofun, nofun⟩
    | append_singleton rs₁ r ih =>
        intro rs₂ hrs
        obtain ⟨hcomplete, hentered, hknown⟩ := ih (r :: rs₂) (by simpa using hrs)
        have hmem : r ∈ rs := by simp [hrs]
        have hentry : IsEntry (Calls items) rs r := Or.inl hmem
        have hlive : Live (Calls items) rs r := ⟨r, hmem, .refl⟩
        have hstep : requests items join fuel (rs₁ ++ [r]) (nothingKnown m) =
            request items join fuel r (requests items join fuel rs₁ (nothingKnown m)) := by
          simp [requests]
        rw [hstep]
        generalize requests items join fuel rs₁ (nothingKnown m) = st at hcomplete hentered hknown
        cases hr : st.known r with
        | true =>
            rw [request_of_known hr]
            refine ⟨hcomplete, hentered, fun x hx => ?_⟩
            obtain hx | hx := List.mem_append.1 hx
            · exact hknown x hx
            · rw [List.mem_singleton.1 hx]
              exact hr
        | false =>
            have hreq := requested_request hadd (hunknowns st) hr
            have hsettles := settles_request hadd hone (hunknowns st) hr hlive hentered
              (Or.inl hentry) fun y hy hentry => Or.inl (hcomplete y hy hentry)
            refine ⟨fun y hy hentry => ?_, hsettles.entered, fun x hx => ?_⟩
            · cases hold : st.known y with
              | true => exact (hcomplete y hold hentry).congr (hreq.known y hold).2
              | false => exact hsettles.complete y hold hy hentry
            · obtain hx | hx := List.mem_append.1 hx
              · exact (hreq.known x (hknown x hx)).1
              · rw [List.mem_singleton.1 hx]
                exact hreq.self
  obtain ⟨hcomplete, -, hknown⟩ := hkey (rs₁ ++ [r]) rs₂ (by simp [hrs])
  exact hcomplete r (hknown r (by simp)) (Or.inl (by simp [hrs]))

end Cape.Library
