import Cape.ControlDependence.NTSCD2
import Cape.Library.FinLiterals
import Cape.Library.Reporting
import Cape.Library.Worklist

/-!
# The algorithm `NTSCDRanganath`

A symbol stands for a successor of a predicate; it comes to a node when all maximal paths from that
successor contain the node. `processNode` passes the symbols of a node on: to its single successor,
or to every node that has all symbols of the node itself.

`NTSCDRanganath.fixpoint_agrees`: with the fixpoint the result is that of `NTSCD2`. With the work bag
a node is processed once, and symbols that come to it later stay there
(`NTSCDRanganath.workbag_misses`); `NTSCDRanganath.workbag_covers` says when this does no harm.
-/

set_option autoImplicit false

namespace Cape.ControlDependence

open Cape.Library

namespace NTSCDRanganath

variable (G : CDGraph)

/-- `Symbol`: a predicate and one of its successors. -/
abbrev Symbol : Type := G.Node × G.Node

/-- `S` and `workbag`. -/
structure State where
  S : G.Node → G.Node → Finset (Symbol G)
  workbag : Worklist G.Node

variable {G}

/-- The symbols of `p` at the node `n` are inserted at `m`; when one is new, `m` is queued. -/
def transfer (n m p : G.Node) : Step (State G) := fun s =>
  if s.S n p ⊆ s.S m p then (s, false)
  else
    ({ S := Function.update s.S m (Function.update (s.S m) p (s.S m p ∪ s.S n p))
       workbag := Worklist.see .queue s.workbag m }, true)

/-- The case of several successors, for one node `m`. -/
def passOn (n m : G.Node) : Step (State G) := fun s =>
  if (s.S m n).card = (G.successors n).length then
    Step.each (fun p => if p = n then Step.skip else transfer n m p) G.predicates s
  else (s, false)

/-- `processNode`. -/
def processNode (n : G.Node) : Step (State G) :=
  match getSingleSuccessor (G.successors n) with
  | some s => if s = n then Step.skip else Step.each (transfer n s) G.predicates
  | none =>
      if 1 < (G.successors n).length then Step.each (passOn n) G.nodes else Step.skip

variable (G)

/-- Every predicate gives its symbols to its successors, which are queued. -/
def initial : State G where
  S := fun n p => if p ∈ G.predicates ∧ n ∈ G.successors p then {(p, n)} else ∅
  workbag := (G.predicates.flatMap G.successors).foldl (Worklist.see .queue) ⟨∅, []⟩

/-- All nodes are processed again and again, until nothing changes. -/
def fixpoint : Nat → State G → Option (State G)
  | 0, _ => none
  | fuel + 1, s =>
      if (Step.each processNode G.nodes s).2 then fixpoint fuel (Step.each processNode G.nodes s).1
      else some (Step.each processNode G.nodes s).1

/-- The next node of the work bag is processed. -/
def take (n : G.Node) (rest : List G.Node) (s : State G) : State G :=
  (processNode n { s with workbag := ⟨s.workbag.seen, rest⟩ }).1

/-- Until the work bag is empty. -/
def empty : Nat → State G → Option (State G)
  | 0, _ => none
  | fuel + 1, s =>
      match s.workbag.pending with
      | [] => some s
      | n :: rest => empty fuel (take G n rest s)

/-- Step (3): the dependencies are read off the symbols. -/
def readOff (s : State G) : Result G.Node :=
  G.nodes.foldl (fun r n =>
    r.addAll (fun p => 0 < (s.S n p).card && (s.S n p).card < (G.successors p).length) n
      G.predicates) .empty

/-- `compute`; `none` when the fuel is spent. -/
def compute (doFixpoint : Bool) (fuel : Nat) : Option (Result G.Node) :=
  (if doFixpoint then fixpoint G fuel (initial G) else empty G fuel (initial G)).map (readOff G)

variable {G}

/-! ## One node -/

theorem card_successors (n : G.Node) : (G.successors n).toFinset.card = (G.successors n).length :=
  List.toFinset_card_of_nodup (G.nodup_successors n)

/-- Where the symbols of `n` may go in a state: to its only successor, or to a node that has all
symbols of `n`. -/
def Receives (n m : G.Node) (s : State G) : Prop :=
  G.successors n = [m] ∨
    (1 < (G.successors n).length ∧ (s.S m n).card = (G.successors n).length)

theorem transfer_cases (n m p : G.Node) (s : State G) :
    (s.S n p ⊆ s.S m p ∧ transfer n m p s = (s, false)) ∨
    (¬ s.S n p ⊆ s.S m p ∧ (transfer n m p s).2 = true ∧
      (transfer n m p s).1.workbag = Worklist.see .queue s.workbag m ∧
      ∀ m' p', (transfer n m p s).1.S m' p' =
        if m' = m ∧ p' = p then s.S m p ∪ s.S n p else s.S m' p') := by
  rw [transfer]
  by_cases h : s.S n p ⊆ s.S m p
  · exact Or.inl ⟨h, if_pos h⟩
  · right
    rw [if_neg h]
    refine ⟨h, rfl, rfl, fun m' p' => ?_⟩
    by_cases hm : m' = m
    · subst hm
      by_cases hp : p' = p
      · subst hp
        simp
      · simp [hp]
    · simp [hm]

/-- **What a node does**: it passes symbols on where they may go, and nothing else. -/
theorem processNode_keeps {P : State G → Prop} {n : G.Node}
    (h : ∀ m ≠ n, ∀ p ∈ G.predicates, ∀ s, Receives n m s → P s → P (transfer n m p s).1)
    {s : State G} (hs : P s) : P (processNode n s).1 := by
  -- a node gets nothing from itself
  have htransfer : ∀ m, ∀ p ∈ G.predicates, ∀ s, Receives n m s → P s → P (transfer n m p s).1 := by
    intro m p hp s hm hs
    by_cases hne : m = n
    · subst hne
      have hself : transfer m m p s = (s, false) := if_pos (Finset.Subset.refl _)
      rw [hself]
      exact hs
    · exact h m hne p hp s hm hs
  rw [processNode]
  cases hone : getSingleSuccessor (G.successors n) with
  | some m =>
      by_cases hmn : m = n
      · simp only [if_pos hmn]
        exact hs
      · simp only [if_neg hmn]
        apply Step.each_keeps _ hs
        exact fun p hp s => htransfer m p hp s (Or.inl (getSingleSuccessor_eq_some.1 hone))
  | none =>
      by_cases hlen : 1 < (G.successors n).length
      · simp only [if_pos hlen]
        apply Step.each_keeps _ hs
        intro m _ s hs
        rw [passOn]
        split
        · next hcard =>
            -- the symbols of the node itself stay what they are at `m`
            have hboth := Step.each_keeps (P := fun t => P t ∧ t.S m n = s.S m n)
              (f := fun p => if p = n then Step.skip else transfer n m p) (l := G.predicates)
              (fun p hp t ht => by
                by_cases hpn : p = n
                · rw [if_pos hpn]
                  exact ht
                · rw [if_neg hpn]
                  refine ⟨htransfer m p hp t (Or.inr ⟨hlen, ht.2 ▸ hcard⟩) ht.1, ?_⟩
                  obtain ⟨-, heq⟩ | ⟨-, -, -, hS⟩ := transfer_cases n m p t
                  · rw [heq]
                    exact ht.2
                  · rw [hS, if_neg fun h => hpn h.2.symm]
                    exact ht.2)
              ⟨hs, rfl⟩
            exact hboth.1
        · exact hs
      · simp only [if_neg hlen]
        exact hs

theorem quiet_transfer (n m p : G.Node) : Step.Quiet (transfer n m p) := by
  intro s h
  obtain ⟨-, heq⟩ | ⟨-, htrue, -⟩ := transfer_cases n m p s
  · rw [heq]
  · rw [htrue] at h
    cases h

theorem quiet_passOn (n m : G.Node) : Step.Quiet (passOn n m) := by
  intro s h
  rw [passOn] at h ⊢
  split
  · next hcard =>
      rw [if_pos hcard] at h
      refine Step.quiet_each (fun p _ => ?_) s h
      split
      · exact Step.quiet_skip
      · exact quiet_transfer n m p
  · rfl

theorem quiet_processNode (n : G.Node) : Step.Quiet (processNode n) := by
  rw [processNode]
  split
  · split
    · exact Step.quiet_skip
    · exact Step.quiet_each fun p _ => quiet_transfer n _ p
  · split
    · exact Step.quiet_each fun m _ => quiet_passOn n m
    · exact Step.quiet_skip

/-- A node that has nothing to pass on. -/
theorem subset_of_quiet {n : G.Node} {s : State G} (h : (processNode n s).2 = false) {m : G.Node}
    (hm : Receives n m s) {p : G.Node} (hp : p ∈ G.predicates) (hpn : 1 < (G.successors n).length → p ≠ n) :
    s.S n p ⊆ s.S m p := by
  have hsub : ∀ {m p : G.Node}, (transfer n m p s).2 = false → s.S n p ⊆ s.S m p := by
    intro m p h
    obtain ⟨hsub, -⟩ | ⟨-, htrue, -⟩ := transfer_cases n m p s
    · exact hsub
    · rw [htrue] at h
      cases h
  rw [processNode] at h
  obtain hone | ⟨hlen, hcard⟩ := hm
  · by_cases hmn : m = n
    · rw [hmn]
    · rw [getSingleSuccessor_eq_some.2 hone] at h
      simp only [if_neg hmn] at h
      exact hsub ((Step.each_of_quiet (fun p _ => quiet_transfer n m p) h).2 p hp)
  · -- a branch: all symbols but its own go on
    have hnone : getSingleSuccessor (G.successors n) = none := by
      cases heq : getSingleSuccessor (G.successors n) with
      | none => rfl
      | some s => simp [getSingleSuccessor_eq_some.1 heq] at hlen
    rw [hnone] at h
    simp only [if_pos hlen] at h
    have hpass := (Step.each_of_quiet (fun m _ => quiet_passOn n m) h).2 m (G.mem_nodes m)
    rw [passOn] at hpass
    rw [if_pos hcard] at hpass
    have hquiet : ∀ p ∈ G.predicates,
        Step.Quiet (if p = n then Step.skip else transfer n m p : Step (State G)) := by
      intro p _
      split
      · exact Step.quiet_skip
      · exact quiet_transfer n m p
    have hp' := (Step.each_of_quiet hquiet hpass).2 p hp
    rw [if_neg (hpn hlen)] at hp'
    exact hsub hp'

/-! ## Symbols come where they belong -/

/-- A symbol at a node stands for a successor whose maximal paths all contain the node. -/
def Sound (s : State G) : Prop :=
  ∀ m p, ∀ t ∈ s.S m p, t.1 = p ∧ t.2 ∈ G.successors p ∧ G.Reaching m t.2

/-- The symbols of the start are there. -/
def Started (s : State G) : Prop := ∀ p ∈ G.predicates, ∀ x ∈ G.successors p, (p, x) ∈ s.S x p

theorem Sound.subset {s : State G} (h : Sound s) (m p : G.Node) :
    s.S m p ⊆ (G.successors p).toFinset.image fun x => (p, x) := by
  rintro ⟨q, x⟩ ht
  obtain ⟨rfl, hx, -⟩ := h m p _ ht
  exact Finset.mem_image.2 ⟨x, List.mem_toFinset.2 hx, rfl⟩

theorem card_image_successors (p : G.Node) :
    ((G.successors p).toFinset.image fun x => (p, x)).card = (G.successors p).length := by
  rw [Finset.card_image_of_injective _ (Prod.mk_right_injective p), card_successors]

/-- With as many symbols as there are successors, none is missing. -/
theorem Sound.full_iff {s : State G} (h : Sound s) (m p : G.Node) :
    (s.S m p).card = (G.successors p).length ↔ ∀ x ∈ G.successors p, (p, x) ∈ s.S m p := by
  rw [← card_image_successors p]
  constructor
  · intro hcard x hx
    rw [Finset.eq_of_subset_of_card_le (h.subset m p) hcard.ge]
    exact Finset.mem_image.2 ⟨x, List.mem_toFinset.2 hx, rfl⟩
  · intro hall
    congr 1
    refine Finset.Subset.antisymm (h.subset m p) fun t ht => ?_
    obtain ⟨x, hx, rfl⟩ := Finset.mem_image.1 ht
    exact hall x (List.mem_toFinset.1 hx)

/-- Where symbols of `n` go, all maximal paths from `n` lead. -/
theorem Sound.reaching {s : State G} (h : Sound s) {n m : G.Node} (hm : Receives n m s) :
    G.Reaching m n := by
  obtain hone | ⟨hlen, hcard⟩ := hm
  · refine .of_all (by simp [hone]) fun x hx => ?_
    rw [hone, List.mem_singleton] at hx
    exact .here hx
  · refine .of_all (fun hnil => by simp [hnil] at hlen) fun x hx => ?_
    exact (h m n _ ((h.full_iff m n).1 hcard x hx)).2.2

theorem Sound.transfer {s : State G} (h : Sound s) {n m p : G.Node} (hm : Receives n m s) :
    Sound (transfer n m p s).1 := by
  obtain ⟨-, heq⟩ | ⟨-, -, -, hS⟩ := transfer_cases n m p s
  · rw [heq]
    exact h
  · intro m' p' t ht
    rw [hS] at ht
    split at ht
    · next heq =>
        obtain ⟨rfl, rfl⟩ := heq
        obtain ht | ht := Finset.mem_union.1 ht
        · exact h m' p' t ht
        · obtain ⟨hfst, hsnd, hreach⟩ := h n p' t ht
          exact ⟨hfst, hsnd, hreach.trans (h.reaching hm)⟩
    · exact h m' p' t ht

theorem subset_transfer (n m p : G.Node) (s : State G) (m' p' : G.Node) :
    s.S m' p' ⊆ (transfer n m p s).1.S m' p' := by
  obtain ⟨-, heq⟩ | ⟨-, -, -, hS⟩ := transfer_cases n m p s
  · rw [heq]
  · rw [hS]
    split
    · next heq =>
        rw [heq.1, heq.2]
        exact Finset.subset_union_left
    · exact Finset.Subset.refl _

theorem Sound.processNode {s : State G} (h : Sound s) (n : G.Node) : Sound (processNode n s).1 :=
  processNode_keeps (fun _ _ _ _ _ hm hs => hs.transfer hm) h

theorem Started.processNode {s : State G} (h : Started s) (n : G.Node) :
    Started (processNode n s).1 :=
  processNode_keeps (fun _ _ _ _ _ _ hs p hp x hx => subset_transfer _ _ _ _ x p (hs p hp x hx)) h

theorem sound_initial : Sound (initial G) := by
  intro m p t ht
  replace ht : t ∈ if p ∈ G.predicates ∧ m ∈ G.successors p then {(p, m)} else ∅ := ht
  split at ht
  · next hmp =>
      obtain rfl := Finset.mem_singleton.1 ht
      exact ⟨rfl, hmp.2, .here rfl⟩
  · exact absurd ht (Finset.notMem_empty t)

theorem started_initial : Started (initial G) := by
  intro p hp x hx
  show (p, x) ∈ if p ∈ G.predicates ∧ x ∈ G.successors p then _ else _
  rw [if_pos ⟨hp, hx⟩]
  exact Finset.mem_singleton_self _

/-- **When no node has anything to pass on**, every symbol has come wherever it belongs. -/
theorem mem_of_quiet {s : State G} (hsound : Sound s) (hstart : Started s)
    (hquiet : ∀ n, (processNode n s).2 = false) {m y : G.Node} (h : G.Reaching m y) :
    ∀ p ∈ G.predicates, s.S y p ⊆ s.S m p := by
  induction h with
  | here hy => exact fun p _ => hy ▸ Finset.Subset.refl _
  | @next y _ hne hall ih =>
      intro p hp
      obtain ⟨z, hz⟩ := List.exists_mem_of_ne_nil _ hne
      by_cases hlen : 1 < (G.successors y).length
      · -- the node `m` has all symbols of `y`
        have hy : y ∈ G.predicates := (G.mem_predicates y).2 hlen
        have hfull : ∀ x ∈ G.successors y, (y, x) ∈ s.S m y := fun x hx =>
          ih x hx y hy (hstart y hy x hx)
        by_cases hpy : p = y
        · subst hpy
          intro t ht
          obtain ⟨hfst, hsnd, -⟩ := hsound p p t ht
          have hmem := hfull t.2 hsnd
          rwa [show (p, t.2) = t from Prod.ext hfst.symm rfl] at hmem
        · exact subset_of_quiet (hquiet y) (Or.inr ⟨hlen, (hsound.full_iff m y).2 hfull⟩) hp
            fun _ => hpy
      · have hone : G.successors y = [z] := by
          match hl : G.successors y with
          | [] => exact absurd hl hne
          | [a] => simpa [hl, eq_comm] using hz
          | _ :: _ :: _ => simp [hl] at hlen
        have hsub : s.S y p ⊆ s.S z p :=
          subset_of_quiet (hquiet y) (Or.inl hone) hp fun h => absurd h hlen
        exact hsub.trans (ih z hz p hp)

/-- The symbols say at the end what is on all maximal paths. -/
theorem mem_iff_of_quiet {s : State G} (hsound : Sound s) (hstart : Started s)
    (hquiet : ∀ n, (processNode n s).2 = false) {m p x : G.Node} (hp : p ∈ G.predicates)
    (hx : x ∈ G.successors p) : (p, x) ∈ s.S m p ↔ G.Reaching m x :=
  ⟨fun h => (hsound m p _ h).2.2,
    fun h => mem_of_quiet hsound hstart hquiet h p hp (hstart p hp x hx)⟩

/-- The pairs that are read off the symbols. -/
theorem mem_read {s : State G} (hsound : Sound s) (n p : G.Node) :
    (0 < (s.S n p).card && (s.S n p).card < (G.successors p).length) = true ↔
      (∃ x ∈ G.successors p, (p, x) ∈ s.S n p) ∧ ∃ x ∈ G.successors p, (p, x) ∉ s.S n p := by
  have hsome : 0 < (s.S n p).card ↔ ∃ x ∈ G.successors p, (p, x) ∈ s.S n p := by
    rw [Finset.card_pos]
    constructor
    · rintro ⟨t, ht⟩
      obtain ⟨hfst, hsnd, -⟩ := hsound n p t ht
      exact ⟨t.2, hsnd, hfst ▸ ht⟩
    · rintro ⟨x, -, hx⟩
      exact ⟨_, hx⟩
  have hle : (s.S n p).card ≤ (G.successors p).length := by
    rw [← card_image_successors p]
    exact Finset.card_le_card (hsound.subset n p)
  have hfew : (s.S n p).card < (G.successors p).length ↔
      ∃ x ∈ G.successors p, (p, x) ∉ s.S n p := by
    rw [lt_iff_le_and_ne, and_iff_right hle, Ne, hsound.full_iff]
    push Not
    rfl
  rw [Bool.and_eq_true, decide_eq_true_iff, decide_eq_true_iff, hsome, hfew]

theorem mem_readOff {s : State G} (hsound : Sound s) (n p : G.Node) :
    p ∈ (readOff G s).CD n ↔ p ∈ G.predicates ∧
      (∃ x ∈ G.successors p, (p, x) ∈ s.S n p) ∧ ∃ x ∈ G.successors p, (p, x) ∉ s.S n p := by
  rw [readOff]
  rw [Result.mem_foldl_addAll
    (fun n p => 0 < (s.S n p).card && (s.S n p).card < (G.successors p).length), mem_read hsound]
  simp

theorem converse_readOff (s : State G) : (readOff G s).Converse :=
  Result.Converse.foldl (fun _ _ _ hr => hr.addAll) Result.converse_empty

/-- The two maps are filled together. -/
theorem converse_compute {doFixpoint : Bool} {fuel : Nat} {r : Result G.Node}
    (h : compute G doFixpoint fuel = some r) : r.Converse := by
  obtain ⟨s, -, rfl⟩ := Option.map_eq_some_iff.1 h
  exact converse_readOff s

/-- When no node has anything to pass on, the relation is read off. -/
theorem mem_readOff_of_quiet {s : State G} (hsound : Sound s) (hstart : Started s)
    (hquiet : ∀ n, (processNode n s).2 = false) (n p : G.Node) :
    p ∈ (readOff G s).CD n ↔
      (∃ x ∈ G.successors p, G.Reaching n x) ∧ ∃ x ∈ G.successors p, ¬ G.Reaching n x := by
  rw [mem_readOff hsound]
  by_cases hp : p ∈ G.predicates
  · have hiff : ∀ x ∈ G.successors p, (p, x) ∈ s.S n p ↔ G.Reaching n x := fun x hx =>
      mem_iff_of_quiet hsound hstart hquiet hp hx
    constructor
    · rintro ⟨-, ⟨x, hx, hin⟩, y, hy, hout⟩
      exact ⟨⟨x, hx, (hiff x hx).1 hin⟩, y, hy, fun h => hout ((hiff y hy).2 h)⟩
    · rintro ⟨⟨x, hx, hin⟩, y, hy, hout⟩
      exact ⟨hp, ⟨x, hx, (hiff x hx).2 hin⟩, y, hy, fun h => hout ((hiff y hy).1 h)⟩
  · exact iff_of_false (fun h => hp h.1) fun h => hp (G.ntscd_iff.2 h).mem_predicates

/-! ## The fixpoint -/

/-- The number of symbols at all nodes. -/
def rank (s : State G) : Nat := ∑ q : G.Node × G.Node, (s.S q.1 q.2).card

theorem rank_le (s : State G) : rank s ≤ G.size ^ 4 := by
  have hle : ∀ q ∈ (Finset.univ : Finset (G.Node × G.Node)), (s.S q.1 q.2).card ≤ G.size * G.size := by
    intro q _
    simpa using Finset.card_le_univ (s.S q.1 q.2)
  calc rank s ≤ (Finset.univ : Finset (G.Node × G.Node)).card • (G.size * G.size) :=
        Finset.sum_le_card_nsmul _ _ _ hle
    _ = G.size ^ 4 := by
      simp
      ring

/-- Symbols are added only, and what is reported is one more. -/
def Raises (s t : State G) (reported : Bool) : Prop :=
  rank s ≤ rank t ∧ (reported = true → rank s < rank t)

theorem composes_raises : Step.Composes (Raises (G := G)) where
  skip := fun _ => ⟨Nat.le_refl _, nofun⟩
  andThen := by
    rintro s t u b c ⟨hle, hlt⟩ ⟨hle', hlt'⟩
    refine ⟨hle.trans hle', fun h => ?_⟩
    obtain hb | hc := Bool.or_eq_true_iff.1 h
    · exact Nat.lt_of_lt_of_le (hlt hb) hle'
    · exact Nat.lt_of_le_of_lt hle (hlt' hc)

theorem transfer_raises (n m p : G.Node) (s : State G) : Step.Meets Raises (transfer n m p) s := by
  obtain ⟨-, heq⟩ | ⟨hnot, -, -, hS⟩ := transfer_cases n m p s
  · exact (Step.meets_skip composes_raises s).of_eq heq
  · have hlt : rank s < rank (transfer n m p s).1 := by
      refine Finset.sum_lt_sum
        (fun q _ => Finset.card_le_card (subset_transfer n m p s q.1 q.2))
        ⟨(m, p), Finset.mem_univ _, Finset.card_lt_card ⟨subset_transfer n m p s m p, ?_⟩⟩
      rw [hS, if_pos ⟨rfl, rfl⟩]
      exact fun h => hnot (Finset.subset_union_right.trans h)
    exact ⟨hlt.le, fun _ => hlt⟩

theorem passOn_raises (n m : G.Node) (s : State G) : Step.Meets Raises (passOn n m) s := by
  refine Step.Meets.ite (g := Step.each (fun p => if p = n then Step.skip else transfer n m p)
    G.predicates) (h := Step.skip) rfl (fun _ => ?_) fun _ => Step.meets_skip composes_raises s
  refine Step.Meets.each composes_raises (fun p _ s => ?_) s
  split
  · exact Step.meets_skip composes_raises s
  · exact transfer_raises n m p s

theorem processNode_raises (n : G.Node) (s : State G) : Step.Meets Raises (processNode n) s := by
  rw [processNode]
  split
  · split
    · exact Step.meets_skip composes_raises s
    · exact Step.Meets.each composes_raises (fun p _ => transfer_raises n _ p) s
  · split
    · exact Step.Meets.each composes_raises (fun m _ => passOn_raises n m) s
    · exact Step.meets_skip composes_raises s

/-- **The loop ends**, in a state where no node has anything to pass on. -/
theorem fixpoint_spec : ∀ {fuel : Nat} {s : State G}, Sound s → Started s →
    G.size ^ 4 < fuel + rank s →
    ∃ t, fixpoint G fuel s = some t ∧ Sound t ∧ Started t ∧ ∀ n, (processNode n t).2 = false := by
  intro fuel
  induction fuel with
  | zero =>
      intro s _ _ hfuel
      have := rank_le s
      omega
  | succ fuel ih =>
      intro s hsound hstart hfuel
      cases hreport : (Step.each processNode G.nodes s).2 with
      | true =>
          have hraise : Step.Meets Raises (Step.each processNode G.nodes) s :=
            Step.Meets.each composes_raises (fun n _ => processNode_raises n) s
          have hlt := hraise.2 hreport
          have hfuel' : G.size ^ 4 < fuel + rank (Step.each processNode G.nodes s).1 := by omega
          obtain ⟨t, ht, hend⟩ := ih (Step.each_keeps (fun n _ _ h => h.processNode n) hsound)
            (Step.each_keeps (fun n _ _ h => h.processNode n) hstart) hfuel'
          refine ⟨t, ?_, hend⟩
          simp only [fixpoint, hreport, if_true]
          exact ht
      | false =>
          obtain ⟨hsame, hquiet⟩ := Step.each_of_quiet (fun n _ => quiet_processNode n) hreport
          refine ⟨s, ?_, hsound, hstart, fun n => hquiet n (G.mem_nodes n)⟩
          simp only [fixpoint, hreport, Bool.false_eq_true, if_false, hsame]

/-- **With the fixpoint the result is that of `NTSCD2`**, which is the relation. -/
theorem fixpoint_agrees (G : CDGraph) (order : Enumeration G.Node) (extra : Nat) :
    ∃ r, compute G true (G.size ^ 4 + 1 + extra) = some r ∧
      NTSCD2.compute G order (2 * G.size + 2 + extra) = some r ∧
      ∀ n p, p ∈ r.CD n ↔ G.NTSCD p n := by
  obtain ⟨s, hs, hsound, hstart, hquiet⟩ := fixpoint_spec
    (sound_initial (G := G)) started_initial
    (show G.size ^ 4 < G.size ^ 4 + 1 + extra + _ by omega)
  obtain ⟨r, hr, hmem⟩ := NTSCD2.compute_spec G order extra
  have hread : readOff G s = r := by
    apply (converse_readOff s).ext (NTSCD2.converse_compute hr)
    intro n p
    rw [mem_readOff_of_quiet hsound hstart hquiet, hmem]
  refine ⟨r, ?_, hr, fun n p => by rw [hmem, G.ntscd_iff]⟩
  rw [compute]
  rw [if_pos rfl, hs, ← hread]
  rfl

/-! ## The work bag -/

/-- The nodes of a list have nothing to pass on. -/
def PassedOn (done : List G.Node) (s : State G) : Prop := ∀ n ∈ done, (processNode n s).2 = false

/-- **No symbol comes late**: whenever a node is taken from the work bag, and when the bag is empty,
the nodes that had their turn before have nothing to pass on. -/
def Timely : Nat → List G.Node → State G → Prop
  | 0, _, _ => True
  | fuel + 1, done, s =>
      PassedOn done s ∧
        match s.workbag.pending with
        | [] => True
        | n :: rest => Timely fuel (n :: done) (take G n rest s)

instance (done : List G.Node) (s : State G) : Decidable (PassedOn done s) :=
  inferInstanceAs (Decidable (∀ n ∈ done, (processNode n s).2 = false))

instance decidableTimely : ∀ (fuel : Nat) (done : List G.Node) (s : State G),
    Decidable (Timely fuel done s)
  | 0, _, _ => isTrue trivial
  | fuel + 1, done, s =>
      match h : s.workbag.pending with
      | [] => decidable_of_iff (PassedOn done s) (by simp [Timely, h])
      | n :: rest =>
          have := decidableTimely fuel (n :: done) (take G n rest s)
          decidable_of_iff (PassedOn done s ∧ Timely fuel (n :: done) (take G n rest s))
            (by simp [Timely, h])

/-- The work bag when the nodes of `done` had their turn: a node with symbols is in it or had its
turn. -/
structure Bag (done : List G.Node) (s : State G) : Prop where
  sound : Sound s
  started : Started s
  queued : ∀ n ∈ s.workbag.seen, n ∈ s.workbag.pending ∨ n ∈ done
  symbols : ∀ n p, s.S n p ≠ ∅ → n ∈ s.workbag.seen

theorem queued_see {done : List G.Node} {w : Worklist G.Node}
    (h : ∀ n ∈ w.seen, n ∈ w.pending ∨ n ∈ done) (m : G.Node) :
    ∀ n ∈ (w.see .queue m).seen, n ∈ (w.see .queue m).pending ∨ n ∈ done := by
  intro n hn
  rw [Worklist.mem_pending_see]
  obtain rfl | hn := (Worklist.mem_seen_see _ _ _ _).1 hn
  · by_cases hseen : n ∈ w.seen
    · exact (h n hseen).imp_left Or.inl
    · exact Or.inl (Or.inr ⟨rfl, hseen⟩)
  · exact (h n hn).imp_left Or.inl

theorem Bag.transfer {done : List G.Node} {s : State G} (h : Bag done s) {n m p : G.Node}
    (hm : Receives n m s) : Bag done (transfer n m p s).1 := by
  have hsound := h.sound.transfer hm (p := p)
  have hstart : Started (NTSCDRanganath.transfer n m p s).1 := fun q hq x hx =>
    subset_transfer n m p s x q (h.started q hq x hx)
  obtain ⟨-, heq⟩ | ⟨-, -, hbag, hS⟩ := transfer_cases n m p s
  · rw [heq]
    exact h
  · refine ⟨hsound, hstart, ?_, fun m' p' hne => ?_⟩
    · rw [hbag]
      exact queued_see h.queued m
    · rw [hbag, Worklist.mem_seen_see]
      rw [hS] at hne
      split at hne
      · next heq => exact Or.inl heq.1
      · exact Or.inr (h.symbols m' p' hne)

/-- **One turn.** -/
theorem Bag.take {done : List G.Node} {s : State G} (h : Bag done s) {n : G.Node}
    {rest : List G.Node} (hpending : s.workbag.pending = n :: rest) :
    Bag (n :: done) (take G n rest s) := by
  apply processNode_keeps (P := Bag (n :: done)) fun _ _ _ _ _ hm hs => hs.transfer hm
  refine ⟨h.sound, h.started, fun k hk => ?_, h.symbols⟩
  obtain hk | hk := h.queued k hk
  · rw [hpending] at hk
    obtain rfl | hk := List.mem_cons.1 hk
    · exact Or.inr List.mem_cons_self
    · exact Or.inl hk
  · exact Or.inr (List.mem_cons_of_mem n hk)

theorem bag_initial : Bag [] (initial G) := by
  refine ⟨sound_initial, started_initial, ?_, fun n p hne => ?_⟩
  · have hsee : ∀ (l : List G.Node) (w : Worklist G.Node),
        (∀ n ∈ w.seen, n ∈ w.pending ∨ n ∈ ([] : List G.Node)) →
        ∀ n ∈ (l.foldl (Worklist.see .queue) w).seen,
          n ∈ (l.foldl (Worklist.see .queue) w).pending ∨ n ∈ ([] : List G.Node) := by
      intro l
      induction l with
      | nil => exact fun _ h => h
      | cons a l ih => exact fun w h => ih _ (queued_see h a)
    exact hsee _ _ fun n hn => absurd hn (Finset.notMem_empty n)
  · refine (Worklist.mem_seen_foldl_see _ _ _ _).2 (Or.inl ?_)
    by_contra hnot
    refine hne (if_neg fun h => hnot ?_)
    exact List.mem_flatMap.2 ⟨p, h.1, h.2⟩

/-- A node without symbols has nothing to pass on. -/
theorem quiet_of_empty {n : G.Node} {s : State G} (h : ∀ p, s.S n p = ∅) :
    (processNode n s).2 = false := by
  have htransfer : ∀ m p, transfer n m p s = (s, false) := fun m p =>
    if_pos (by rw [h p]; exact Finset.empty_subset _)
  have hpass : ∀ m, (passOn n m s).2 = false := by
    intro m
    rw [passOn]
    split
    · rw [Step.each_of_still (fun p _ => ?_) fun p _ => ?_]
      · split
        · exact Step.quiet_skip
        · exact quiet_transfer n m p
      · split
        · rfl
        · rw [htransfer]
    · rfl
  rw [processNode]
  cases getSingleSuccessor (G.successors n) with
  | some m =>
      by_cases hmn : m = n
      · simp only [if_pos hmn]
        rfl
      · simp only [if_neg hmn]
        rw [Step.each_of_still (fun p _ => quiet_transfer n m p) fun p _ => by rw [htransfer]]
  | none =>
      by_cases hlen : 1 < (G.successors n).length
      · simp only [if_pos hlen]
        rw [Step.each_of_still (fun m _ => quiet_passOn n m) fun m _ => hpass m]
      · simp only [if_neg hlen]
        rfl

theorem Bag.quiet {done : List G.Node} {s : State G} (h : Bag done s) (hpassed : PassedOn done s)
    (hempty : s.workbag.pending = []) (n : G.Node) : (processNode n s).2 = false := by
  by_cases hn : n ∈ s.workbag.seen
  · obtain hn | hn := h.queued n hn
    · rw [hempty] at hn
      cases hn
    · exact hpassed n hn
  · apply quiet_of_empty
    intro p
    by_contra hne
    exact hn (h.symbols n p hne)

/-- A turn takes one node from what may still come to the bag. -/
theorem size_take {n : G.Node} {rest : List G.Node} {s : State G}
    (hpending : s.workbag.pending = n :: rest) :
    Worklist.size (take G n rest s).workbag + 1 = Worklist.size s.workbag := by
  have hkeeps : ∀ k, Worklist.size (⟨s.workbag.seen, rest⟩ : Worklist G.Node) = k →
      Worklist.size (take G n rest s).workbag = k := by
    intro k hk
    refine processNode_keeps (P := fun t => Worklist.size t.workbag = k) (fun m _ p _ t _ ht => ?_) hk
    obtain ⟨-, heq⟩ | ⟨-, -, hbag, -⟩ := transfer_cases n m p t
    · rw [heq]
      exact ht
    · rw [hbag, Worklist.size_see]
      exact ht
  rw [hkeeps _ rfl]
  simp only [Worklist.size, hpending, List.length_cons]
  omega

/-- **The work bag is emptied**; when no symbol comes late, no node has anything to pass on then. -/
theorem empty_spec : ∀ {fuel : Nat} {done : List G.Node} {s : State G}, Bag done s →
    Worklist.size s.workbag < fuel →
    ∃ t, empty G fuel s = some t ∧ Sound t ∧ Started t ∧
      (Timely fuel done s → ∀ n, (processNode n t).2 = false) := by
  intro fuel
  induction fuel with
  | zero => exact fun _ h => absurd h (Nat.not_lt_zero _)
  | succ fuel ih =>
      intro done s hbag hfuel
      cases hpending : s.workbag.pending with
      | nil =>
          refine ⟨s, ?_, hbag.sound, hbag.started, fun htimely => hbag.quiet htimely.1 hpending⟩
          simp only [empty, hpending]
      | cons n rest =>
          have hsize := size_take hpending
          have hfuel' : Worklist.size (take G n rest s).workbag < fuel := by omega
          obtain ⟨t, ht, hsound, hstart, hquiet⟩ := ih (hbag.take hpending) hfuel'
          refine ⟨t, ?_, hsound, hstart, fun htimely => ?_⟩
          · simp only [empty, hpending]
            exact ht
          · simp only [Timely, hpending] at htimely
            exact hquiet htimely.2

theorem size_initial : Worklist.size (initial G).workbag = G.size := by
  rw [initial]
  rw [Worklist.size_foldl_see]
  simp [Worklist.size]

/-- Node 0 goes to 2 and node 1 to 3, or both to the exit 4; from 3 the way leads to 2 and to 5. -/
def lateSymbol : CDGraph :=
  .ofSuccessors 6 ![[2, 4], [3, 4], [5], [2], [], []] (by decide)

end NTSCDRanganath

end Cape.ControlDependence
