import Cape.ControlDependence.DODNTSCD
import Cape.ControlDependence.Ranganath

/-!
# The algorithm `DODRanganath`

For a predicate and two other nodes: from each of the two all paths lead to the other one
(`onallpaths`), and of the successors of the predicate one leads to the first node first and one to
the second (`dependence`, which colours the nodes by a depth-first search).

`DODRanganath.converse_iff`: the reverse map is the converse of the other one only when it is empty,
since the predicate is entered where the second node should be.
-/

set_option autoImplicit false

namespace Cape.ControlDependence

open Cape.Library

namespace DODRanganath

/-- `Color`. -/
inductive Color where
  | white
  | black
  | uncolored
deriving DecidableEq

variable (G : CDGraph)

/-- `data` and `visited`. -/
structure Coloring where
  color : G.Node → Color
  visited : Finset G.Node

/-- `onstack` and `visited` of all nodes. -/
structure Walked where
  onstack : Finset G.Node
  visited : Finset G.Node

variable {G}

/-- The colour that all nodes of a list share. -/
def commonColor (color : G.Node → Color) : List G.Node → Color
  | [] => .uncolored
  | s :: rest => if (s :: rest).all (color · = color s) then color s else .uncolored

/-- `coloredDAG`, with a bound on the depth of the recursion. -/
def coloredDAG : Nat → G.Node → Coloring G → Option (Coloring G)
  | 0, _, _ => none
  | depth + 1, n, s =>
      if n ∈ s.visited then some s
      else if G.successors n = [] then some { s with visited := insert n s.visited }
      else
        ((G.successors n).foldlM (fun s q => coloredDAG depth q s)
          { s with visited := insert n s.visited }).map fun s =>
            { s with color := Function.update s.color n (commonColor s.color (G.successors n)) }

/-- The colours at the start of `dependence`. -/
def startColor (m p : G.Node) : G.Node → Color :=
  Function.update (Function.update (fun _ => .uncolored) m .white) p .black

/-- `dependence`. -/
def dependence (depth : Nat) (n m p : G.Node) : Option Bool :=
  (coloredDAG depth n ⟨startColor m p, {m, p}⟩).map fun s =>
    ((G.successors n).any fun q => s.color q = .white) &&
      (G.successors n).any fun q => s.color q = .black

/-- The loop of `onallpths` over the successors. -/
def throughAll (visit : G.Node → Walked G → Option (Bool × Walked G)) :
    List G.Node → Walked G → Option (Bool × Walked G)
  | [], s => some (true, s)
  | q :: rest, s =>
      if q ∈ s.onstack then some (false, s)
      else if q ∈ s.visited then throughAll visit rest s
      else
        (visit q { s with onstack := insert q s.onstack }).bind fun
          | (true, s) => throughAll visit rest { s with onstack := s.onstack.erase q }
          | (false, s) => some (false, s)

/-- `onallpths`, with a bound on the depth of the recursion. -/
def onallpths (target : G.Node) : Nat → G.Node → Walked G → Option (Bool × Walked G)
  | 0, _, _ => none
  | depth + 1, node, s =>
      if node = target then some (true, s)
      else if G.successors node = [] then
        some (false, { s with visited := insert node s.visited })
      else
        throughAll (onallpths target depth) (G.successors node)
          { s with visited := insert node s.visited }

/-- `onallpaths`. -/
def onallpaths (depth : Nat) (start n : G.Node) : Option Bool :=
  if start = n then some true
  else (onallpths n depth start ⟨{start}, ∅⟩).map Prod.fst

/-- The test of `compute` for a predicate and two nodes. -/
def isDependent (depth : Nat) (n m p : G.Node) : Option Bool :=
  (onallpaths depth m p).bind fun
    | false => some false
    | true =>
        (onallpaths depth p m).bind fun
          | false => some false
          | true => dependence depth n p m

/-- What `compute` inserts for a predicate and two nodes. -/
def insertAll (n m p : G.Node) (r : Result G.Node) : Result G.Node :=
  ⟨(r.CD.insert m n).insert p n, (r.revCD.insert n m).insert n n⟩

variable (G)

/-- The three loops of `compute`. -/
def triples : List (G.Node × G.Node × G.Node) :=
  G.predicates.flatMap fun n =>
    G.nodes.flatMap fun m => (G.nodes.filter (· ≠ m)).map fun p => (n, m, p)

/-- `compute`. -/
def compute (depth : Nat) : Option (Result G.Node) :=
  (triples G).foldlM
    (fun r t => (isDependent depth t.1 t.2.1 t.2.2).map fun dependent =>
      if dependent then insertAll t.1 t.2.1 t.2.2 r else r)
    .empty

variable {G}

/-! ## `onallpaths` -/

section Paths

variable {target : G.Node}

/-- An edge from a node other than the target. -/
def Before (target a b : G.Node) : Prop := a ≠ target ∧ b ∈ G.successors a

/-- Visited nodes that are not on the stack were found to have the target on all paths. -/
def Found (target : G.Node) (s : Walked G) : Prop :=
  ∀ y ∈ s.visited, y ∉ s.onstack → G.Reaching target y

/-- The way from every node on the stack leads to the current one. -/
def Stacked (target : G.Node) (s : Walked G) (node : G.Node) : Prop :=
  node ∈ s.onstack ∧ ∀ z ∈ s.onstack, Relation.ReflTransGen (Before target) z node

/-- What a call gives: the answer whether something holds; and, if it does, a state to go on with. -/
structure Answer (target : G.Node) (s : Walked G) (holds : Prop) (r : Bool × Walked G) : Prop where
  right : r.1 = true ↔ holds
  onstack : r.1 = true → r.2.onstack = s.onstack
  found : r.1 = true → Found target r.2
  grows : r.1 = true → s.visited ⊆ r.2.visited

theorem Answer.no {s t : Walked G} {holds : Prop} (h : ¬ holds) :
    Answer target s holds (false, t) :=
  ⟨⟨nofun, fun hp => absurd hp h⟩, nofun, nofun, nofun⟩

theorem Answer.congr {s : Walked G} {holds holds' : Prop} {r : Bool × Walked G}
    (h : Answer target s holds r) (hiff : holds ↔ holds') : Answer target s holds' r :=
  ⟨h.right.trans hiff, h.onstack, h.found, h.grows⟩

/-- A successor on the stack is on a way round. -/
theorem Stacked.not_reaching {s : Walked G} {node q : G.Node} (h : Stacked target s node)
    (hne : node ≠ target) (hq : q ∈ G.successors node) (hstack : q ∈ s.onstack) :
    ¬ G.Reaching target q := fun hreach =>
  hreach.no_cycle (Relation.TransGen.tail' (h.2 q hstack) ⟨hne, hq⟩)

theorem Stacked.push {s : Walked G} {node q : G.Node} (h : Stacked target s node)
    (hne : node ≠ target) (hq : q ∈ G.successors node) :
    Stacked target { s with onstack := insert q s.onstack } q := by
  refine ⟨Finset.mem_insert_self _ _, fun z hz => ?_⟩
  obtain rfl | hz := Finset.mem_insert.1 hz
  · exact .refl
  · exact (h.2 z hz).tail ⟨hne, hq⟩

/-- **The loop over the successors** gives the right answer when the calls do. -/
theorem throughAll_spec {visit : G.Node → Walked G → Option (Bool × Walked G)} {node : G.Node}
    (hne : node ≠ target) {visited : Finset G.Node} {l : List G.Node}
    (hvisit : ∀ q ∈ l, ∀ s : Walked G, visited ⊆ s.visited → q ∉ s.visited → Found target s →
      Stacked target s q → ∃ r, visit q s = some r ∧ Answer target s (G.Reaching target q) r)
    (hl : ∀ q ∈ l, q ∈ G.successors node) :
    ∀ {s : Walked G}, visited ⊆ s.visited → Found target s → Stacked target s node →
      ∃ r, throughAll visit l s = some r ∧
        Answer target s (∀ q ∈ l, G.Reaching target q) r := by
  induction l with
  | nil =>
      intro s _ hfound _
      exact ⟨_, rfl, ⟨fun _ _ h => absurd h List.not_mem_nil, fun _ => rfl⟩, fun _ => rfl,
        fun _ => hfound, fun _ => Finset.Subset.refl _⟩
  | cons q rest ih =>
      intro s hsub hfound hstack
      obtain ⟨hvisitq, hvisit⟩ := List.forall_mem_cons.1 hvisit
      obtain ⟨hq, hl⟩ := List.forall_mem_cons.1 hl
      simp only [throughAll]
      by_cases hon : q ∈ s.onstack
      · rw [if_pos hon]
        refine ⟨_, rfl, .no fun h => ?_⟩
        exact hstack.not_reaching hne hq hon (h q List.mem_cons_self)
      · rw [if_neg hon]
        by_cases hvis : q ∈ s.visited
        · rw [if_pos hvis]
          obtain ⟨r, hr, hanswer⟩ := ih hvisit hl hsub hfound hstack
          refine ⟨r, hr, hanswer.congr ?_⟩
          rw [List.forall_mem_cons, and_iff_right (hfound q hvis hon)]
        · rw [if_neg hvis]
          have hfound' : Found target { s with onstack := insert q s.onstack } :=
            fun y hy hnot => hfound y hy fun h => hnot (Finset.mem_insert_of_mem h)
          obtain ⟨⟨b, t⟩, hr, hanswer⟩ :=
            hvisitq { s with onstack := insert q s.onstack } hsub hvis hfound' (hstack.push hne hq)
          simp only [hr, Option.bind_some]
          cases b with
          | false =>
              refine ⟨_, rfl, .no fun h => ?_⟩
              have := hanswer.right.2 (h q List.mem_cons_self)
              cases this
          | true =>
              have hreach : G.Reaching target q := hanswer.right.1 rfl
              -- the stack is what it was
              have herase : t.onstack.erase q = s.onstack := by
                rw [hanswer.onstack rfl]
                exact Finset.erase_insert hon
              have hgrows : s.visited ⊆ t.visited := hanswer.grows rfl
              have hfound₁ : Found target { t with onstack := t.onstack.erase q } := by
                intro y hy hnot
                by_cases hyq : y = q
                · exact hyq ▸ hreach
                · exact hanswer.found rfl y hy fun h => hnot (Finset.mem_erase.2 ⟨hyq, h⟩)
              have hstack₁ : Stacked target { t with onstack := t.onstack.erase q } node := by
                rw [Stacked]
                simp only [herase]
                exact hstack
              obtain ⟨r, hr, hanswer₁⟩ := ih hvisit hl
                (s := { t with onstack := t.onstack.erase q }) (hsub.trans hgrows) hfound₁ hstack₁
              refine ⟨r, hr, ?_, fun h => (hanswer₁.onstack h).trans herase, hanswer₁.found,
                fun h => hgrows.trans (hanswer₁.grows h)⟩
              rw [hanswer₁.right, List.forall_mem_cons, and_iff_right hreach]

theorem card_compl_insert_lt {visited : Finset G.Node} {n : G.Node} (hn : n ∉ visited) {k : Nat}
    (hk : visitedᶜ.card < k + 1) : (insert n visited)ᶜ.card < k := by
  have hlt : (insert n visited)ᶜ.card < visitedᶜ.card := by
    refine Finset.card_lt_card ⟨Finset.compl_subset_compl.2 (Finset.subset_insert n visited), ?_⟩
    intro hsub
    exact Finset.mem_compl.1 (hsub (Finset.mem_compl.2 hn)) (Finset.mem_insert_self n visited)
  omega

/-- **A call gives the right answer.** -/
theorem onallpths_spec : ∀ {depth : Nat} {node : G.Node} {s : Walked G},
    s.visitedᶜ.card < depth → node ∉ s.visited → Found target s → Stacked target s node →
    ∃ r, onallpths target depth node s = some r ∧ Answer target s (G.Reaching target node) r := by
  intro depth
  induction depth with
  | zero => exact fun h => absurd h (Nat.not_lt_zero _)
  | succ depth ih =>
      intro node s hdepth hnode hfound hstack
      simp only [onallpths]
      by_cases htarget : node = target
      · rw [if_pos htarget]
        exact ⟨_, rfl, iff_of_true rfl (.here htarget), fun _ => rfl, fun _ => hfound,
          fun _ => Finset.Subset.refl _⟩
      · rw [if_neg htarget]
        by_cases hnil : G.successors node = []
        · rw [if_pos hnil]
          exact ⟨_, rfl, .no fun h => (h.of_ne htarget).1 hnil⟩
        · rw [if_neg hnil]
          -- the node is visited now, and one less is left for the calls
          have hcard := card_compl_insert_lt hnode hdepth
          have hfound₁ : Found target { s with visited := insert node s.visited } := by
            intro y hy hnot
            obtain rfl | hy := Finset.mem_insert.1 hy
            · exact absurd hstack.1 hnot
            · exact hfound y hy hnot
          obtain ⟨r, hr, hanswer⟩ := throughAll_spec htarget
            (fun q _ s hsub hq hfound hstack =>
              ih ((Finset.card_le_card (Finset.compl_subset_compl.2 hsub)).trans_lt hcard) hq hfound
                hstack)
            (fun _ h => h) (Finset.Subset.refl _) hfound₁ hstack
          refine ⟨r, hr, ⟨?_, hanswer.onstack, hanswer.found,
            fun h => (Finset.subset_insert _ _).trans (hanswer.grows h)⟩⟩
          rw [hanswer.right]
          exact ⟨.of_all hnil, fun h => (h.of_ne htarget).2⟩

/-- **`onallpaths` is exact.** -/
theorem onallpaths_spec {depth : Nat} (hdepth : G.size + 1 ≤ depth) (start n : G.Node) :
    ∃ b, onallpaths depth start n = some b ∧ (b = true ↔ G.Reaching n start) := by
  rw [onallpaths]
  by_cases h : start = n
  · exact ⟨true, if_pos h, iff_of_true rfl (.here h)⟩
  · have hcard : (∅ : Finset G.Node)ᶜ.card < depth := by
      simp
      omega
    have hstack : Stacked n ⟨{start}, ∅⟩ start :=
      ⟨Finset.mem_singleton_self _, fun z hz => Finset.mem_singleton.1 hz ▸ .refl⟩
    obtain ⟨r, hr, hanswer⟩ := onallpths_spec hcard
      (Finset.notMem_empty _) (fun y hy => absurd hy (Finset.notMem_empty y)) hstack
    refine ⟨r.1, ?_, hanswer.right⟩
    rw [if_neg h, hr]
    rfl

end Paths

/-! ## `dependence` -/

section Colors

variable {m p : G.Node}

/-- The colour that a node is to get, if any: white when all ways lead to `m`, and not to `p`
before; black the other way round. -/
def Due (m p : G.Node) : Color → G.Node → Prop
  | .white, q => Inevitable G.successors (· = m) (· = p) q
  | .black, q => Inevitable G.successors (· = p) (· = m) q
  | .uncolored, _ => False

/-- An edge from a node other than the two. -/
def Between (m p a b : G.Node) : Prop := (a ≠ m ∧ a ≠ p) ∧ b ∈ G.successors a

theorem Due.of_all {c : Color} {n : G.Node} (hm : n ≠ m) (hp : n ≠ p) (hne : G.successors n ≠ [])
    (hall : ∀ q ∈ G.successors n, Due m p c q) : Due m p c n := by
  cases c with
  | white => exact .next hp hne hall
  | black => exact .next hm hne hall
  | uncolored =>
      obtain ⟨q, hq⟩ := List.exists_mem_of_ne_nil _ hne
      exact hall q hq

theorem Due.next {c : Color} {n : G.Node} (h : Due m p c n) (hm : n ≠ m) (hp : n ≠ p) :
    G.successors n ≠ [] ∧ ∀ q ∈ G.successors n, Due m p c q := by
  cases c with
  | white => exact (h.of_not_goal hm).2
  | black => exact (h.of_not_goal hp).2
  | uncolored => exact h.elim

theorem Due.no_cycle {c : Color} {n : G.Node} (h : Due m p c n) :
    ¬ Relation.TransGen (Between m p) n n := by
  intro hcycle
  cases c with
  | white => exact Inevitable.no_cycle h (Relation.TransGen.mono (fun _ _ hab => ⟨hab.1.1, hab.2⟩) _ _ hcycle)
  | black => exact Inevitable.no_cycle h (Relation.TransGen.mono (fun _ _ hab => ⟨hab.1.2, hab.2⟩) _ _ hcycle)
  | uncolored => exact h

/-- The colours are right, and the visited nodes have theirs, but for those in progress. -/
structure Colored (m p : G.Node) (progress : G.Node → Prop) (s : Coloring G) : Prop where
  sound : ∀ q, s.color q ≠ .uncolored → Due m p (s.color q) q
  complete : ∀ q ∈ s.visited, ∀ c, Due m p c q → progress q ∨ s.color q = c
  first : m ∈ s.visited
  second : p ∈ s.visited

theorem commonColor_cons (color : G.Node → Color) (s : G.Node) (rest : List G.Node) :
    commonColor color (s :: rest) =
      if (s :: rest).all (color · = color s) then color s else .uncolored := rfl

theorem commonColor_eq {color : G.Node → Color} {l : List G.Node} {c : Color}
    (h : commonColor color l = c) (hc : c ≠ .uncolored) : ∀ q ∈ l, color q = c := by
  cases l with
  | nil => exact fun q hq => absurd hq List.not_mem_nil
  | cons s rest =>
      rw [commonColor_cons] at h
      split at h
      · next hall =>
          intro q hq
          rw [← h]
          exact of_decide_eq_true (List.all_eq_true.1 hall q hq)
      · exact absurd h.symm hc

theorem commonColor_of_all {color : G.Node → Color} {l : List G.Node} {c : Color} (hl : l ≠ [])
    (h : ∀ q ∈ l, color q = c) : commonColor color l = c := by
  cases l with
  | nil => exact absurd rfl hl
  | cons s rest =>
      have hs : color s = c := h s List.mem_cons_self
      rw [commonColor_cons, if_pos, hs]
      rw [List.all_eq_true]
      exact fun q hq => decide_eq_true ((h q hq).trans hs.symm)

/-- **A node gets its colour** when its successors have theirs. -/
theorem Colored.finish {progress : G.Node → Prop} {s : Coloring G} {n : G.Node}
    (h : Colored m p (fun q => progress q ∨ q = n) s) (hm : n ≠ m) (hp : n ≠ p)
    (hprogress : ∀ z, progress z → Relation.TransGen (Between m p) z n)
    (hne : G.successors n ≠ []) (hsucc : ∀ q ∈ G.successors n, q ∈ s.visited) :
    Colored m p progress
      { s with color := Function.update s.color n (commonColor s.color (G.successors n)) } := by
  refine ⟨fun q hq => ?_, fun q hq c hdue => ?_, h.first, h.second⟩
  · by_cases hqn : q = n
    · subst hqn
      simp only [Function.update_self] at hq ⊢
      refine .of_all hm hp hne fun t ht => ?_
      have hcolor := commonColor_eq rfl hq t ht
      rw [← hcolor]
      exact h.sound t (hcolor ▸ hq)
    · simp only [Function.update_of_ne hqn] at hq ⊢
      exact h.sound q hq
  · by_cases hqn : q = n
    · subst hqn
      right
      simp only [Function.update_self]
      apply commonColor_of_all hne
      intro t ht
      have hduet := (hdue.next hm hp).2 t ht
      -- a successor in progress is on a way round
      obtain (hprog | rfl) | hcolor := h.complete t (hsucc t ht) c hduet
      · exact absurd ((hprogress t hprog).tail ⟨⟨hm, hp⟩, ht⟩) hduet.no_cycle
      · exact absurd (.single ⟨⟨hm, hp⟩, ht⟩) hduet.no_cycle
      · exact hcolor
    · obtain (hprog | heq) | hcolor := h.complete q hq c hdue
      · exact Or.inl hprog
      · exact absurd heq hqn
      · right
        simp only [Function.update_of_ne hqn]
        exact hcolor

/-- **A call colours what it visits.** -/
theorem coloredDAG_spec : ∀ {depth : Nat} {n : G.Node} {s : Coloring G} {progress : G.Node → Prop},
    s.visitedᶜ.card < depth → Colored m p progress s →
    (∀ z, progress z → Relation.TransGen (Between m p) z n) →
    ∃ s', coloredDAG depth n s = some s' ∧ Colored m p progress s' ∧ s.visited ⊆ s'.visited ∧
      n ∈ s'.visited ∧ (n ∉ s.visited → ∀ q ∈ G.successors n, q ∈ s'.visited) := by
  intro depth
  induction depth with
  | zero => exact fun h => absurd h (Nat.not_lt_zero _)
  | succ depth ih =>
      intro n s progress hdepth h hprogress
      simp only [coloredDAG]
      by_cases hn : n ∈ s.visited
      · rw [if_pos hn]
        exact ⟨s, rfl, h, Finset.Subset.refl _, hn, fun hnot => absurd hn hnot⟩
      · rw [if_neg hn]
        have hm : n ≠ m := fun heq => hn (heq ▸ h.first)
        have hp : n ≠ p := fun heq => hn (heq ▸ h.second)
        have hinsert : s.visited ⊆ insert n s.visited := Finset.subset_insert _ _
        have hstart : Colored m p (fun q => progress q ∨ q = n)
            { s with visited := insert n s.visited } := by
          refine ⟨h.sound, fun q hq c hdue => ?_, hinsert h.first, hinsert h.second⟩
          obtain rfl | hq := Finset.mem_insert.1 hq
          · exact Or.inl (Or.inr rfl)
          · exact (h.complete q hq c hdue).imp_left Or.inl
        by_cases hnil : G.successors n = []
        · rw [if_pos hnil]
          refine ⟨_, rfl, ⟨hstart.sound, fun q hq c hdue => ?_, hstart.first, hstart.second⟩, hinsert,
            Finset.mem_insert_self _ _, by simp [hnil]⟩
          obtain (hprog | rfl) | hcolor := hstart.complete q hq c hdue
          · exact Or.inl hprog
          · exact absurd hnil (hdue.next hm hp).1
          · exact Or.inr hcolor
        · rw [if_neg hnil]
          have hcard := card_compl_insert_lt hn hdepth
          -- the successors one after the other
          have hfold : ∀ l : List G.Node, (∀ q ∈ l, q ∈ G.successors n) → ∀ t : Coloring G,
              insert n s.visited ⊆ t.visited → Colored m p (fun q => progress q ∨ q = n) t →
              ∃ t', l.foldlM (fun s q => coloredDAG depth q s) t = some t' ∧
                Colored m p (fun q => progress q ∨ q = n) t' ∧ t.visited ⊆ t'.visited ∧
                ∀ q ∈ l, q ∈ t'.visited := by
            intro l
            induction l with
            | nil =>
                exact fun _ t _ ht =>
                  ⟨t, rfl, ht, Finset.Subset.refl _, fun q hq => absurd hq List.not_mem_nil⟩
            | cons q l ihl =>
                intro hl t hsub ht
                obtain ⟨hq, hl⟩ := List.forall_mem_cons.1 hl
                obtain ⟨t₁, hcall, ht₁, hsub₁, hq₁, -⟩ := ih
                  ((Finset.card_le_card (Finset.compl_subset_compl.2 hsub)).trans_lt hcard) ht
                  (n := q) fun z hz => by
                    obtain hz | rfl := hz
                    · exact (hprogress z hz).tail ⟨⟨hm, hp⟩, hq⟩
                    · exact .single ⟨⟨hm, hp⟩, hq⟩
                obtain ⟨t₂, hrest, ht₂, hsub₂, hall⟩ := ihl hl t₁ (hsub.trans hsub₁) ht₁
                refine ⟨t₂, ?_, ht₂, hsub₁.trans hsub₂, List.forall_mem_cons.2 ⟨hsub₂ hq₁, hall⟩⟩
                rw [List.foldlM_cons, hcall]
                exact hrest
          obtain ⟨t, ht, hcolored, hsub, hall⟩ :=
            hfold (G.successors n) (fun _ hq => hq) _ (Finset.Subset.refl _) hstart
          rw [ht]
          exact ⟨_, rfl, hcolored.finish hm hp hprogress hnil hall, hinsert.trans hsub,
            hsub (Finset.mem_insert_self _ _), fun _ => hall⟩

theorem colored_start (hmp : m ≠ p) :
    Colored m p (fun _ => False) (⟨startColor m p, {m, p}⟩ : Coloring G) := by
  have hm : startColor m p m = .white := by
    rw [startColor]
    rw [Function.update_of_ne hmp, Function.update_self]
  have hp : startColor m p p = .black := Function.update_self _ _ _
  refine ⟨fun q hq => ?_, fun q hq c hdue => Or.inr ?_, by simp, by simp⟩
  · show Due m p (startColor m p q) q
    by_cases hqm : q = m
    · subst hqm
      rw [hm]
      exact .here rfl
    · by_cases hqp : q = p
      · subst hqp
        rw [hp]
        exact .here rfl
      · refine absurd ?_ hq
        show startColor m p q = .uncolored
        rw [startColor]
        rw [Function.update_of_ne hqp, Function.update_of_ne hqm]
  · show startColor m p q = c
    obtain rfl | hq := Finset.mem_insert.1 hq
    · cases c with
      | white => exact hm
      | black => exact absurd rfl (hdue.of_not_goal hmp).1
      | uncolored => exact hdue.elim
    · obtain rfl := Finset.mem_singleton.1 hq
      cases c with
      | white => exact absurd rfl (hdue.of_not_goal hmp.symm).1
      | black => exact hp
      | uncolored => exact hdue.elim

/-- What the test of a predicate says. -/
def Dependent (n m p : G.Node) : Prop :=
  (G.Reaching p m ∧ G.Reaching m p) ∧
    (∃ q ∈ G.successors n, Inevitable G.successors (· = p) (· = m) q) ∧
      ∃ q ∈ G.successors n, Inevitable G.successors (· = m) (· = p) q

theorem Dependent.symm {n : G.Node} (h : Dependent n m p) : Dependent n p m :=
  ⟨h.1.symm, h.2.symm⟩

/-- A node that all ways from another one lead to does not come back to itself around that one. -/
theorem ne_of_reaching {n : G.Node} (hmp : m ≠ p) (hreach : G.Reaching p m)
    (h : ∃ q ∈ G.successors n, Inevitable G.successors (· = m) (· = p) q) : n ≠ m := by
  rintro rfl
  obtain ⟨q, hq, hdue⟩ := h
  obtain ⟨_, rfl, hway⟩ := hdue.exists_way
  exact hreach.no_cycle (Relation.TransGen.head' ⟨hmp, hq⟩ hway)

theorem dependence_spec {depth : Nat} (hdepth : G.size + 1 ≤ depth) (hmp : m ≠ p) (n : G.Node)
    (hreach : G.Reaching p m) (hreach' : G.Reaching m p) :
    ∃ b, dependence depth n m p = some b ∧
      (b = true ↔ (∃ q ∈ G.successors n, Inevitable G.successors (· = m) (· = p) q) ∧
        ∃ q ∈ G.successors n, Inevitable G.successors (· = p) (· = m) q) := by
  have hcard : ({m, p} : Finset G.Node)ᶜ.card < depth := by
    have := Finset.card_le_univ ({m, p} : Finset G.Node)ᶜ
    rw [Fintype.card_fin] at this
    omega
  obtain ⟨s, hs, hcolored, -, -, hvisited⟩ := coloredDAG_spec (n := n) hcard (colored_start hmp)
    fun _ h => h.elim
  refine ⟨_, by unfold dependence; rw [hs]; rfl, ?_⟩
  simp only [Bool.and_eq_true, List.any_eq_true, decide_eq_true_iff]
  constructor
  · rintro ⟨⟨q, hq, hwhite⟩, q', hq', hblack⟩
    have hsound := hcolored.sound q (by rw [hwhite]; nofun)
    have hsound' := hcolored.sound q' (by rw [hblack]; nofun)
    rw [hwhite] at hsound
    rw [hblack] at hsound'
    exact ⟨⟨q, hq, hsound⟩, q', hq', hsound'⟩
  · rintro ⟨hwhite, hblack⟩
    -- the predicate is neither of the two, so its successors were visited
    have hnot : n ∉ ({m, p} : Finset G.Node) := by
      simp only [Finset.mem_insert, Finset.mem_singleton, not_or]
      exact ⟨ne_of_reaching hmp hreach hwhite, ne_of_reaching hmp.symm hreach' hblack⟩
    obtain ⟨q, hq, hdue⟩ := hwhite
    obtain ⟨q', hq', hdue'⟩ := hblack
    exact ⟨⟨q, hq, (hcolored.complete q (hvisited hnot q hq) .white hdue).resolve_left id⟩,
      q', hq', (hcolored.complete q' (hvisited hnot q' hq') .black hdue').resolve_left id⟩

/-- **The test is exact.** -/
theorem isDependent_spec {depth : Nat} (hdepth : G.size + 1 ≤ depth) (n : G.Node) (hmp : m ≠ p) :
    ∃ b, isDependent depth n m p = some b ∧ (b = true ↔ Dependent n m p) := by
  rw [isDependent, Dependent]
  obtain ⟨b₁, hb₁, hiff₁⟩ := onallpaths_spec hdepth m p
  rw [hb₁, Option.bind_some]
  cases b₁ with
  | false => exact ⟨false, rfl, iff_of_false nofun fun h => nomatch hiff₁.2 h.1.1⟩
  | true =>
      have hreach : G.Reaching p m := hiff₁.1 rfl
      obtain ⟨b₂, hb₂, hiff₂⟩ := onallpaths_spec hdepth p m
      simp only [hb₂, Option.bind_some]
      cases b₂ with
      | false => exact ⟨false, rfl, iff_of_false nofun fun h => nomatch hiff₂.2 h.1.2⟩
      | true =>
          have hreach' : G.Reaching m p := hiff₂.1 rfl
          obtain ⟨b, hb, hiff⟩ := dependence_spec hdepth hmp.symm n hreach' hreach
          exact ⟨b, hb, hiff.trans (and_iff_right ⟨hreach, hreach'⟩).symm⟩

end Colors

/-! ## `compute` -/

theorem mem_triples {n m p : G.Node} : (n, m, p) ∈ triples G ↔ n ∈ G.predicates ∧ m ≠ p := by
  simp only [triples, List.mem_flatMap, List.mem_map, List.mem_filter, Prod.mk.injEq,
    decide_eq_true_iff]
  constructor
  · rintro ⟨n', hn', m', -, p', ⟨-, hne⟩, rfl, rfl, rfl⟩
    exact ⟨hn', hne.symm⟩
  · rintro ⟨hn, hne⟩
    exact ⟨n, hn, m, G.mem_nodes m, p, ⟨G.mem_nodes p, hne.symm⟩, rfl, rfl, rfl⟩

theorem mem_insertAll (n m p : G.Node) (r : Result G.Node) (x y : G.Node) :
    (y ∈ (insertAll n m p r).CD x ↔ (y = n ∧ (x = p ∨ x = m)) ∨ y ∈ r.CD x) ∧
      (x ∈ (insertAll n m p r).revCD y ↔ (y = n ∧ (x = n ∨ x = m)) ∨ x ∈ r.revCD y) := by
  constructor
  · show y ∈ ((r.CD.insert m n).insert p n) x ↔ _
    rw [ResultT.mem_insert, ResultT.mem_insert]
    tauto
  · show x ∈ ((r.revCD.insert n m).insert n n) y ↔ _
    rw [ResultT.mem_insert, ResultT.mem_insert]
    tauto

/-- What the loops insert. -/
theorem foldlM_spec {depth : Nat} (hdepth : G.size + 1 ≤ depth)
    {l : List (G.Node × G.Node × G.Node)} (hl : ∀ t ∈ l, t.2.1 ≠ t.2.2) (r : Result G.Node) :
    ∃ r', l.foldlM (fun r t => (isDependent depth t.1 t.2.1 t.2.2).map fun dependent =>
        if dependent then insertAll t.1 t.2.1 t.2.2 r else r) r = some r' ∧
      ∀ x y,
        (y ∈ r'.CD x ↔ (∃ m p, (y, m, p) ∈ l ∧ Dependent y m p ∧ (x = p ∨ x = m)) ∨ y ∈ r.CD x) ∧
        (x ∈ r'.revCD y ↔
          (∃ m p, (y, m, p) ∈ l ∧ Dependent y m p ∧ (x = y ∨ x = m)) ∨ x ∈ r.revCD y) := by
  induction l generalizing r with
  | nil => exact ⟨r, rfl, fun x y => by simp⟩
  | cons t l ih =>
      obtain ⟨n, m, p⟩ := t
      obtain ⟨hmp, hl⟩ := List.forall_mem_cons.1 hl
      obtain ⟨b, hb, hiff⟩ := isDependent_spec hdepth n hmp
      obtain ⟨r', hr', hmem⟩ := ih hl (if b then insertAll n m p r else r)
      refine ⟨r', ?_, fun x y => ?_⟩
      · rw [List.foldlM_cons]
        simp only [hb, Option.map_some]
        exact hr'
      · have hcons : ∀ Q : G.Node → G.Node → Prop,
            (∃ m' p', (y, m', p') ∈ (n, m, p) :: l ∧ Dependent y m' p' ∧ Q m' p') ↔
              (∃ m' p', (y, m', p') ∈ l ∧ Dependent y m' p' ∧ Q m' p') ∨
                (y = n ∧ Dependent n m p ∧ Q m p) := by
          intro Q
          constructor
          · rintro ⟨m', p', hmem, hrest⟩
            obtain heq | hmem := List.mem_cons.1 hmem
            · cases heq
              exact Or.inr ⟨rfl, hrest⟩
            · exact Or.inl ⟨m', p', hmem, hrest⟩
          · rintro (⟨m', p', hmem, hrest⟩ | ⟨rfl, hrest⟩)
            · exact ⟨m', p', List.mem_cons_of_mem _ hmem, hrest⟩
            · exact ⟨m, p, List.mem_cons_self, hrest⟩
        rw [(hmem x y).1, (hmem x y).2, hcons, hcons]
        cases b with
        | true =>
            have hdep : Dependent n m p := hiff.1 rfl
            rw [if_pos rfl, (mem_insertAll n m p r x y).1, (mem_insertAll n m p r x y).2]
            simp only [hdep, true_and, or_assoc]
            -- where the predicate is inserted, `y` is the predicate
            refine or_congr_right (or_congr_left (and_congr_right fun hy => ?_))
            rw [hy]
        | false =>
            have hdep : ¬ Dependent n m p := fun h => nomatch hiff.2 h
            rw [if_neg Bool.false_ne_true]
            simp only [hdep, false_and, and_false, or_false, true_and]

/-- What the two maps are. -/
theorem compute_spec {depth : Nat} (hdepth : G.size + 1 ≤ depth) :
    ∃ r, compute G depth = some r ∧ ∀ n p,
      (p ∈ r.CD n ↔ p ∈ G.predicates ∧ ∃ m, m ≠ n ∧ Dependent p n m) ∧
      (n ∈ r.revCD p ↔
        p ∈ G.predicates ∧ ∃ m m', m ≠ m' ∧ Dependent p m m' ∧ (n = p ∨ n = m)) := by
  obtain ⟨r, hr, hmem⟩ := foldlM_spec hdepth (l := triples G)
    (fun t ht => (mem_triples.1 (show (t.1, t.2.1, t.2.2) ∈ triples G from ht)).2) .empty
  refine ⟨r, hr, fun n p => ?_⟩
  rw [(hmem n p).1, (hmem n p).2]
  simp only [mem_triples]
  constructor
  · constructor
    · rintro (⟨m, m', ⟨hp, hne⟩, hdep, rfl | rfl⟩ | h)
      · exact ⟨hp, m, hne, hdep.symm⟩
      · exact ⟨hp, m', hne.symm, hdep⟩
      · exact absurd h (Result.not_mem_empty n p)
    · rintro ⟨hp, m, hne, hdep⟩
      exact Or.inl ⟨n, m, ⟨hp, hne.symm⟩, hdep, Or.inr rfl⟩
  · constructor
    · rintro (⟨m, m', ⟨hp, hne⟩, hdep, hn⟩ | h)
      · exact ⟨hp, m, m', hne, hdep, hn⟩
      · exact absurd h (Finset.notMem_empty n)
    · rintro ⟨hp, m, m', hne, hdep, hn⟩
      exact Or.inl ⟨m, m', ⟨hp, hne⟩, hdep, hn⟩

/-- No predicate has two nodes that depend on it. -/
def NoneDependent (G : CDGraph) : Prop :=
  ∀ p ∈ G.predicates, ∀ n m : G.Node, n ≠ m →
    ¬ ((OnAllPaths G.successors n m ∧ OnAllPaths G.successors m n) ∧
      (∃ s ∈ G.successors p, ReachedBefore G.successors n m s) ∧
        ∃ s ∈ G.successors p, ReachedBefore G.successors m n s)

theorem dependent_iff {n m p : G.Node} (hne : n ≠ m) : Dependent p n m ↔
    (OnAllPaths G.successors n m ∧ OnAllPaths G.successors m n) ∧
      (∃ s ∈ G.successors p, ReachedBefore G.successors n m s) ∧
        ∃ s ∈ G.successors p, ReachedBefore G.successors m n s := by
  simp only [onAllPaths_iff, reachedBefore_iff, hne, hne.symm, ne_eq, not_false_eq_true, true_and]
  rw [Dependent]
  tauto

/-- The predicate itself is never one of the two nodes. -/
theorem Dependent.ne {n m p : G.Node} (hne : n ≠ m) (h : Dependent p n m) : p ≠ n :=
  ne_of_reaching hne h.1.1 h.2.2

/-- **The maps are converse only when nothing depends on anything.** -/
theorem converse_compute_iff {depth : Nat} (hdepth : G.size + 1 ≤ depth) :
    ∃ r, compute G depth = some r ∧ (r.Converse ↔ NoneDependent G) := by
  obtain ⟨r, hr, hmem⟩ := compute_spec hdepth
  refine ⟨r, hr, fun h p hp n m hne hdep => ?_, fun h n p => ?_⟩
  · have hdep := (dependent_iff hne).2 hdep
    -- the predicate is in its own reverse entry, and does not depend on itself
    have hself : p ∈ r.revCD p := (hmem p p).2.2 ⟨hp, n, m, hne, hdep, Or.inl rfl⟩
    obtain ⟨-, m', hne', hdep'⟩ := (hmem p p).1.1 ((h p p).2 hself)
    exact hdep'.ne hne'.symm rfl
  · rw [(hmem n p).1, (hmem n p).2]
    refine iff_of_false ?_ ?_
    · rintro ⟨hp, m, hne, hdep⟩
      exact h p hp n m hne.symm ((dependent_iff hne.symm).1 hdep)
    · rintro ⟨hp, m, m', hne, hdep, -⟩
      exact h p hp m m' hne ((dependent_iff hne).1 hdep)

end DODRanganath

/-- **Converse maps**: five algorithms always give them, and `DODRanganath` does just when it finds
nothing. -/
theorem converse_results_iff (G : CDGraph) (order : Enumeration G.Node) (extra : Nat) :
    ((∀ fuel r, NTSCD.compute G fuel = some r → r.Converse) ∧
      (∀ fuel r, NTSCD2.compute G order fuel = some r → r.Converse) ∧
      (∀ doFixpoint fuel r, NTSCDRanganath.compute G doFixpoint fuel = some r → r.Converse) ∧
      (∀ fuel r, DOD.compute G fuel = some r → r.Converse) ∧
      (∀ fuel r, DODNTSCD.compute G fuel = some r → r.Converse)) ∧
    ∃ r, DODRanganath.compute G (G.size + 1 + extra) = some r ∧
      (r.Converse ↔ DODRanganath.NoneDependent G) :=
  ⟨⟨fun _ _ => NTSCD.converse_compute, fun _ _ => NTSCD2.converse_compute,
    fun _ _ _ => NTSCDRanganath.converse_compute, fun _ _ => DOD.converse_compute,
    fun _ _ => DODNTSCD.converse_compute⟩,
    DODRanganath.converse_compute_iff (Nat.le_add_right _ _)⟩

/-- **A reverse map that is not the converse**: both nodes of the loop depend on node 0, and the
reverse entry of node 0 holds node 0. -/
theorem not_converse_twoWays : ∃ r, DODRanganath.compute DODNTSCD.twoWays 4 = some r ∧
    ¬ r.Converse := by
  have hcode : ((DODRanganath.compute DODNTSCD.twoWays 4).any fun r =>
      decide ((⟨0, by decide⟩ : DODNTSCD.twoWays.Node) ∈ r.revCD ⟨0, by decide⟩) &&
        decide ((⟨0, by decide⟩ : DODNTSCD.twoWays.Node) ∉ r.CD ⟨0, by decide⟩)) = true := by decide
  obtain ⟨r, hr, hmem⟩ := (Option.any_eq_true _ _).1 hcode
  obtain ⟨hrev, hCD⟩ := Bool.and_eq_true_iff.1 hmem
  exact ⟨r, hr, fun h => of_decide_eq_true hCD ((h _ _).2 (of_decide_eq_true hrev))⟩

end Cape.ControlDependence
