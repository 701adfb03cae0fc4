import Cape.Library.Drain
import Cape.Library.FallibleLoop
import Cape.Library.UpdatedSets
import Cape.SummaryEdges.Graphs

/-!
# Summary edges

`computeSummaryEdges` works backwards from the formal-outs. A path edge `(n, o)` says that `n` has a
path to the formal-out `o`. When `n` is a formal-in, the actual parameters of each call get a summary
edge, over which path edges go on from actual-outs.

The procedures of `o` and of `n` are not compared, and the parameters for globals are left out.
`computeSummaryEdges_right_iff`: the result is right exactly when no edge crosses on the way
(`StaysOnLevel`) and the globals add no summary edges (`GlobalsAddNothing`).
`crosses_at_entry`: a formal-out depends on the entry, and the entry on the calls, so that the first
fails as soon as a procedure with parameters is called.
-/

set_option autoImplicit false

namespace Cape.SummaryEdges

open Library

/-- The state: `pathEdge` and `workList`, and the summary edges by their target. -/
structure State (N : Type) where
  edges : Worklist (N × N)
  revSummary : N → Finset N

section Computation

variable {N P C : Type} [DecidableEq N] [DecidableEq C] (G : Graphs N P C)
  (E : Order (N × N)) (O : Order N) (formalToActual : P → N → Option (List (C × N)))

def actualOutVertices : List N :=
  G.constructedFunctions.flatMap fun dg => (G.getCallNodes dg).flatMap fun callNode =>
    match G.callParameters callNode with
    | none => []
    | some ps => ps.params.map ParameterPair.outNode

def formalInVertices : List N :=
  G.constructedFunctions.flatMap fun dg => (G.formalParams dg).map ParameterPair.inNode

def isActualOut (n : N) : Bool := n ∈ actualOutVertices G

def isFormalIn (n : N) : Bool := n ∈ formalInVertices G

def propagate (s : State N) (e : N × N) : State N :=
  { s with edges := s.edges.see .stack e }

/-- The loops over the edges that come into a node. -/
def propagateAll (o : N) (l : List N) (s : State N) : State N :=
  l.foldl (fun s m => propagate s (m, o)) s

/-- The path edges that the computation starts from. -/
def initialized : State N :=
  G.constructedFunctions.foldl
    (fun s dg => (G.formalParams dg).foldl (fun s fp => propagate s (fp.outNode, fp.outNode)) s)
    ⟨⟨∅, []⟩, fun _ => ∅⟩

def handleActualOut (s : State N) (e : N × N) : State N :=
  propagateAll e.2 (O.toList (s.revSummary e.1)) (propagateAll e.2 (G.revControl e.1) s)

def handleGenericEdge (s : State N) (e : N × N) : State N :=
  propagateAll e.2 (G.users e.1)
    (propagateAll e.2 (G.revData e.1) (propagateAll e.2 (G.revControl e.1) s))

def addSummaryEdge (s : State N) (actIn actOut : N) : State N :=
  { s with revSummary := Function.update s.revSummary actOut (insert actIn (s.revSummary actOut)) }

/-- The loop over the path edges that begin at the actual-out. -/
def propagateFrom (actIn actOut : N) (s : State N) : State N :=
  (E.toList s.edges.seen).foldl
    (fun s pe => if pe.1 = actOut then propagate s (actIn, pe.2) else s) s

/-- One actual-out. -/
def bridge (ins : Option (List (C × N))) (s : State N) (it : C × N) : Option (State N) := do
  let actIn ← (← ins).lookup it.1
  some (propagateFrom E actIn it.2 (addSummaryEdge s actIn it.2))

/-- `handleFormalIn`. It fails where an assertion does. -/
def handleFormalIn (s : State N) (e : N × N) : Option (State N) := do
  let _ ← G.getDG e.1
  let dg ← G.getDG e.2
  let _ ← G.getParameters dg
  let outs ← formalToActual dg e.2
  outs.foldlM (bridge E (formalToActual dg e.1)) s

def handle (s : State N) (e : N × N) : Option (State N) :=
  if isActualOut G e.1 then some (handleActualOut G O s e)
  else if isFormalIn G e.1 then handleFormalIn G E formalToActual s e
  else some (handleGenericEdge G s e)

/-- Take an edge from the work list. -/
def State.pop (s : State N) : Option ((N × N) × State N) :=
  (s.edges.pop).map fun r => (r.1, { s with edges := r.2 })

/-- `computeSummaryEdges`. -/
def computeSummaryEdges (fuel : Nat) : Option (State N) :=
  Drain.run State.pop (handle G E O formalToActual) fuel (initialized G)

/-- The edges that the computation follows from a node. -/
def follows (n : N) : List N :=
  if isActualOut G n then G.revControl n
  else if isFormalIn G n then []
  else G.dependsOn n

variable {G} in
omit [DecidableEq C] in
theorem follows_of_actualOut {n : N} (h : isActualOut G n = true) :
    follows G n = G.revControl n := if_pos h

variable {G} in
omit [DecidableEq C] in
theorem follows_of_formalIn {n : N} (hout : ¬ isActualOut G n = true)
    (hin : isFormalIn G n = true) : follows G n = [] := by
  rw [follows, if_neg hout, if_pos hin]

variable {G} in
omit [DecidableEq C] in
theorem follows_of_other {n : N} (hout : ¬ isActualOut G n = true)
    (hin : ¬ isFormalIn G n = true) : follows G n = G.dependsOn n := by
  rw [follows, if_neg hout, if_neg hin]

/-- What the computation relies on the map of the parameters for. -/
structure Maps : Prop where
  formalIn : ∀ p, ∀ fp ∈ G.formalParams p, ∃ l, formalToActual p fp.inNode = some l ∧
    ∀ c n, (c, n) ∈ l ↔ p ∈ G.getSubgraphs c ∧ n = (G.actual c p fp).inNode
  formalOut : ∀ p, ∀ fp ∈ G.formalParams p, ∃ l, formalToActual p fp.outNode = some l ∧
    ∀ c n, (c, n) ∈ l ↔ p ∈ G.getSubgraphs c ∧ n = (G.actual c p fp).outNode

/-- The result: there are the right summary edges, and no edge that was followed crosses. -/
structure Right (s : State N) : Prop where
  summary : ∀ a b, a ∈ s.revSummary b ↔ G.SummaryEdge G.formals a b
  level : ∀ n o, (n, o) ∈ s.edges.seen → ∀ m ∈ follows G n, ¬ G.Crossing m n

/-- The computation arrives at `n` from `o` by edges that do not cross, and past calls. -/
inductive Arrives : N → N → Prop
  | refl (n : N) : Arrives n n
  | edge {m n o : N} : m ∈ follows G n → ¬ G.Crossing m n → Arrives n o → Arrives m o
  | call {c : C} {p : P} {fp fp' : ParameterPair N} {o : N} : p ∈ G.getSubgraphs c →
      fp ∈ G.formalParams p → fp' ∈ G.formalParams p → Arrives fp.inNode fp'.outNode →
      Arrives (G.actual c p fp').outNode o → Arrives (G.actual c p fp).inNode o

/-- **No edge crosses** that is followed on the way from a formal-out. -/
def StaysOnLevel : Prop :=
  ∀ p, ∀ fp ∈ G.formalParams p, ∀ n, Arrives G n fp.outNode → ∀ m ∈ follows G n, ¬ G.Crossing m n

/-- The summary edges are those that there are without the parameters for globals. -/
def GlobalsAddNothing : Prop :=
  ∀ a b, G.SummaryEdge G.formals a b → G.SummaryEdge G.formalParams a b

/-! ## What a turn does -/

/-- The state has all that the other has. Where a summary edge is new, the path edges from its target
go on over it. -/
structure Grows (s s' : State N) : Prop where
  edges : s.edges.Extends s'.edges
  summary : ∀ b, s.revSummary b ⊆ s'.revSummary b
  bridged : ∀ a b, a ∈ s'.revSummary b → a ∈ s.revSummary b ∨
    ∀ o, (b, o) ∈ s.edges.seen → (a, o) ∈ s'.edges.seen

omit [DecidableEq N] in
theorem Grows.refl (s : State N) : Grows s s :=
  ⟨.refl _, fun _ => Finset.Subset.refl _, fun _ _ h => Or.inl h⟩

omit [DecidableEq N] in
theorem Grows.trans {s s' s'' : State N} (h : Grows s s') (h' : Grows s' s'') : Grows s s'' := by
  refine ⟨h.edges.trans h'.edges, fun b => (h.summary b).trans (h'.summary b), fun a b ha => ?_⟩
  obtain ha | hnew := h'.bridged a b ha
  · obtain ha | hnew := h.bridged a b ha
    · exact Or.inl ha
    · exact Or.inr fun o ho => h'.edges.seen (hnew o ho)
  · exact Or.inr fun o ho => hnew o (h.edges.seen ho)

theorem grows_propagate (s : State N) (e : N × N) : Grows s (propagate s e) :=
  ⟨Worklist.extends_see _ _ _, fun _ => Finset.Subset.refl _, fun _ _ h => Or.inl h⟩

theorem mem_seen_propagate {s : State N} {e x : N × N} :
    x ∈ (propagate s e).edges.seen ↔ x = e ∨ x ∈ s.edges.seen :=
  Worklist.mem_seen_see _ _ _ _

theorem grows_foldl_propagate (l : List (N × N)) (s : State N) : Grows s (l.foldl propagate s) := by
  induction l generalizing s with
  | nil => exact .refl s
  | cons e l ih => exact (grows_propagate s e).trans (ih _)

theorem mem_seen_foldl_propagate {l : List (N × N)} {s : State N} {x : N × N} :
    x ∈ (l.foldl propagate s).edges.seen ↔ x ∈ s.edges.seen ∨ x ∈ l := by
  induction l generalizing s with
  | nil => simp
  | cons e l ih =>
      rw [List.foldl_cons, ih, mem_seen_propagate, List.mem_cons]
      tauto

theorem revSummary_foldl_propagate (l : List (N × N)) (s : State N) :
    (l.foldl propagate s).revSummary = s.revSummary := by
  induction l generalizing s with
  | nil => rfl
  | cons e l ih => exact ih _

theorem propagateAll_eq (o : N) (l : List N) (s : State N) :
    propagateAll o l s = (l.map fun m => (m, o)).foldl propagate s := by
  rw [List.foldl_map]
  rfl

theorem grows_propagateAll (o : N) (l : List N) (s : State N) : Grows s (propagateAll o l s) := by
  rw [propagateAll_eq]
  exact grows_foldl_propagate _ s

theorem mem_seen_propagateAll {o : N} {l : List N} {s : State N} {x : N × N} :
    x ∈ (propagateAll o l s).edges.seen ↔ x ∈ s.edges.seen ∨ ∃ m ∈ l, x = (m, o) := by
  rw [propagateAll_eq, mem_seen_foldl_propagate, List.mem_map]
  simp only [eq_comm]

theorem revSummary_propagateAll (o : N) (l : List N) (s : State N) :
    (propagateAll o l s).revSummary = s.revSummary := by
  rw [propagateAll_eq, revSummary_foldl_propagate]

theorem grows_propagateFrom (a b : N) (s : State N) : Grows s (propagateFrom E a b s) := by
  unfold propagateFrom
  refine FallibleLoop.prefix_induction_foldl (I := fun _ t => Grows s t)
    (fun l₁ pe l₂ hl t ht => ?_) (.refl s)
  split
  · exact ht.trans (grows_propagate t _)
  · exact ht

theorem revSummary_propagateFrom (a b : N) (s : State N) :
    (propagateFrom E a b s).revSummary = s.revSummary := by
  unfold propagateFrom
  refine FallibleLoop.prefix_induction_foldl (I := fun _ (t : State N) => t.revSummary = s.revSummary)
    (fun l₁ pe l₂ hl t ht => ?_) rfl
  split
  · exact ht
  · exact ht

theorem mem_seen_propagateFrom {a b o : N} {s : State N} (h : (b, o) ∈ s.edges.seen) :
    (a, o) ∈ (propagateFrom E a b s).edges.seen := by
  unfold propagateFrom
  refine FallibleLoop.prefix_induction_foldl
    (I := fun l₁ (t : State N) => (b, o) ∈ l₁ → (a, o) ∈ t.edges.seen) (fun l₁ pe l₂ hl t ht hpe => ?_)
    (fun h => absurd h List.not_mem_nil) ((E.mem_toList _ _).2 h)
  obtain hpe | hpe := List.mem_append.1 hpe
  · split
    · exact (grows_propagate t _).edges.seen (ht hpe)
    · exact ht hpe
  · obtain rfl := List.mem_singleton.1 hpe
    rw [if_pos rfl]
    exact mem_seen_propagate.2 (Or.inl rfl)

/-- A new summary edge, with the path edges that go on over it. -/
theorem grows_bridge (a b : N) (s : State N) :
    Grows s (propagateFrom E a b (addSummaryEdge s a b)) := by
  have hgrows := grows_propagateFrom E a b (addSummaryEdge s a b)
  refine ⟨hgrows.edges, fun d => Finset.Subset.trans ?_ (hgrows.summary d), fun c d hc => ?_⟩
  · intro c hc
    exact mem_update_insert.2 (Or.inr hc)
  · rw [revSummary_propagateFrom] at hc
    obtain ⟨rfl, rfl⟩ | hc := mem_update_insert.1 hc
    · exact Or.inr fun o ho => mem_seen_propagateFrom E ho
    · exact Or.inl hc

theorem bridge_eq_some {ins : Option (List (C × N))} {s s' : State N} {it : C × N} :
    bridge E ins s it = some s' ↔ ∃ l a, ins = some l ∧ l.lookup it.1 = some a ∧
      s' = propagateFrom E a it.2 (addSummaryEdge s a it.2) := by
  cases ins with
  | none => simp [bridge]
  | some l =>
      cases hlookup : l.lookup it.1 with
      | none => simp [bridge, hlookup]
      | some a => simp [bridge, hlookup, eq_comm]

end Computation

end Cape.SummaryEdges
