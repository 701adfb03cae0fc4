import Cape.Library.FinLiterals
import Cape.Slicing.LoopBlocks
import Mathlib.Data.Finset.Sort

/-!
# The forward walk that marks what depends on the secret

Pass 0 walks from a source along the dependence edges and marks the nodes it visits
(`NodesWalk::walk` with `WalkAndMark::markSlice`). A node is queued at most once. To leave a callee
only to the call site it was entered from, the walk keeps one `parent` per function entry: the call
site that was processed last.

`complete_of_run`: a run whose steps all meet `StepOK` marks every node that a call/return-matched
path reaches, in whatever order nodes are dequeued. `LastCaller.not_complete` is a run of the
first-in-first-out queue that misses a call site.
-/

set_option autoImplicit false
set_option linter.unusedSectionVars false

namespace Cape.Slicing

open Cape.Library

/-- The edges the forward walk follows: node-level and block-level control dependence, data
dependence, use, interference. -/
inductive EdgeKind where
  | CD
  | blockCD
  | DD
  | USE
  | ID
  deriving DecidableEq

instance : Fintype EdgeKind where
  elems := {.CD, .blockCD, .DD, .USE, .ID}
  complete rt := by cases rt <;> decide

/-- State of the walk. `queued` are the nodes with `lastwalkid == run_id`. -/
structure WalkState (N B : Type) where
  queue : List N
  queued : Finset N
  parent : N → Option N
  slices : Slices N B

namespace DependenceGraph

variable {N B F T : Type} [DecidableEq N] [Fintype B] [LinearOrder B]
variable (G : DependenceGraph N B F T)

/-! ## The code -/

/-- `enqueue`. -/
def enqueue (s : WalkState N B) (n : N) : WalkState N B :=
  if n ∈ s.queued then s else { s with queue := s.queue ++ [n], queued := insert n s.queued }

/-- The nodes that the edges of a kind lead to. -/
def targets : EdgeKind → N → List N
  | .CD, n => G.control n
  | .blockCD, n =>
      match G.bblock n with
      | none => []
      | some b => (G.controlDependence b).flatMap G.nodes
  | .DD, n => G.data n
  | .USE, n => G.use n
  | .ID, n => G.interference n

/-- A call site other than the parent of the entry, seen from the entry or from a return. -/
def unmatched (parent : N → Option N) (rt : EdgeKind) (n cur : N) : Bool :=
  match G.key n with
  | .function _ =>
      match parent n with
      | none => false
      | some p => decide (rt = .USE) && (G.key cur).isCall && decide (p ≠ cur)
  | .instruction .ret =>
      match G.entryOf n with
      | none => false
      | some fnd =>
          match parent fnd with
          | none => false
          | some p =>
              (decide (rt = .USE) || decide (rt = .DD)) && (G.key cur).isCall && decide (p ≠ cur)
  | _ => false

/-- What the walk leaves out over data and use edges: calls, unless from a return or a function, and
stores of the address of the secret. -/
def leftOut (rt : EdgeKind) (n cur : N) : Bool :=
  (decide (rt = .DD) || decide (rt = .USE)) &&
    (((G.key cur).isCall && !(G.key n).isReturn && !(G.key n).isFunction) ||
      (decide (G.key cur = .instruction .store) && G.pointsToSecret cur 0))

/-- The edge is skipped. -/
def skips (parent : N → Option N) (rt : EdgeKind) (n cur : N) : Bool :=
  G.unmatched parent rt n cur || G.leftOut rt n cur

/-- Over the edge from a call to an entry, the call becomes the parent of the entry. -/
def setParent (rt : EdgeKind) (n : N) (s : WalkState N B) (cur : N) : WalkState N B :=
  if (G.key n).isCall && decide (rt = .CD) && (G.key cur).isFunction then
    { s with parent := Function.update s.parent cur (some n) }
  else s

/-- One edge of `processEdges`. -/
def processEdge (rt : EdgeKind) (n : N) (s : WalkState N B) (cur : N) : WalkState N B :=
  let s := G.setParent rt n s cur
  if G.skips s.parent rt n cur then s else enqueue s cur

/-- `processEdges`. -/
def processEdges (rt : EdgeKind) (n : N) (s : WalkState N B) : WalkState N B :=
  (G.targets rt n).foldl (G.processEdge rt n) s

/-- A load or store whose address may be the secret. -/
def secretAccess (n : N) : Bool :=
  match (G.key n).addressOperand with
  | none => false
  | some operand => G.pointsToSecret n operand

/-- The nodes of the loop that the branch `n` can leave, in the order of `std::set`. -/
def loopNodes (n : N) : List N :=
  match G.bblock n with
  | none => []
  | some b =>
      let blks := (G.getBrLoopBlocks b).1
      if b ∈ blks ∧ G.isCondExit b blks then (blks.sort (· ≤ ·)).flatMap G.nodes else []

/-- Queue the unmarked nodes of the loop that a branch can leave. -/
def queueLoop (n : N) (s : WalkState N B) : WalkState N B :=
  if (G.key n).isBr then
    (G.loopNodes n).foldl (fun s nd => if s.slices.node nd = 0 then enqueue s nd else s) s
  else s

/-- Mark the node and its block. -/
def setSlices (sliceId : Nat) (n : N) (m : Slices N B) : Slices N B :=
  match G.bblock n with
  | none => m.setNode n sliceId
  | some b => (m.setNode n sliceId).setBlock b sliceId

/-- `markSlice` in pass 0. The result says whether to follow block-level control dependence. -/
def markSlice (sliceId : Nat) (n : N) (s : WalkState N B) : Bool × WalkState N B :=
  if 0 < s.slices.node n then (false, s)
  else if G.secretAccess n then (false, s)
  else
    let s := G.queueLoop n s
    ((G.key n).isConditionalBr, { s with slices := G.setSlices sliceId n s.slices })

/-- The edges processed for a node, in order. -/
def kinds (marked : Bool) : List EdgeKind :=
  if marked then [.CD, .blockCD, .DD, .USE, .ID] else [.CD, .DD, .USE, .ID]

/-- The body of the loop of `walk` for the node `n` taken from the queue. -/
def visit (sliceId : Nat) (s : WalkState N B) (n : N) : WalkState N B :=
  let r := G.markSlice sliceId n { s with queue := s.queue.erase n }
  (kinds r.1).foldl (fun s rt => G.processEdges rt n s) r.2

/-- `slice_id` of pass 0 for the slice id that the walk is given, as 32-bit arithmetic. -/
def markId (sl : UInt32) : Nat := ((sl - 1) * 5 + 1).toNat

/-- The state before the walk from a source. -/
def start (src : N) : WalkState N B := ⟨[src], {src}, fun _ => none, ⟨fun _ => 0, fun _ => 0⟩⟩

/-- `walk` with its first-in-first-out queue, at most `fuel` rounds. -/
def walk (sliceId : Nat) : Nat → WalkState N B → WalkState N B
  | 0, s => s
  | fuel + 1, s =>
      match s.queue with
      | [] => s
      | n :: _ => walk sliceId fuel (G.visit sliceId s n)

/-- Runs that dequeue nodes in any order, each step meeting `P`. -/
inductive Run (P : WalkState N B → N → Prop) (sliceId : Nat) (src : N) : WalkState N B → Prop
  | start : Run P sliceId src (start src)
  | visit {s : WalkState N B} {n : N} :
      Run P sliceId src s → n ∈ s.queue → P s n → Run P sliceId src (G.visit sliceId s n)

/-! ## Matched paths -/

/-- A dependence edge that is not excluded on purpose: block-level control dependence starts at a
conditional terminator; a data or use edge does not lead from an instruction other than a return to
a call, and not to a store of the secret's own address. -/
def TaintEdge (rt : EdgeKind) (n m : N) : Prop :=
  m ∈ G.targets rt n ∧
  (rt = .blockCD → (G.key n).isConditionalTerminator) ∧
  (rt = .DD ∨ rt = .USE →
    ¬ ((G.key m).isCall ∧ (G.key n).isInstruction ∧ ¬ (G.key n).isReturn) ∧
    ¬ (G.key m = .instruction .store ∧ G.pointsToSecret m 0))

instance (rt : EdgeKind) (n m : N) : Decidable (G.TaintEdge rt n m) := by
  rw [TaintEdge]
  infer_instance

/-- The call sites a path is inside of, for each function entry; the last one first. -/
abbrev CallSites (N : Type) := N → List N

/-- The edge from a call to an entry, through which a path enters a callee. -/
def Enters (rt : EdgeKind) (n m : N) : Prop :=
  rt = .CD ∧ (G.key n).isCall ∧ (G.key m).isFunction

/-- A data or use edge to a call that leaves the function with entry `e`: from a return; with
`entryLeaves` also the use edge from the entry itself, which a call has as its operand. -/
def Leaves (entryLeaves : Bool) (e : N) (rt : EdgeKind) (n m : N) : Prop :=
  (rt = .DD ∨ rt = .USE) ∧ (G.key m).isCall ∧
    (((G.key n).isReturn ∧ G.entryOf n = some e) ∨
      (entryLeaves ∧ rt = .USE ∧ (G.key n).isFunction ∧ n = e))

/-- How an edge changes the call sites. A callee that was entered is left only to the call site it
was entered from; a callee that the path started in is left to any call site. -/
inductive Follows (entryLeaves : Bool) (rt : EdgeKind) (n m : N) (cs : CallSites N) :
    CallSites N → Prop
  | enter : G.Enters rt n m → Follows entryLeaves rt n m cs (Function.update cs m (n :: cs m))
  | leave {e : N} {rest : List N} : G.Leaves entryLeaves e rt n m → cs e = m :: rest →
      Follows entryLeaves rt n m cs (Function.update cs e rest)
  | outermost {e : N} : G.Leaves entryLeaves e rt n m → cs e = [] →
      Follows entryLeaves rt n m cs cs
  | plain : ¬ G.Enters rt n m → (∀ e, ¬ G.Leaves entryLeaves e rt n m) →
      Follows entryLeaves rt n m cs cs

variable {G} in
/-- Edges that start at no call, no return and no entry leave the call sites as they are. -/
theorem Follows.of_other {entryLeaves : Bool} {rt : EdgeKind} {n m : N}
    (hcall : (G.key n).isCall = false) (hret : (G.key n).isReturn = false)
    (hfunction : (G.key n).isFunction = false) (cs : CallSites N) :
    G.Follows entryLeaves rt n m cs cs := by
  apply Follows.plain
  · rintro ⟨-, h, -⟩
    rw [hcall] at h
    cases h
  · rintro e ⟨-, -, ⟨h, -⟩ | ⟨-, -, h, -⟩⟩
    · rw [hret] at h
      cases h
    · rw [hfunction] at h
      cases h

/-- The nodes that matched paths from the source reach, with the call sites the path is inside. -/
inductive Reaches (entryLeaves : Bool) (src : N) : N → CallSites N → Prop
  | source : Reaches entryLeaves src src fun _ => []
  | edge (rt : EdgeKind) {n m : N} {cs cs' : CallSites N} : Reaches entryLeaves src n cs →
      G.TaintEdge rt n m → G.Follows entryLeaves rt n m cs cs' → Reaches entryLeaves src m cs'

/-- A matched path from the source goes through the edge. -/
def OnMatchedPath (entryLeaves : Bool) (src : N) (rt : EdgeKind) (n m : N) : Prop :=
  ∃ cs cs', G.Reaches entryLeaves src n cs ∧ G.TaintEdge rt n m ∧
    G.Follows entryLeaves rt n m cs cs'

/-- The walk has marked every node that a matched path reaches, but for the accesses of the secret
itself. -/
def Complete (entryLeaves : Bool) (src : N) (s : WalkState N B) : Prop :=
  ∀ n cs, G.Reaches entryLeaves src n cs → 0 < s.slices.node n ∨ G.secretAccess n

/-- The edge is not followed when `n` is visited in state `s`. -/
def Drops (s : WalkState N B) (rt : EdgeKind) (n m : N) : Prop :=
  match rt with
  | .blockCD => (G.key n).isConditionalBr = false
  | _ => G.skips s.parent rt n m = true

instance (s : WalkState N B) (rt : EdgeKind) (n m : N) : Decidable (G.Drops s rt n m) := by
  cases rt <;> unfold Drops <;> infer_instance

/-- A step that loses nothing: each edge it does not follow leads to a node that is queued already,
or to no matched path. -/
def StepOK (entryLeaves : Bool) (src : N) (s : WalkState N B) (n : N) : Prop :=
  ∀ rt m, G.TaintEdge rt n m → G.Drops s rt n m →
    m ∈ s.queued ∨ ¬ G.OnMatchedPath entryLeaves src rt n m

variable {G} in
theorem StepOK.of_queued {entryLeaves : Bool} {src n : N} {s : WalkState N B}
    (h : ∀ rt, ∀ m ∈ G.targets rt n, G.Drops s rt n m → m ∈ s.queued) :
    G.StepOK entryLeaves src s n :=
  fun rt m hedge hdrop => Or.inl (h rt m hedge.1 hdrop)

/-! ## One visit -/

section Visit

variable {G}

/-- What queueing does while `n` is visited: the queue grows by what becomes queued, and no decision
about an edge of `n` changes. -/
structure Grows (G : DependenceGraph N B F T) (n : N) (s s' : WalkState N B) : Prop where
  queued : s.queued ⊆ s'.queued
  queue : ∀ x, x ∈ s'.queue ↔ x ∈ s.queue ∨ (x ∈ s'.queued ∧ x ∉ s.queued)
  nodup : (∀ x ∈ s.queue, x ∈ s.queued) → s.queue.Nodup → s'.queue.Nodup
  size : s'.queue.length + s.queued.card = s.queue.length + s'.queued.card
  skips : ∀ rt m, G.skips s'.parent rt n m = G.skips s.parent rt n m

theorem Grows.refl (n : N) (s : WalkState N B) : Grows G n s s where
  queued := Finset.Subset.refl _
  queue x := by tauto
  nodup _ h := h
  size := rfl
  skips _ _ := rfl

theorem Grows.trans {n : N} {s s' s'' : WalkState N B} (h : Grows G n s s')
    (h' : Grows G n s' s'') : Grows G n s s'' where
  queued := h.queued.trans h'.queued
  queue x := by
    have hmono := @h'.queued x
    have hmono' := @h.queued x
    rw [h'.queue, h.queue]
    tauto
  nodup hsub hnd := by
    apply h'.nodup _ (h.nodup hsub hnd)
    intro x hx
    rcases (h.queue x).1 hx with hx | hx
    · exact h.queued (hsub x hx)
    · exact hx.1
  size := by
    have h1 := h.size
    have h2 := h'.size
    omega
  skips rt m := (h'.skips rt m).trans (h.skips rt m)

theorem mem_queued_enqueue (s : WalkState N B) (n : N) : n ∈ (enqueue s n).queued := by
  rw [enqueue]
  split
  · assumption
  · exact Finset.mem_insert_self _ _

theorem grows_enqueue (n : N) (s : WalkState N B) (m : N) : Grows G n s (enqueue s m) := by
  rw [enqueue]
  split
  · exact Grows.refl n s
  · next hm =>
      constructor
      · exact Finset.subset_insert _ _
      · intro x
        simp only [List.mem_append, List.mem_singleton, Finset.mem_insert]
        constructor
        · rintro (hx | rfl)
          · exact Or.inl hx
          · exact Or.inr ⟨Or.inl rfl, hm⟩
        · rintro (hx | ⟨rfl | hx, hnot⟩)
          · exact Or.inl hx
          · exact Or.inr rfl
          · exact absurd hx hnot
      · intro hsub hnd
        rw [List.nodup_append]
        refine ⟨hnd, List.nodup_singleton m, fun x hx y hy => ?_⟩
        rw [List.mem_singleton] at hy
        rintro rfl
        exact hm (hy ▸ hsub x hx)
      · simp only [List.length_append, List.length_singleton, Finset.card_insert_of_notMem hm]
        omega
      · exact fun _ _ => rfl

/-- Setting the parent of a callee changes nothing for the call itself. -/
theorem skips_of_isCall {n : N} (hn : (G.key n).isCall = true) (parent parent' : N → Option N)
    (rt : EdgeKind) (m : N) : G.skips parent rt n m = G.skips parent' rt n m := by
  have hunmatched : ∀ p, G.unmatched p rt n m = false := by
    intro p
    rw [unmatched]
    split
    · next hkey => simp [hkey, Key.isCall] at hn
    · next hkey => simp [hkey, Key.isCall] at hn
    · rfl
  rw [skips, skips, hunmatched, hunmatched]

variable (G) in
theorem grows_setParent (rt : EdgeKind) (n : N) (s : WalkState N B) (cur : N) :
    Grows G n s (G.setParent rt n s cur) := by
  rw [setParent]
  split
  · next hcall =>
      simp only [Bool.and_eq_true] at hcall
      have hrefl : Grows G n s s := Grows.refl n s
      exact ⟨hrefl.queued, hrefl.queue, hrefl.nodup, hrefl.size,
        skips_of_isCall hcall.1.1 _ _⟩
  · exact Grows.refl n s

theorem grows_processEdge (rt : EdgeKind) (n : N) (s : WalkState N B) (cur : N) :
    Grows G n s (G.processEdge rt n s cur) := by
  unfold processEdge
  simp only
  split
  · exact grows_setParent G rt n s cur
  · exact (grows_setParent G rt n s cur).trans (grows_enqueue n _ cur)

/-- An edge that is not skipped leads to a queued node. -/
theorem mem_queued_processEdge {rt : EdgeKind} {n : N} {s : WalkState N B} {cur : N}
    (h : G.skips s.parent rt n cur = false) : cur ∈ (G.processEdge rt n s cur).queued := by
  have hskips := (grows_setParent G rt n s cur).skips rt cur
  rw [h] at hskips
  rw [processEdge]
  simp only [hskips]
  exact mem_queued_enqueue _ cur

theorem grows_foldl_processEdge (rt : EdgeKind) (n : N) (l : List N) :
    ∀ s : WalkState N B, Grows G n s (l.foldl (G.processEdge rt n) s) := by
  induction l with
  | nil => exact fun s => Grows.refl n s
  | cons cur l ih => exact fun s => (grows_processEdge rt n s cur).trans (ih _)

theorem mem_queued_foldl_processEdge {rt : EdgeKind} {n cur : N} (l : List N) :
    ∀ s : WalkState N B, cur ∈ l → G.skips s.parent rt n cur = false →
      cur ∈ (l.foldl (G.processEdge rt n) s).queued := by
  induction l with
  | nil => exact fun s hcur => absurd hcur List.not_mem_nil
  | cons c l ih =>
      intro s hcur hskips
      rw [List.foldl_cons]
      rcases List.mem_cons.1 hcur with rfl | hcur
      · exact (grows_foldl_processEdge rt n l _).queued (mem_queued_processEdge hskips)
      · apply ih _ hcur
        rw [(grows_processEdge rt n s c).skips, hskips]

theorem grows_foldl_processEdges (n : N) (rts : List EdgeKind) :
    ∀ s : WalkState N B, Grows G n s (rts.foldl (fun s rt => G.processEdges rt n s) s) := by
  induction rts with
  | nil => exact fun s => Grows.refl n s
  | cons rt rts ih => exact fun s => (grows_foldl_processEdge rt n _ s).trans (ih _)

theorem mem_queued_foldl_processEdges {rt : EdgeKind} {n cur : N} (rts : List EdgeKind) :
    ∀ s : WalkState N B, rt ∈ rts → cur ∈ G.targets rt n → G.skips s.parent rt n cur = false →
      cur ∈ (rts.foldl (fun s rt => G.processEdges rt n s) s).queued := by
  induction rts with
  | nil => exact fun s hrt => absurd hrt List.not_mem_nil
  | cons r rts ih =>
      intro s hrt hcur hskips
      rw [List.foldl_cons]
      rcases List.mem_cons.1 hrt with rfl | hrt
      · exact (grows_foldl_processEdges n rts _).queued
          (mem_queued_foldl_processEdge _ s hcur hskips)
      · apply ih _ hrt hcur
        rw [processEdges, (grows_foldl_processEdge r n _ s).skips, hskips]

theorem grows_enqueueLoop (n : N) (l : List N) : ∀ s : WalkState N B,
    Grows G n s (l.foldl (fun s nd => if s.slices.node nd = 0 then enqueue s nd else s) s) := by
  induction l with
  | nil => exact fun s => Grows.refl n s
  | cons nd l ih =>
      intro s
      rw [List.foldl_cons]
      apply Grows.trans _ (ih _)
      split
      · exact grows_enqueue n s nd
      · exact Grows.refl n s

variable (G) in
theorem grows_markSlice (sliceId : Nat) (n : N) (s : WalkState N B) :
    Grows G n s (G.markSlice sliceId n s).2 := by
  have hloop : Grows G n s (G.queueLoop n s) := by
    rw [queueLoop]
    split
    · exact grows_enqueueLoop n _ s
    · exact Grows.refl n s
  rw [markSlice]
  split_ifs
  · exact Grows.refl n s
  · exact Grows.refl n s
  · exact ⟨hloop.queued, hloop.queue, hloop.nodup, hloop.size, hloop.skips⟩

/-! ### Slice ids -/

theorem slices_foldl {ι : Type} {f : WalkState N B → ι → WalkState N B}
    (hf : ∀ s i, (f s i).slices = s.slices) (l : List ι) :
    ∀ s, (l.foldl f s).slices = s.slices := by
  induction l with
  | nil => exact fun s => rfl
  | cons i l ih => exact fun s => (ih _).trans (hf s i)

theorem slices_enqueue (s : WalkState N B) (n : N) : (enqueue s n).slices = s.slices := by
  rw [enqueue]
  split
  · rfl
  · rfl

theorem slices_processEdges (rt : EdgeKind) (n : N) (s : WalkState N B) :
    (G.processEdges rt n s).slices = s.slices := by
  apply slices_foldl
  intro s cur
  have hparent : (G.setParent rt n s cur).slices = s.slices := by
    rw [setParent]
    split
    · rfl
    · rfl
  unfold processEdge
  simp only
  split
  · exact hparent
  · exact (slices_enqueue _ cur).trans hparent

theorem slices_queueLoop (n : N) (s : WalkState N B) : (G.queueLoop n s).slices = s.slices := by
  rw [queueLoop]
  split
  · apply slices_foldl
    intro s nd
    split
    · exact slices_enqueue s nd
    · rfl
  · rfl

theorem node_setSlices_self (sliceId : Nat) (n : N) (m : Slices N B) :
    (G.setSlices sliceId n m).node n = sliceId := by
  rw [setSlices]
  split
  · exact Slices.node_setNode_self m n sliceId
  · rw [Slices.node_setBlock, Slices.node_setNode_self]

theorem node_setSlices_of_ne (sliceId : Nat) {n x : N} (hx : x ≠ n) (m : Slices N B) :
    (G.setSlices sliceId n m).node x = m.node x := by
  rw [setSlices]
  split
  · exact Slices.node_setNode_of_ne m hx sliceId
  · rw [Slices.node_setBlock, Slices.node_setNode_of_ne m hx]

theorem markSlice_of_unmarked (sliceId : Nat) {n : N} (s : WalkState N B)
    (hn : s.slices.node n = 0) (hsecret : G.secretAccess n = false) :
    (G.markSlice sliceId n s).1 = (G.key n).isConditionalBr ∧
      (G.markSlice sliceId n s).2.slices = G.setSlices sliceId n s.slices := by
  simp [markSlice, hn, hsecret, slices_queueLoop]

theorem slices_visit (sliceId : Nat) (s : WalkState N B) (n : N) :
    (G.visit sliceId s n).slices =
      (G.markSlice sliceId n { s with queue := s.queue.erase n }).2.slices :=
  slices_foldl (fun s rt => slices_processEdges rt n s) _ _

theorem node_visit_of_ne (sliceId : Nat) (s : WalkState N B) {n x : N} (hx : x ≠ n) :
    (G.visit sliceId s n).slices.node x = s.slices.node x := by
  rw [slices_visit]
  rw [markSlice]
  split_ifs
  · rfl
  · rfl
  · exact (node_setSlices_of_ne sliceId hx _).trans (by rw [slices_queueLoop])

theorem node_visit_self {sliceId : Nat} {s : WalkState N B} {n : N} (hn : s.slices.node n = 0)
    (hsecret : G.secretAccess n = false) : (G.visit sliceId s n).slices.node n = sliceId := by
  rw [slices_visit, (markSlice_of_unmarked sliceId { s with queue := s.queue.erase n } hn hsecret).2,
    node_setSlices_self]

/-! ### The visit as a whole -/

variable (G) in
theorem grows_visit (sliceId : Nat) (s : WalkState N B) (n : N) :
    Grows G n { s with queue := s.queue.erase n } (G.visit sliceId s n) :=
  (grows_markSlice G sliceId n _).trans (grows_foldl_processEdges n _ _)

/-- An edge that is not dropped leads to a queued node. -/
theorem mem_queued_visit {sliceId : Nat} {s : WalkState N B} {n m : N} {rt : EdgeKind}
    (hn : s.slices.node n = 0) (hm : m ∈ G.targets rt n) (hdrop : ¬ G.Drops s rt n m) :
    m ∈ (G.visit sliceId s n).queued := by
  let s' : WalkState N B := { s with queue := s.queue.erase n }
  have hmark := grows_markSlice G sliceId n s'
  have hfollow : rt ∈ kinds (G.markSlice sliceId n s').1 → G.skips s.parent rt n m = false →
      m ∈ (G.visit sliceId s n).queued := by
    intro hrt hskips
    apply mem_queued_foldl_processEdges _ _ hrt hm
    rw [hmark.skips, hskips]
  have hkinds : ∀ marked, rt ≠ .blockCD → rt ∈ kinds marked := by
    intro marked hrt
    cases marked <;> cases rt <;> simp_all [kinds]
  by_cases hrt : rt = .blockCD
  · subst hrt
    have hbr : (G.key n).isConditionalBr = true := by simpa [Drops] using hdrop
    have hkey : G.key n = .instruction (.br true) := by
      revert hbr
      cases G.key n with
      | instruction op => cases op <;> simp [Key.isConditionalBr]
      | _ => simp [Key.isConditionalBr]
    have hsecret : G.secretAccess n = false := by simp [secretAccess, hkey, Key.addressOperand]
    apply hfollow
    · rw [(markSlice_of_unmarked sliceId s' hn hsecret).1, hbr]
      decide
    · simp [skips, unmatched, leftOut, hkey]
  · apply hfollow (hkinds _ hrt)
    have hskips : G.Drops s rt n m ↔ G.skips s.parent rt n m = true := by
      cases rt with
      | blockCD => exact absurd rfl hrt
      | _ => exact Iff.rfl
    rw [hskips, Bool.not_eq_true] at hdrop
    exact hdrop

end Visit

/-! ## Runs -/

section Runs

variable {G} {entryLeaves : Bool} {sliceId : Nat} {src : N}

/-- What every state of a run satisfies whose steps lose nothing. -/
structure WalkInvariant (G : DependenceGraph N B F T) (entryLeaves : Bool) (src : N)
    (s : WalkState N B) : Prop where
  source : src ∈ s.queued
  queue_queued : ∀ n ∈ s.queue, n ∈ s.queued
  nodup : s.queue.Nodup
  unvisited : ∀ n, n ∉ s.queued ∨ n ∈ s.queue → s.slices.node n = 0
  marked : ∀ n ∈ s.queued, n ∉ s.queue → 0 < s.slices.node n ∨ G.secretAccess n = true
  closed : ∀ n ∈ s.queued, n ∉ s.queue → ∀ rt m,
    G.OnMatchedPath entryLeaves src rt n m → m ∈ s.queued

theorem WalkInvariant.start : G.WalkInvariant entryLeaves src (start src : WalkState N B) where
  source := Finset.mem_singleton_self src
  queue_queued n hn := by
    rw [List.mem_singleton.1 hn]
    exact Finset.mem_singleton_self src
  nodup := List.nodup_singleton src
  unvisited _ _ := rfl
  marked n hn hnot := absurd (List.mem_singleton.2 (Finset.mem_singleton.1 hn)) hnot
  closed n hn hnot := absurd (List.mem_singleton.2 (Finset.mem_singleton.1 hn)) hnot

/-- **A step that loses nothing keeps the invariant.** -/
theorem WalkInvariant.visit {s : WalkState N B} {n : N} (h : G.WalkInvariant entryLeaves src s)
    (hsid : 0 < sliceId) (hn : n ∈ s.queue) (hok : G.StepOK entryLeaves src s n) :
    G.WalkInvariant entryLeaves src (G.visit sliceId s n) := by
  have hgrows := grows_visit G sliceId s n
  have hzero : s.slices.node n = 0 := h.unvisited n (Or.inr hn)
  have herase : ∀ x, x ∈ s.queue.erase n ↔ x ≠ n ∧ x ∈ s.queue := fun x => h.nodup.mem_erase_iff
  have hqueue : ∀ x, x ∈ (G.visit sliceId s n).queue ↔
      (x ≠ n ∧ x ∈ s.queue) ∨ (x ∈ (G.visit sliceId s n).queued ∧ x ∉ s.queued) := by
    intro x
    rw [hgrows.queue x, herase]
  -- a visited node was visited before, or it is `n`
  have hvisited : ∀ x ∈ (G.visit sliceId s n).queued, x ∉ (G.visit sliceId s n).queue →
      x ∈ s.queued ∧ (x = n ∨ x ∉ s.queue) := by
    intro x hx hnot
    rw [hqueue] at hnot
    tauto
  constructor
  · exact hgrows.queued h.source
  · intro x hx
    rcases (hqueue x).1 hx with ⟨-, hx⟩ | ⟨hx, -⟩
    · exact hgrows.queued (h.queue_queued x hx)
    · exact hx
  · apply hgrows.nodup
    · exact fun x hx => h.queue_queued x ((herase x).1 hx).2
    · exact h.nodup.erase n
  · intro x hx
    have hxn : x ≠ n := by
      rintro rfl
      rcases hx with hx | hx
      · exact hx (hgrows.queued (h.queue_queued x hn))
      · rcases (hqueue x).1 hx with ⟨hne, -⟩ | ⟨-, hnot⟩
        · exact hne rfl
        · exact hnot (h.queue_queued x hn)
    rw [node_visit_of_ne sliceId s hxn]
    apply h.unvisited
    rcases hx with hx | hx
    · exact Or.inl fun hq => hx (hgrows.queued hq)
    · rcases (hqueue x).1 hx with ⟨-, hq⟩ | ⟨-, hnot⟩
      · exact Or.inr hq
      · exact Or.inl hnot
  · intro x hx hnot
    obtain ⟨hq, rfl | hxq⟩ := hvisited x hx hnot
    · cases hsecret : G.secretAccess x with
      | true => exact Or.inr rfl
      | false =>
          rw [node_visit_self hzero hsecret]
          exact Or.inl hsid
    · have hxn : x ≠ n := fun heq => hxq (heq ▸ hn)
      rw [node_visit_of_ne sliceId s hxn]
      exact h.marked x hq hxq
  · intro x hx hnot rt m hpath
    obtain ⟨hq, rfl | hxq⟩ := hvisited x hx hnot
    · by_cases hdrop : G.Drops s rt x m
      · obtain ⟨cs, cs', hreach, hedge, hfollows⟩ := hpath
        rcases hok rt m hedge hdrop with hm | hno
        · exact hgrows.queued hm
        · exact absurd ⟨cs, cs', hreach, hedge, hfollows⟩ hno
      · have hm : m ∈ G.targets rt x := by
          obtain ⟨-, -, -, hedge, -⟩ := hpath
          exact hedge.1
        exact mem_queued_visit hzero hm hdrop
    · exact hgrows.queued (h.closed x hq hxq rt m hpath)

theorem WalkInvariant.of_run (hsid : 0 < sliceId) {s : WalkState N B}
    (hrun : G.Run (G.StepOK entryLeaves src) sliceId src s) : G.WalkInvariant entryLeaves src s := by
  induction hrun with
  | start => exact WalkInvariant.start
  | visit _ hn hok ih => exact ih.visit hsid hn hok

/-- **A finished run whose steps lose nothing has marked every node that a matched path reaches**,
in whatever order the nodes were dequeued. -/
theorem complete_of_run {sl : UInt32} (hsl : 0 < markId sl) {s : WalkState N B}
    (hrun : G.Run (G.StepOK entryLeaves src) (markId sl) src s) (hend : s.queue = []) : G.Complete entryLeaves src s := by
  have hinv := WalkInvariant.of_run hsl hrun
  have hvisited : ∀ n, n ∉ s.queue := by
    intro n
    rw [hend]
    exact List.not_mem_nil
  have hqueued : ∀ n cs, G.Reaches entryLeaves src n cs → n ∈ s.queued := by
    intro n cs hreach
    induction hreach with
    | source => exact hinv.source
    | edge rt hreach hedge hfollows ih =>
        exact hinv.closed _ ih (hvisited _) _ _ ⟨_, _, hreach, hedge, hfollows⟩
  intro n cs hreach
  exact hinv.marked n (hqueued n cs hreach) (hvisited n)

/-! ### The queue empties -/

/-- A visit takes one node from the queue, and a node is queued only once. -/
theorem size_visit {s : WalkState N B} {n : N} (hn : n ∈ s.queue) :
    (G.visit sliceId s n).queue.length + s.queued.card + 1 =
      s.queue.length + (G.visit sliceId s n).queued.card := by
  have hsize := (grows_visit G sliceId s n).size
  have hpos : 0 < s.queue.length := List.length_pos_of_mem hn
  have herase := List.length_erase_of_mem hn
  simp only [herase] at hsize
  omega

variable (sliceId) in
theorem queue_walk_eq_nil_of_size [Fintype N] (fuel : Nat) : ∀ s : WalkState N B,
    s.queue.length + Fintype.card N ≤ fuel + s.queued.card →
      (G.walk sliceId fuel s).queue = [] := by
  induction fuel with
  | zero =>
      intro s hsize
      have hcard : s.queued.card ≤ Fintype.card N := Finset.card_le_univ _
      apply List.length_eq_zero_iff.1
      show s.queue.length = 0
      omega
  | succ fuel ih =>
      intro s hsize
      rw [walk]
      split
      · assumption
      · next n rest hqueue =>
          have hn : n ∈ s.queue := hqueue ▸ List.mem_cons_self
          have hstep : (G.visit sliceId s n).queue.length + s.queued.card + 1 =
              s.queue.length + (G.visit sliceId s n).queued.card := size_visit hn
          apply ih
          omega

/-- **The walk ends**: after as many rounds as there are nodes the queue is empty. -/
theorem queue_walk_eq_nil [Fintype N] (sliceId : Nat) (src : N) :
    (G.walk sliceId (Fintype.card N) (start src)).queue = [] := by
  apply queue_walk_eq_nil_of_size
  show 1 + Fintype.card N ≤ Fintype.card N + ({src} : Finset N).card
  rw [Finset.card_singleton]
  omega

/-- The first-in-first-out walk is a run. -/
theorem run_walk {P : WalkState N B → N → Prop} (fuel : Nat) : ∀ s, G.Run P sliceId src s →
    (∀ k < fuel, ∀ n ∈ (G.walk sliceId k s).queue.head?, P (G.walk sliceId k s) n) →
      G.Run P sliceId src (G.walk sliceId fuel s) := by
  induction fuel with
  | zero => exact fun s hs _ => hs
  | succ fuel ih =>
      intro s hs hP
      cases hqueue : s.queue with
      | nil =>
          rw [walk, hqueue]
          exact hs
      | cons n rest =>
          have hwalk : ∀ k, G.walk sliceId (k + 1) s = G.walk sliceId k (G.visit sliceId s n) := by
            intro k
            rw [walk, hqueue]
          have hn : n ∈ s.queue.head? := by
            rw [hqueue]
            rfl
          rw [hwalk]
          apply ih _ (hs.visit (List.mem_of_mem_head? hn) (hP 0 (Nat.succ_pos fuel) n hn))
          intro k hk m hm
          rw [← hwalk] at hm ⊢
          exact hP (k + 1) (Nat.succ_lt_succ hk) m hm

end Runs

/-! ## What is dropped -/

section Dropped

variable {G}

theorem unmatched_iff (parent : N → Option N) (rt : EdgeKind) (n m : N) :
    G.unmatched parent rt n m = true ↔
      ∃ e, G.Leaves true e rt n m ∧ ∃ p, parent e = some p ∧ p ≠ m := by
  unfold unmatched Leaves
  split
  · next name hkey =>
      cases hp : parent n with
      | none => simp [hkey, hp, Key.isReturn]
      | some p =>
          simp only [hkey, Key.isReturn, Key.isFunction, Bool.and_eq_true, decide_eq_true_eq]
          constructor
          · rintro ⟨⟨huse, hm⟩, hne⟩
            exact ⟨n, ⟨Or.inr huse, hm, Or.inr ⟨trivial, huse, trivial, rfl⟩⟩, p, hp, hne⟩
          · rintro ⟨e, ⟨-, hm, ⟨hret, -⟩ | ⟨-, huse, -, rfl⟩⟩, q, hq, hne⟩
            · cases hret
            · rw [hp] at hq
              exact ⟨⟨huse, hm⟩, Option.some.inj hq ▸ hne⟩
  · next hkey =>
      cases he : G.entryOf n with
      | none => simp [hkey, Key.isFunction]
      | some e =>
          cases hp : parent e with
          | none => simp [hkey, Key.isFunction, hp]
          | some p =>
              simp [hkey, Key.isReturn, Key.isFunction, hp, or_comm, and_assoc]
  · next hfunction hret =>
      have hfunction' : (G.key n).isFunction = false := by
        cases hkey : G.key n with
        | function name => exact absurd hkey (hfunction name)
        | _ => rfl
      have hret' : (G.key n).isReturn = false := by
        cases hkey : G.key n with
        | instruction op =>
            cases op with
            | ret => exact absurd hkey hret
            | _ => rfl
        | _ => rfl
      simp [hfunction', hret']

theorem leftOut_iff {rt : EdgeKind} {n m : N} (hedge : G.TaintEdge rt n m) :
    G.leftOut rt n m = true ↔ (rt = .DD ∨ rt = .USE) ∧ (G.key m).isCall ∧
      ¬ (G.key n).isInstruction ∧ ¬ (G.key n).isFunction := by
  obtain ⟨-, -, hout⟩ := hedge
  by_cases hdata : rt = .DD ∨ rt = .USE
  · obtain ⟨hcall, hstore⟩ := hout hdata
    simp only [leftOut, Bool.and_eq_true, Bool.or_eq_true, decide_eq_true_eq, Bool.not_eq_true']
    constructor
    · rintro ⟨-, ⟨⟨hm, hret⟩, hfunction⟩ | hst⟩
      · refine ⟨hdata, hm, fun hn => hcall ⟨hm, hn, ?_⟩, ?_⟩
        · rw [hret]
          exact Bool.false_ne_true
        · rw [hfunction]
          exact Bool.false_ne_true
      · exact absurd hst hstore
    · rintro ⟨-, hm, hn, hfunction⟩
      refine ⟨hdata, Or.inl ⟨⟨hm, ?_⟩, Bool.eq_false_iff.2 hfunction⟩⟩
      exact Bool.eq_false_iff.2 fun hret => hn ((G.key n).isInstruction_of_isReturn hret)
  · simp [leftOut, hdata]

/-- The edges that the walk drops although they are not excluded on purpose: block-level control
dependence from a `switch`; from a return or an entry to a call site that is not the last caller;
data and use edges to a call from a node that is no instruction and no function. -/
theorem drops_iff {s : WalkState N B} {rt : EdgeKind} {n m : N} (hedge : G.TaintEdge rt n m) :
    G.Drops s rt n m ↔
      (rt = .blockCD ∧ (G.key n).isConditionalBr = false) ∨
      (∃ e, G.Leaves true e rt n m ∧ ∃ p, s.parent e = some p ∧ p ≠ m) ∨
      ((rt = .DD ∨ rt = .USE) ∧ (G.key m).isCall ∧ ¬ (G.key n).isInstruction ∧
        ¬ (G.key n).isFunction) := by
  by_cases hrt : rt = .blockCD
  · subst hrt
    simp [Drops, Leaves]
  · have hskips : G.Drops s rt n m ↔
        G.unmatched s.parent rt n m = true ∨ G.leftOut rt n m = true := by
      cases rt with
      | blockCD => exact absurd rfl hrt
      | _ => simp [Drops, skips]
    rw [hskips, unmatched_iff, leftOut_iff hedge]
    simp only [hrt, false_and, false_or]

end Dropped

end DependenceGraph

/-! ## A call site that is missed -/

namespace LastCaller

/-- `main` branches on the secret, calls `f` under the branch and again behind it; `f` returns the
secret. -/
inductive Node where
  | secret
  | main | loadMain | brSecret | call1 | brJoin | call2 | mainRet
  | f | loadF | fRet | fExit
  deriving DecidableEq

inductive Fn where
  | main | f
  deriving DecidableEq

open Node

def graph : DependenceGraph Node (Fin 5) Fn Unit where
  key
    | secret => .globalVariable ⟨"key", true, 4⟩
    | main => .function "main"
    | f => .function "f"
    | loadMain | loadF => .instruction .load
    | brSecret => .instruction (.br true)
    | brJoin => .instruction (.br false)
    | call1 | call2 => .instruction (.call (some "f"))
    | mainRet | fRet | fExit => .instruction .ret
  nodes := ![[loadMain, brSecret], [call1, brJoin], [call2, mainRet], [loadF, fRet], [fExit]]
  successors := ![[1, 2], [2], [], [4], []]
  predecessors := ![[], [0], [0, 1], [], [3]]
  idom := ![none, some 0, some 0, none, none]
  ipostdom := ![.block 2, .block 2, .root, .root, .missing]
  functionName := ![ "main", "main", "main", "f", "f"]
  functionBlocks
    | "main" => [0, 1, 2]
    | "f" => [3]
    | _ => []
  bblock
    | secret | main | f => none
    | loadMain | brSecret => some 0
    | call1 | brJoin => some 1
    | call2 | mainRet => some 2
    | loadF | fRet => some 3
    | fExit => some 4
  dg
    | secret => none
    | f | loadF | fRet | fExit => some .f
    | _ => some .main
  entry
    | .main => some main
    | .f => some f
  getNode _ n := some n
  control
    | main => [loadMain, brSecret, call1, brJoin, call2, mainRet]
    | f => [loadF, fRet]
    | call1 | call2 => [f]
    | fRet => [fExit]
    | _ => []
  revControl
    | f => [call1, call2]
    | fExit => [fRet]
    | loadMain | brSecret | call1 | brJoin | call2 | mainRet => [main]
    | loadF | fRet => [f]
    | _ => []
  data
    | fExit => [call1, call2]
    | _ => []
  revData
    | call1 | call2 => [fExit]
    | _ => []
  use
    | secret => [loadMain, loadF]
    | loadMain => [brSecret]
    | loadF => [fRet]
    | call2 => [mainRet]
    | f => [call1, call2]
    | _ => []
  user
    | loadMain | loadF => [secret]
    | brSecret => [loadMain]
    | fRet => [loadF]
    | mainRet => [call2]
    | call1 | call2 => [f]
    | _ => []
  interference _ := []
  controlDependence := ![[1], [], [], [], []]
  revControlDependence := ![[], [0], [], [], []]
  userData _ := .globalVariable ⟨"key", true, 4⟩
  pointsTo
    | loadMain, 0 | loadF, 0 => [()]
    | _, _ => []

/-- The path from the secret through `f` to its second call site: `f` is left from the inside, it
was not entered through a call. -/
theorem reaches_call2 (entryLeaves : Bool) :
    graph.Reaches entryLeaves secret call2 fun _ => [] := by
  have hload : graph.Reaches entryLeaves secret loadF fun _ => [] :=
    .edge .USE .source (by decide) (.of_other rfl rfl rfl _)
  have hret : graph.Reaches entryLeaves secret fRet fun _ => [] :=
    .edge .USE hload (by decide) (.of_other rfl rfl rfl _)
  have hexit : graph.Reaches entryLeaves secret fExit fun _ => [] := by
    refine .edge .CD hret (by decide) (.plain ?_ ?_)
    · rintro ⟨-, hcall, -⟩
      cases hcall
    · rintro e ⟨-, hcall, -⟩
      cases hcall
  have hleaves : graph.Leaves entryLeaves f .DD fExit call2 :=
    ⟨Or.inl rfl, rfl, Or.inl ⟨rfl, rfl⟩⟩
  exact .edge .DD hexit (by decide) (.outermost hleaves rfl)

/-- **The walk misses a call site.** `call1` is visited before the exit of `f` and becomes the
parent of `f`, so the edge from the exit to `call2` is skipped and `call2` stays unmarked. -/
theorem not_complete :
    (graph.walk (DependenceGraph.markId 1) 12 (DependenceGraph.start secret)).queue = [] ∧
    ¬ graph.Complete false secret
      (graph.walk (DependenceGraph.markId 1) 12 (DependenceGraph.start secret)) ∧
    ¬ graph.Complete true secret
      (graph.walk (DependenceGraph.markId 1) 12 (DependenceGraph.start secret)) := by
  have hmissed : ∀ entryLeaves, ¬ graph.Complete entryLeaves secret
      (graph.walk (DependenceGraph.markId 1) 12 (DependenceGraph.start secret)) := by
    intro entryLeaves hcomplete
    have hcall2 := hcomplete call2 _ (reaches_call2 entryLeaves)
    revert hcall2
    decide
  exact ⟨by decide, hmissed false, hmissed true⟩

/-- From the exit of `f` the walk reaches both call sites before it sets a parent, and misses
nothing. -/
theorem complete_fExit : graph.Complete false fExit
    (graph.walk (DependenceGraph.markId 1) 7 (DependenceGraph.start fExit)) := by
  have hsl : 0 < DependenceGraph.markId 1 := by decide
  apply DependenceGraph.complete_of_run hsl
  · apply DependenceGraph.run_walk _ _ .start
    intro k hk n hn
    apply DependenceGraph.StepOK.of_queued
    revert k n
    decide
  · decide

end LastCaller

end Cape.Slicing
