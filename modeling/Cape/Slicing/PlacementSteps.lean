import Cape.Slicing.Transactions

/-!
# What a placement does to the code

A placement inserts its calls at one site: the branch, the first instruction of an address-dependent
block, or the end of the block before a loop. `starts` says whether a start is inserted, `endSite`
where its end goes. `place_of_starts` and `place_of_not_starts` list the insertions in order.

The program stays as it is (`Intact`): no instruction moves, and inserted calls have their own ids.
-/

set_option autoImplicit false
set_option linter.unusedSectionVars false

namespace Cape.Slicing

open Cape.Library

namespace Inst

variable {N : Type} [DecidableEq N]

theorem insertBefore_split {at_ : Inst N} (i : Inst N) {pre : List (Inst N)} (h : at_ ∉ pre)
    (post : List (Inst N)) :
    insertBefore at_ i (pre ++ at_ :: post) = pre ++ i :: at_ :: post := by
  induction pre with
  | nil => exact if_pos rfl
  | cons x pre ih =>
      rw [List.mem_cons, not_or] at h
      obtain ⟨hx, hpre⟩ := h
      rw [List.cons_append, insertBefore, if_neg (Ne.symm hx), ih hpre, List.cons_append]

theorem sublist_insertBefore (at_ i : Inst N) (l : List (Inst N)) :
    l.Sublist (insertBefore at_ i l) := by
  induction l with
  | nil => exact List.Sublist.refl _
  | cons x rest ih =>
      rw [insertBefore]
      split
      · exact List.sublist_cons_self _ _
      · exact ih.cons_cons x

theorem sublist_insertAfter (at_ i : Inst N) (l : List (Inst N)) :
    l.Sublist (insertAfter at_ i l) := by
  induction l with
  | nil => exact List.Sublist.refl _
  | cons x rest ih =>
      cases rest with
      | nil =>
          rw [insertAfter]
          split
          · exact List.sublist_cons_self _ _
          · exact List.Sublist.refl _
      | cons y rest =>
          rw [insertAfter]
          split
          · exact (List.sublist_cons_self i (y :: rest)).cons_cons x
          · exact ih.cons_cons x

end Inst

/-! ## Insertions -/

namespace State

variable {N B T : Type} [DecidableEq N]

/-- The second state has the code of the first with calls inserted, all at places and of kinds that
`P` allows; marks and ids may differ. -/
inductive Inserts (P : Inst N → RuntimeCall N → Prop) (s : State N B T) : State N B T → Prop
  | refl : Inserts P s s
  | insertBefore {s' : State N B T} (at_ : Inst N) (call : RuntimeCall N) :
      Inserts P s s' → P at_ call → Inserts P s (s'.insertBefore at_ call)
  | marks {s' s'' : State N B T} : Inserts P s s' → s''.code = s'.code →
      s''.nextUid = s'.nextUid → Inserts P s s''

variable {P : Inst N → RuntimeCall N → Prop} {s s' s'' : State N B T}

theorem Inserts.trans (h : Inserts P s s') (h' : Inserts P s' s'') : Inserts P s s'' := by
  induction h' with
  | refl => exact h
  | insertBefore at_ call _ hP ih => exact ih.insertBefore at_ call hP
  | marks _ hcode huid ih => exact ih.marks hcode huid

theorem Inserts.mono {Q : Inst N → RuntimeCall N → Prop} (hPQ : ∀ at_ call, P at_ call → Q at_ call)
    (h : Inserts P s s') : Inserts Q s s' := by
  induction h with
  | refl => exact .refl
  | insertBefore at_ call _ hP ih => exact ih.insertBefore at_ call (hPQ at_ call hP)
  | marks _ hcode huid ih => exact ih.marks hcode huid

/-- Insertion keeps the order of what was there. -/
theorem Inserts.sublist (h : Inserts P s s') (b : B) : (s.code b).Sublist (s'.code b) := by
  induction h with
  | refl => exact List.Sublist.refl _
  | insertBefore at_ call _ _ ih => exact ih.trans (Inst.sublist_insertBefore _ _ _)
  | marks _ hcode _ ih => rwa [hcode]

theorem inserts_addPreLoad (s : State N B T) (inst : Inst N) (sets : PreloadSets) :
    Inserts (fun at_ call => at_ = inst ∧ call ∈ sets.calls) s (s.addPreLoad inst sets) := by
  rw [addPreLoad]
  apply List.foldlRecOn (motive := fun s' => Inserts _ s s') _ _ .refl
  intro s' h call hcall
  exact h.insertBefore inst call ⟨rfl, hcall⟩

end State

namespace DependenceGraph

variable {N B F T : Type} [DecidableEq N] [Fintype B] [DecidableEq B] (G : DependenceGraph N B F T)

open State

/-- Calls of `preloadInstAddr` before one node. -/
def InstAddrAt (txStart : N) (at_ : Inst N) (call : RuntimeCall N) : Prop :=
  at_ = .node txStart ∧ ∃ name, call = .preloadInstAddr name

/-- The second state has names entered at a node, with their calls, and blocks marked. -/
inductive Preloads (txStart : N) (s : State N B T) : State N B T → Prop
  | refl : Preloads txStart s s
  | enter {s' : State N B T} (name : String) :
      Preloads txStart s s' → Preloads txStart s (s'.preloadInstAddr txStart name)
  | mark {s' : State N B T} (b : B) (id : Nat) :
      Preloads txStart s s' → Preloads txStart s (s'.setBlockSlice b id)

variable {G} {txStart : N} {s s' s'' : State N B T}

theorem Preloads.trans (h : Preloads txStart s s') (h' : Preloads txStart s' s'') :
    Preloads txStart s s'' := by
  induction h' with
  | refl => exact h
  | enter name _ ih => exact ih.enter name
  | mark b id _ ih => exact ih.mark b id

theorem Preloads.inserts (h : Preloads txStart s s') : Inserts (InstAddrAt txStart) s s' := by
  induction h with
  | refl => exact .refl
  | enter name _ ih => exact (ih.insertBefore _ _ ⟨rfl, name, rfl⟩).marks rfl rfl
  | mark b id _ ih => exact ih.marks rfl rfl

variable (G)

theorem preloads_preloadBB (code : B → List (Inst N)) (txStart : N) : ∀ (depth : Nat) (b : B)
    (s : State N B T), Preloads txStart s (G.preloadBB code txStart depth b s) := by
  intro depth
  induction depth with
  | zero => exact fun b s => .refl
  | succ depth ih =>
      intro b s
      rw [preloadBB]
      apply List.foldlRecOn (motive := fun s' => Preloads txStart s s') _ _ .refl
      intro s₁ h₁ inst _
      split
      · exact h₁
      · next name _ =>
          split
          · exact h₁
          · apply List.foldlRecOn (motive := fun s' => Preloads txStart s s') _ _ (h₁.enter name)
            exact fun s₂ h₂ c _ => h₂.trans (ih c s₂)

theorem preloads_preloadTransactionCode {start stop : B}
    (h : G.preloadTransactionCode start stop s = some s') :
    s' = s ∨ ∃ txStart, G.lastNode start = some txStart ∧ Preloads txStart s s' := by
  rw [preloadTransactionCode] at h
  split at h
  · cases h
  · split at h
    · exact Or.inl (Option.some.inj h).symm
    · obtain ⟨txStart, hlast, rfl⟩ := Option.map_eq_some_iff.1 h
      refine Or.inr ⟨txStart, hlast, ?_⟩
      have hname : Preloads txStart s (G.preloadOwnName start txStart s) := by
        rw [preloadOwnName]
        split
        · exact .refl
        · exact Preloads.refl.enter _
      apply List.foldlRecOn (motive := fun s' => Preloads txStart s s') _ _ (hname.mark start 777)
      intro s₁ h₁ cur _
      rw [preloadUnmarked]
      split
      · exact h₁
      · exact (h₁.mark cur 777).trans (G.preloads_preloadBB _ _ _ _ _)

end DependenceGraph

/-! ## Sites -/

/-- What a request comes to in the state it finds. -/
structure Site (N B : Type) where
  /-- The block in which the start and the preloads are inserted, and the instruction behind them. -/
  block : B
  inst : Inst N
  /-- The mark says that a start was inserted there before. -/
  marked : Bool
  /-- The block of the end and the node before which it is inserted, `PHI`s skipped. -/
  stop : Option (B × N)
  /-- The mark says that an end was inserted there before. -/
  stopMarked : Bool
  /-- The end block up to which the code is preloaded. -/
  opens : Option B
  /-- The mark says that the code was preloaded before. -/
  codeMarked : Bool
  deriving DecidableEq

namespace DependenceGraph

variable {N B F T : Type} [DecidableEq N] [Fintype B] [DecidableEq B] (G : DependenceGraph N B F T)

open State

/-- The site of `processHighestBr`. -/
def branchSite (bn : N) (sliceId : Nat) (s : State N B T) : Option (Site N B) :=
  (G.bblock bn).bind fun CD => (G.skipPhis (s.code CD) bn).map fun inst =>
    { block := CD
      inst := inst
      marked := !decide (s.slices.block CD ≠ sliceId ∧ s.slices.block CD ≠ 777)
      stop := G.endPlace CD (G.isBr inst)
      stopMarked := false
      opens := if G.isBr inst then (G.endPlace CD true).map Prod.fst else none
      codeMarked := decide (sliceId = 777) }

/-- The site of `placeTransForLoop`. -/
def loopSite (bn : N) (blks : Finset B) (sliceId : Nat) (s : State N B T) : Option (Site N B) :=
  ((G.bblock bn).bind G.idom).bind fun S => (G.lastNode S).map fun node =>
    { block := S
      inst := .node node
      marked := !decide (s.slices.node node ≠ 888)
      stop :=
        match G.outsideIPostDom blks (Fintype.card B + 1) S with
        | .block curB => (G.firstNode curB).map fun first => (curB, first)
        | _ => none
      stopMarked :=
        match G.outsideIPostDom blks (Fintype.card B + 1) S with
        | .block curB => decide (s.slices.block curB = sliceId)
        | _ => false
      opens :=
        match G.outsideIPostDom blks (Fintype.card B + 1) S with
        | .block curB => some curB
        | _ => none
      codeMarked := decide (s.slices.block S = 777) }

/-- The site of a request. -/
def siteOf (r : Request N B) (s : State N B T) : Option (Site N B) :=
  match r.placement with
  | .processHighestBr bn => G.branchSite bn r.sliceId s
  | .placeTransForLoop bn => G.loopSite bn r.blks r.sliceId s

/-- A start is inserted: the site is not marked, and there is something to preload. -/
def Starts (r : Request N B) (σ : Site N B) : Prop := σ.marked = false ∧ r.sets.isEmpty = false

/-- The block and the instruction before which the end is inserted. -/
def endInst (s : State N B T) (σ : Site N B) : Option (B × Inst N) :=
  if σ.stopMarked then none
  else
    σ.stop.bind fun p =>
      (G.skipPhis ((s.addTransactionStart σ.inst).code p.1) p.2).map fun j => (p.1, j)

/-- The second state is the first but for marks and ids. -/
structure SameCode (s s' : State N B T) : Prop where
  code : s'.code = s.code
  nextUid : s'.nextUid = s.nextUid
  funcs : s'.funcs = s.funcs

/-- What the state before the code is preloaded has to do with the state that a starting request
found: start and end are inserted, and no mark was changed that the preloading of code reads, but for
the mark of the start block itself. -/
structure Opened (s : State N B T) (σ : Site N B) (s₂ : State N B T) : Prop where
  same : SameCode
    (match G.endInst s σ with
      | none => s.addTransactionStart σ.inst
      | some (_, j) => (s.addTransactionStart σ.inst).insertBefore j .endTransaction) s₂
  startMark : ∀ stop, σ.opens = some stop → stop ≠ σ.block →
    (s₂.slices.block σ.block = 777 ↔ σ.codeMarked = true)
  marks : ∀ stop, σ.opens = some stop → ∀ b, b ≠ σ.block → b ≠ stop →
    s₂.slices.block b = s.slices.block b

/-- The state after the code is preloaded. -/
def CodePreloaded (σ : Site N B) (s₂ s₃ : State N B T) : Prop :=
  match σ.opens with
  | none => s₃ = s₂
  | some stop => G.preloadTransactionCode σ.block stop s₂ = some s₃

section Place

variable {G} {r : Request N B} {s s' : State N B T}

theorem mem_of_skipPhis {code : List (Inst N)} {n : N} {i : Inst N}
    (h : G.skipPhis code n = some i) : i ∈ code := by
  apply (List.dropWhile_sublist _).subset
  apply (List.dropWhile_sublist _).subset
  exact List.mem_of_mem_head? h

theorem of_placeAt {inst : Inst N} {marked : Bool} {mark : State N B T → State N B T}
    {addEnd : State N B T → Option (State N B T)} {sets : PreloadSets}
    (h : placeAt inst marked mark addEnd sets s = some s') :
    (marked = true ∧ s' = s.addPreLoad inst sets) ∨
    (marked = false ∧ sets.isEmpty = true ∧ s' = s) ∨
    (marked = false ∧ sets.isEmpty = false ∧
      ∃ s₃, addEnd ((mark s).addTransactionStart inst) = some s₃ ∧ s' = s₃.addPreLoad inst sets) := by
  rw [placeAt] at h
  split at h
  · next hmarked => exact Or.inl ⟨hmarked, (Option.some.inj h).symm⟩
  · next hmarked =>
      rw [Bool.not_eq_true] at hmarked
      split at h
      · next hempty => exact Or.inr (Or.inl ⟨hmarked, hempty, (Option.some.inj h).symm⟩)
      · next hempty =>
          rw [Bool.not_eq_true] at hempty
          obtain ⟨s₃, hs₃, rfl⟩ := Option.map_eq_some_iff.1 h
          exact Or.inr (Or.inr ⟨hmarked, hempty, s₃, hs₃, rfl⟩)

/-- What a branch placement does behind its start. -/
theorem of_addTransactionEnd {bn : N} {sliceId : Nat} {σ : Site N B} {s₃ : State N B T}
    (hσ : G.branchSite bn sliceId s = some σ)
    (h : G.addTransactionEnd σ.block (G.isBr σ.inst)
      ((s.setBlockSlice σ.block sliceId).addTransactionStart σ.inst) = some s₃) :
    ∃ s₂, G.Opened s σ s₂ ∧ G.CodePreloaded σ s₂ s₃ := by
  obtain ⟨CD, -, hinst⟩ := Option.bind_eq_some_iff.1 hσ
  obtain ⟨inst, -, rfl⟩ := Option.map_eq_some_iff.1 hinst
  simp only [addTransactionEnd] at h
  split at h
  · cases h
  · cases hplace : G.endPlace CD (G.isBr inst) with
    | none =>
        rw [hplace] at h
        obtain rfl := Option.some.inj h
        -- without a place for the end no code is preloaded, whichever the instruction is
        have hopens : (if G.isBr inst then (G.endPlace CD true).map Prod.fst else none) = none := by
          cases hbr : G.isBr inst with
          | true =>
              rw [hbr] at hplace
              simp [hplace]
          | false => rfl
        refine ⟨(s.setBlockSlice CD sliceId).addTransactionStart inst, ⟨?_, ?_, ?_⟩, ?_⟩
        · simp only [endInst, Option.bind_none, Bool.false_eq_true, if_false]
          exact ⟨rfl, rfl, rfl⟩
        · intro stop hstop
          simp [hopens] at hstop
        · intro stop hstop
          simp [hopens] at hstop
        · rw [CodePreloaded]
          simp only [hopens]
    | some p =>
        obtain ⟨S, first⟩ := p
        rw [hplace] at h
        obtain ⟨j, hj, h⟩ := Option.bind_eq_some_iff.1 h
        have hend : G.skipPhis ((s.addTransactionStart inst).code S) first = some j := hj
        refine ⟨((s.setBlockSlice CD sliceId).addTransactionStart inst).insertBefore j
          .endTransaction, ⟨?_, ?_, ?_⟩, ?_⟩
        · simp only [endInst, hend, Option.bind_some, Option.map_some, Bool.false_eq_true, if_false]
          exact ⟨rfl, rfl, rfl⟩
        · intro stop _ _
          simp [Slices.setBlock, State.setBlockSlice, State.addTransactionStart,
            State.insertBefore]
        · intro stop _ b hb _
          simp [Slices.setBlock, State.setBlockSlice, State.addTransactionStart,
            State.insertBefore, Function.update_of_ne hb]
        · rw [CodePreloaded]
          cases hbr : G.isBr inst with
          | true =>
              rw [hbr] at h hplace
              simpa [hplace] using h
          | false =>
              rw [hbr] at h
              simpa using h.symm

/-- What a loop placement does behind its start. -/
theorem of_addTransactionEndForLoop {bn : N} {blks : Finset B} {sliceId : Nat} {σ : Site N B}
    {node : N} {s₃ : State N B T} (hσ : G.loopSite bn blks sliceId s = some σ)
    (hnode : G.lastNode σ.block = some node)
    (h : G.addTransactionEndForLoop σ.block blks sliceId
      ((s.setNodeSlice node 888).addTransactionStart σ.inst) = some s₃) :
    ∃ s₂, G.Opened s σ s₂ ∧ G.CodePreloaded σ s₂ s₃ := by
  obtain ⟨S, -, hlast⟩ := Option.bind_eq_some_iff.1 hσ
  obtain ⟨node', hnode', rfl⟩ := Option.map_eq_some_iff.1 hlast
  obtain rfl : node' = node := Option.some.inj (hnode'.symm.trans hnode)
  simp only [addTransactionEndForLoop] at h
  -- the end is placed in the first postdominator outside the loop, unless that is marked already
  cases hout : G.outsideIPostDom blks (Fintype.card B + 1) S with
  | missing => simp [hout] at h
  | root => simp [hout] at h
  | block curB =>
      rw [hout] at h
      simp only at h
      split at h
      · next hmark =>
          have hmarked : s.slices.block curB = sliceId := hmark
          refine ⟨(s.setNodeSlice node' 888).addTransactionStart (.node node'), ⟨?_, ?_, ?_⟩, ?_⟩
          · simp only [endInst, hmarked, decide_true, if_true]
            exact ⟨rfl, rfl, rfl⟩
          · intro stop _ _
            simp [Slices.setNode, State.setNodeSlice, State.addTransactionStart,
              State.insertBefore]
          · exact fun _ _ _ _ _ => rfl
          · simpa [CodePreloaded, hout] using h
      · next hmark =>
          have hmarked : ¬ s.slices.block curB = sliceId := hmark
          obtain ⟨first, hfirst, h⟩ := Option.bind_eq_some_iff.1 h
          obtain ⟨j, hj, h⟩ := Option.bind_eq_some_iff.1 h
          have hend : G.skipPhis ((s.addTransactionStart (.node node')).code curB) first = some j :=
            hj
          refine ⟨(((s.setNodeSlice node' 888).addTransactionStart (.node node')).setBlockSlice curB
            sliceId).insertBefore j .endTransaction, ⟨?_, ?_, ?_⟩, ?_⟩
          · simp only [endInst, hmarked, hfirst, hend, Option.bind_some, Option.map_some, decide_false,
              Bool.false_eq_true, if_false]
            exact ⟨rfl, rfl, rfl⟩
          · intro stop hstop hne
            obtain rfl : curB = stop := by simpa [hout] using hstop
            simp [Slices.setNode, Slices.setBlock, State.setNodeSlice, State.setBlockSlice,
              State.addTransactionStart, State.insertBefore, Function.update_of_ne hne.symm]
          · intro stop hstop b _ hb
            obtain rfl : curB = stop := by simpa [hout] using hstop
            simp [Slices.setNode, Slices.setBlock, State.setNodeSlice, State.setBlockSlice,
              State.addTransactionStart, State.insertBefore, Function.update_of_ne hb]
          · simpa [CodePreloaded, hout] using h

/-- **What a placement does**: at a marked site it inserts the preloads; with nothing to preload it
does nothing; else it inserts the start, the end, the preloads of the code and the preloads. -/
theorem place_spec (h : G.place r s = some s') : ∃ σ, G.siteOf r s = some σ ∧
    ((σ.marked = true ∧ s' = s.addPreLoad σ.inst r.sets) ∨
      (σ.marked = false ∧ r.sets.isEmpty = true ∧ s' = s) ∨
      (Starts r σ ∧ ∃ s₂ s₃, G.Opened s σ s₂ ∧ G.CodePreloaded σ s₂ s₃ ∧
        s' = s₃.addPreLoad σ.inst r.sets)) := by
  rw [place] at h
  rw [siteOf]
  cases hp : r.placement with
  | processHighestBr bn =>
      rw [hp] at h
      obtain ⟨CD, hCD, h⟩ := Option.bind_eq_some_iff.1 h
      obtain ⟨inst, hinst, h⟩ := Option.bind_eq_some_iff.1 h
      have hσ : G.branchSite bn r.sliceId s = some _ :=
        Option.bind_eq_some_iff.2 ⟨CD, hCD, Option.map_eq_some_iff.2 ⟨inst, hinst, rfl⟩⟩
      refine ⟨_, hσ, ?_⟩
      rcases of_placeAt h with h | h | ⟨hmarked, hempty, s₃, hs₃, heq⟩
      · exact Or.inl h
      · exact Or.inr (Or.inl h)
      · obtain ⟨s₂, hopened, hcode⟩ := of_addTransactionEnd hσ hs₃
        exact Or.inr (Or.inr ⟨⟨hmarked, hempty⟩, s₂, s₃, hopened, hcode, heq⟩)
  | placeTransForLoop bn =>
      rw [hp] at h
      obtain ⟨S, hS, h⟩ := Option.bind_eq_some_iff.1 h
      obtain ⟨node, hnode, h⟩ := Option.bind_eq_some_iff.1 h
      have hσ : G.loopSite bn r.blks r.sliceId s = some _ :=
        Option.bind_eq_some_iff.2 ⟨S, hS, Option.map_eq_some_iff.2 ⟨node, hnode, rfl⟩⟩
      refine ⟨_, hσ, ?_⟩
      rcases of_placeAt h with h | h | ⟨hmarked, hempty, s₃, hs₃, heq⟩
      · exact Or.inl h
      · exact Or.inr (Or.inl h)
      · obtain ⟨s₂, hopened, hcode⟩ := of_addTransactionEndForLoop hσ hnode hs₃
        exact Or.inr (Or.inr ⟨⟨hmarked, hempty⟩, s₂, s₃, hopened, hcode, heq⟩)

end Place

/-! ## The program in the instrumented code -/

/-- The code is the program with calls inserted: each block keeps its own instructions, no
instruction stands at two places, and inserted calls have ids below the next one. -/
structure Intact (s : State N B T) : Prop where
  node_mem : ∀ b n, .node n ∈ s.code b ↔ n ∈ G.nodes b
  nodup : ∀ b, (s.code b).Nodup
  disjoint : ∀ b b' i, i ∈ s.code b → i ∈ s.code b' → b = b'
  fresh : ∀ b uid call, .inserted uid call ∈ s.code b → uid < s.nextUid

section Intact

variable {G} {s s' : State N B T}

theorem WellFormed.intact_source (hG : G.WellFormed) (slices : Slices N B) :
    G.Intact (G.source slices : State N B T) where
  node_mem b n := by simp [BlockGraph.source, BlockGraph.sourceCode]
  nodup b := (hG.nodup b).map fun _ _ h => Inst.node.inj h
  disjoint b b' i hi hi' := by
    obtain ⟨n, hn, rfl⟩ := List.mem_map.1 hi
    obtain ⟨n', hn', heq⟩ := List.mem_map.1 hi'
    obtain rfl := Inst.node.inj heq
    exact Option.some.inj (((hG.bblock n' b).2 hn).symm.trans ((hG.bblock n' b').2 hn'))
  fresh b uid call h := by
    obtain ⟨n, -, hn⟩ := List.mem_map.1 h
    cases hn

theorem Intact.of_code (h : G.Intact s) (hcode : s'.code = s.code)
    (huid : s'.nextUid = s.nextUid) : G.Intact s' where
  node_mem := by rw [hcode]; exact h.node_mem
  nodup := by rw [hcode]; exact h.nodup
  disjoint := by rw [hcode]; exact h.disjoint
  fresh := by rw [hcode, huid]; exact h.fresh

/-- Both kinds of insertion put a new call next to a place, in the block of that place. -/
theorem Intact.of_perm (h : G.Intact s) {at_ : Inst N} {call : RuntimeCall N}
    (huid : s'.nextUid = s.nextUid + 1) (hperm : ∀ b, (s'.code b).Perm
      (if at_ ∈ s.code b then .inserted s.nextUid call :: s.code b else s.code b)) :
    G.Intact s' := by
  have hnew : ∀ b, .inserted s.nextUid call ∉ s.code b :=
    fun b hmem => Nat.lt_irrefl _ (h.fresh b _ _ hmem)
  have hmem : ∀ b i, i ∈ s'.code b ↔ i ∈ s.code b ∨ (at_ ∈ s.code b ∧ i = .inserted s.nextUid call) := by
    intro b i
    rw [(hperm b).mem_iff]
    split
    · next hat => simp [hat, or_comm]
    · next hat => simp [hat]
  refine ⟨?_, ?_, ?_, ?_⟩
  · intro b n
    rw [hmem, ← h.node_mem]
    simp
  · intro b
    rw [(hperm b).nodup_iff]
    split
    · exact List.nodup_cons.2 ⟨hnew b, h.nodup b⟩
    · exact h.nodup b
  · intro b b' i hi hi'
    -- a new call is in one block only, the one of the place
    rcases (hmem b i).1 hi with hi | ⟨hat, rfl⟩
    · rcases (hmem b' i).1 hi' with hi' | ⟨-, rfl⟩
      · exact h.disjoint b b' i hi hi'
      · exact absurd hi (hnew b)
    · rcases (hmem b' _).1 hi' with hi' | ⟨hat', -⟩
      · exact absurd hi' (hnew b')
      · exact h.disjoint b b' at_ hat hat'
  · intro b uid c hc
    rw [huid]
    rcases (hmem b _).1 hc with hc | ⟨-, heq⟩
    · exact Nat.lt_succ_of_lt (h.fresh b uid c hc)
    · cases heq
      exact Nat.lt_succ_self _

theorem Intact.insertBefore (h : G.Intact s) (at_ : Inst N) (call : RuntimeCall N) :
    G.Intact (s.insertBefore at_ call) :=
  h.of_perm rfl fun b => Inst.perm_insertBefore at_ _ (s.code b)

theorem Intact.insertAfter (h : G.Intact s) (at_ : Inst N) (call : RuntimeCall N) :
    G.Intact (s.insertAfter at_ call) :=
  h.of_perm rfl fun b => Inst.perm_insertAfter at_ _ (s.code b)

theorem Intact.inserts (h : G.Intact s) {P : Inst N → RuntimeCall N → Prop}
    (hs : Inserts P s s') : G.Intact s' := by
  induction hs with
  | refl => exact h
  | insertBefore at_ call _ _ ih => exact ih.insertBefore at_ call
  | marks _ hcode huid ih => exact ih.of_code hcode huid

/-- Behind the start at most the end is inserted. -/
theorem Opened.inserts_start {σ : Site N B} {s₂ : State N B T} (h : G.Opened s σ s₂) :
    Inserts (fun _ _ => True) (s.addTransactionStart σ.inst) s₂ := by
  have hsame := h.same
  cases hend : G.endInst s σ with
  | none =>
      rw [hend] at hsame
      exact Inserts.refl.marks hsame.code hsame.nextUid
  | some p =>
      rw [hend] at hsame
      exact (Inserts.refl.insertBefore p.2 .endTransaction trivial).marks hsame.code hsame.nextUid

theorem Opened.inserts {σ : Site N B} {s₂ : State N B T} (h : G.Opened s σ s₂) :
    Inserts (fun _ _ => True) s s₂ :=
  (Inserts.refl.insertBefore σ.inst .startTransaction trivial).trans h.inserts_start

theorem Opened.funcs_eq {σ : Site N B} {s₂ : State N B T} (h : G.Opened s σ s₂) :
    s₂.funcs = s.funcs := by
  have hsame := h.same.funcs
  cases hend : G.endInst s σ with
  | none =>
      rw [hend] at hsame
      exact hsame
  | some p =>
      rw [hend] at hsame
      exact hsame

theorem CodePreloaded.inserts {σ : Site N B} {s₂ s₃ : State N B T}
    (h : G.CodePreloaded σ s₂ s₃) : Inserts (fun at_ call => ∃ txStart,
      G.lastNode σ.block = some txStart ∧ InstAddrAt txStart at_ call) s₂ s₃ := by
  rw [CodePreloaded] at h
  cases hopens : σ.opens with
  | none =>
      rw [hopens] at h
      rw [h]
      exact .refl
  | some stop =>
      rw [hopens] at h
      rcases G.preloads_preloadTransactionCode h with rfl | ⟨txStart, hlast, hpreloads⟩
      · exact .refl
      · exact hpreloads.inserts.mono fun _ _ hat => ⟨txStart, hlast, hat⟩

/-- A placement inserts calls and changes marks. -/
theorem inserts_place {r : Request N B} (h : G.place r s = some s') :
    Inserts (fun _ _ => True) s s' := by
  have hpreload (s : State N B T) (inst : Inst N) :
      Inserts (fun _ _ => True) s (s.addPreLoad inst r.sets) :=
    (inserts_addPreLoad s inst r.sets).mono fun _ _ _ => trivial
  obtain ⟨σ, -, ⟨-, rfl⟩ | ⟨-, -, rfl⟩ | ⟨-, s₂, s₃, hopened, hcode, rfl⟩⟩ := place_spec h
  · exact hpreload s σ.inst
  · exact .refl
  · apply (hopened.inserts.trans _).trans (hpreload s₃ σ.inst)
    exact hcode.inserts.mono fun _ _ _ => trivial

theorem Runs.intact (hG : G.WellFormed)
    {ok : List (Request N B × State N B T) → State N B T → Request N B → Prop}
    {h : List (Request N B × State N B T)} (hruns : G.Runs ok h s) : G.Intact s := by
  induction hruns with
  | source slices => exact hG.intact_source slices
  | place r _ _ hplace ih => exact ih.inserts (inserts_place hplace)
  | insertBefore at_ call _ _ ih => exact ih.insertBefore at_ call
  | insertAfter at_ call _ _ ih => exact ih.insertAfter at_ call
  | bookkeeping slices bufferId allocId _ ih => exact ih.of_code rfl rfl

end Intact

end DependenceGraph

end Cape.Slicing
