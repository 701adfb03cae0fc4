import Cape.Library.Avoidance
import Cape.Library.DepthFirst
import Cape.Library.FinLiterals
import Cape.Slicing.PlacementSteps

/-!
# Preloading the code of a transaction

Behind a start, `preloadInstAddr` is to be called for every function that the blocks up to the end
can call. `preloadTransactionCode` scans the blocks between start and end for calls, and the called
functions in turn, but passes over blocks marked 777 and over names entered before.

`mem_funcs_preloadTransactionCode` says which names a scan enters. `codePreloaded_of_runs`: in a run
in which each placement finds what it needs in this way (`FindsNeeded`), every transaction has its code
preloaded, whatever is placed later. `OverlappingRegions` has a run in which the mark of an inner
region hides a function from the outer one.
-/

set_option autoImplicit false
set_option linter.unusedSectionVars false

namespace Cape.Slicing

open Cape.Library

namespace DependenceGraph

variable {N B F T : Type} [DecidableEq N] [Fintype B] [DecidableEq B] (G : DependenceGraph N B F T)

/-! ## What is to be preloaded -/

/-- A block of the program calls a function directly. -/
def Calls (b : B) (f : String) : Prop := ∃ n ∈ G.nodes b, G.key n = .instruction (.call (some f))

/-- A function is called from a block, directly or through functions that are. -/
inductive CalledFrom (b : B) : String → Prop
  | direct {f : String} : G.Calls b f → CalledFrom b f
  | through {f g : String} {c : B} :
      CalledFrom b g → c ∈ G.functionBlocks g → G.Calls c f → CalledFrom b f

/-- A block on a path strictly between the start block and the end block. -/
def Between (start stop c : B) : Prop :=
  c ≠ start ∧ (∃ π, Walk G.Flow start π c ∧ stop ∉ π) ∧ Relation.ReflTransGen G.Flow c stop

/-- A defined function that a block strictly between calls. -/
def Needed (start stop : B) (f : String) : Prop :=
  G.functionBlocks f ≠ [] ∧ ∃ c, G.Between start stop c ∧ G.CalledFrom c f

/-- The function is preloaded behind a start in the start block. -/
def PreloadedAt (s : State N B T) (start : B) (f : String) : Prop :=
  ∃ u v, [Inst.inserted u .startTransaction, .inserted v (.preloadInstAddr f)].Sublist (s.code start)

/-- The code of every transaction that a request of the history opened is preloaded. -/
def CodePreloadedAll (h : List (Request N B × State N B T)) (s : State N B T) : Prop :=
  ∀ p ∈ h, ∀ σ stop, G.siteOf p.1 p.2 = some σ → Starts p.1 σ → σ.opens = some stop →
    ∀ f, G.Needed σ.block stop f → PreloadedAt s σ.block f

/-! ## What a scan finds -/

/-- The names of the functions that the code of a block calls, debug intrinsics left out. -/
def calls (code : B → List (Inst N)) (b : B) : List String :=
  ((code b).filterMap G.calledFunction).filter fun f => !contains f "llvm.dbg."

/-- The names that the code of a function calls. -/
def callees (code : B → List (Inst N)) (f : String) : List String :=
  (G.functionBlocks f).flatMap (G.calls code)

/-- The names that a scan passes over: those entered before, and the function's own. -/
def known (start : B) (txStart : N) (s : State N B T) : List String :=
  if contains (G.functionName start) "llvm.dbg." then s.funcs txStart
  else G.functionName start :: s.funcs txStart

/-- The scan comes to a block: it lies behind the start on a path that avoids the end, and no
placement marked it before. -/
def Scanned (s : State N B T) (start stop c : B) : Prop :=
  c ≠ start ∧ (∃ π, Walk G.Flow start π c ∧ stop ∉ π) ∧ s.slices.block c ≠ 777

/-- A chain of calls leads from a scanned block to the function, through names not known before. -/
def FoundByScan (s : State N B T) (start stop : B) (txStart : N) (f : String) : Prop :=
  ∃ c g, G.Scanned s start stop c ∧ g ∈ G.calls s.code c ∧ g ∉ G.known start txStart s ∧
    Relation.ReflTransGen (Unseen (G.callees s.code) (G.known start txStart s)) g f

/-- What a placement needs is preloaded at its start block before, or found: it is the function
itself, or found by the scan. -/
def FindsNeeded (s : State N B T) (r : Request N B) : Prop :=
  ∀ σ stop, G.siteOf r s = some σ → Starts r σ → σ.opens = some stop → ∀ txStart,
    G.lastNode σ.block = some txStart → ∀ f, G.Needed σ.block stop f →
      PreloadedAt s σ.block f ∨
        (σ.codeMarked = false ∧ ((f = G.functionName σ.block ∧ s.skips txStart f = false) ∨
          G.FoundByScan s σ.block stop txStart f))

/-! ## The scan is a depth-first search -/

section Scan

variable {G} {code : B → List (Inst N)} {txStart : N} {s s' : State N B T}

theorem funcs_foldl_preloadBB {depth : Nat}
    (ih : ∀ (b : B) (s : State N B T), (G.preloadBB code txStart depth b s).funcs txStart =
      dfs (G.callees code) depth (G.calls code b) (s.funcs txStart)) (bs : List B) :
    ∀ s : State N B T,
      (bs.foldl (fun s b => G.preloadBB code txStart depth b s) s).funcs txStart =
        dfs (G.callees code) depth (bs.flatMap (G.calls code)) (s.funcs txStart) := by
  induction bs with
  | nil =>
      intro s
      rw [List.flatMap_nil, dfs_nil]
      rfl
  | cons b bs ihbs =>
      intro s
      rw [List.foldl_cons, ihbs, List.flatMap_cons, dfs_append, ih]

/-- The names that `preloadBB` enters. -/
theorem funcs_preloadBB : ∀ (depth : Nat) (b : B) (s : State N B T),
    (G.preloadBB code txStart depth b s).funcs txStart =
      dfs (G.callees code) depth (G.calls code b) (s.funcs txStart) := by
  intro depth
  induction depth with
  | zero => exact fun b s => rfl
  | succ depth ih =>
      intro b s
      rw [preloadBB, calls]
      generalize code b = l
      induction l generalizing s with
      | nil => rfl
      | cons inst l ihl =>
          rw [List.foldl_cons, ihl]
          cases hcalled : G.calledFunction inst with
          | none => simp [hcalled]
          | some name =>
              rw [List.filterMap_cons_some hcalled]
              cases hdbg : contains name "llvm.dbg." with
              | true => simp [State.skips, hdbg]
              | false =>
                  rw [List.filter_cons_of_pos (by simp [hdbg]), dfs_cons]
                  congr 1
                  simp only [State.skips, hdbg, Bool.false_or, decide_eq_true_eq]
                  split
                  · rfl
                  · rw [funcs_foldl_preloadBB ih]
                    simp [State.preloadInstAddr, callees]

theorem slices_preloadBB : ∀ (depth : Nat) (b : B) (s : State N B T),
    (G.preloadBB code txStart depth b s).slices = s.slices := by
  intro depth
  induction depth with
  | zero => exact fun b s => rfl
  | succ depth ih =>
      intro b s
      rw [preloadBB]
      apply List.foldlRecOn (motive := fun s' : State N B T => s'.slices = s.slices) _ _ rfl
      intro s₁ h₁ inst _
      split
      · exact h₁
      · split
        · exact h₁
        · apply List.foldlRecOn (motive := fun s' : State N B T => s'.slices = s.slices) _ _
            (show (State.preloadInstAddr s₁ txStart _).slices = s.slices from h₁)
          exact fun s₂ h₂ c _ => (ih c s₂).trans h₂

/-- The unmarked blocks of a list, each at its first place. -/
def unmarked (marks : B → Nat) : List B → List B
  | [] => []
  | c :: l =>
      if marks c = 777 then unmarked marks l
      else c :: unmarked (Function.update marks c 777) l

theorem unmarked_cons (marks : B → Nat) (c : B) (l : List B) : unmarked marks (c :: l) =
    if marks c = 777 then unmarked marks l else c :: unmarked (Function.update marks c 777) l := rfl

theorem mem_unmarked (l : List B) :
    ∀ (marks : B → Nat) (c : B), c ∈ unmarked marks l ↔ c ∈ l ∧ marks c ≠ 777 := by
  induction l with
  | nil => simp [unmarked]
  | cons b l ih =>
      intro marks c
      rw [unmarked_cons]
      split
      · next hmark =>
          rw [ih, List.mem_cons]
          constructor
          · exact fun h => ⟨Or.inr h.1, h.2⟩
          · rintro ⟨rfl | hmem, hne⟩
            · exact absurd hmark hne
            · exact ⟨hmem, hne⟩
      · next hmark =>
          rw [List.mem_cons, ih, List.mem_cons]
          by_cases hcb : c = b
          · subst hcb
            simp [hmark]
          · simp [hcb]

/-- The names that the loop over the region enters. -/
theorem funcs_foldl_preloadUnmarked (l : List B) : ∀ s : State N B T,
    (l.foldl (G.preloadUnmarked code txStart) s).funcs txStart =
      dfs (G.callees code) (Fintype.card B + 1)
        ((unmarked s.slices.block l).flatMap (G.calls code)) (s.funcs txStart) := by
  induction l with
  | nil =>
      intro s
      rw [unmarked, List.flatMap_nil, dfs_nil]
      rfl
  | cons c l ih =>
      intro s
      rw [List.foldl_cons, ih, unmarked_cons]
      rw [preloadUnmarked]
      split
      · rfl
      · rw [List.flatMap_cons, dfs_append, preloadBlockCode, slices_preloadBB, funcs_preloadBB]
        rfl

/-- Only functions with a block have callees, and there are no more of them than blocks. -/
theorem WellFormed.callees_expand (hG : G.WellFormed) (f : String) (hf : G.callees code f ≠ []) :
    f ∈ Finset.univ.image G.functionName := by
  obtain ⟨g, hg⟩ := List.exists_mem_of_ne_nil _ hf
  obtain ⟨b, hb, -⟩ := List.mem_flatMap.1 hg
  exact Finset.mem_image.2 ⟨b, Finset.mem_univ b, hG.functionBlocks f b hb⟩

theorem card_expand (seen : List String) :
    ((Finset.univ.image G.functionName).filter (· ∉ seen)).card < Fintype.card B + 1 := by
  have hfilter := Finset.card_filter_le (Finset.univ.image G.functionName) (· ∉ seen)
  have himage : (Finset.univ.image G.functionName).card ≤ Fintype.card B := Finset.card_image_le
  omega

theorem mem_region {start stop : B} (hne : start ≠ stop) (c : B) :
    c ∈ G.region start stop ↔ ∃ π, Walk G.Flow start π c ∧ stop ∉ π := by
  rw [region]
  rw [mem_order_around G.successors .queue (by simpa using hne)]
  simp only [Finset.mem_singleton]
  constructor
  · rintro ⟨π, hπ, hnot⟩
    exact ⟨π, hπ, fun hmem => hnot stop hmem rfl⟩
  · rintro ⟨π, hπ, hnot⟩
    exact ⟨π, hπ, fun y hy heq => hnot (heq ▸ hy)⟩

/-- **The names that `preloadTransactionCode` enters**: the function's own, and those that a chain
of calls from an unmarked block leads to, through names not known before. -/
theorem mem_funcs_preloadTransactionCode (hG : G.WellFormed) {start stop : B}
    (h : G.preloadTransactionCode start stop s = some s') (hmark : s.slices.block start ≠ 777)
    (hlast : G.lastNode start = some txStart) (f : String) :
    f ∈ s'.funcs txStart ↔
      f ∈ G.known start txStart s ∨ G.FoundByScan s start stop txStart f := by
  rw [preloadTransactionCode] at h
  split at h
  · cases h
  · next hne =>
      obtain ⟨tx, htx, rfl⟩ := Option.map_eq_some_iff.1 h
      obtain rfl : tx = txStart := Option.some.inj (htx.symm.trans hlast)
      rw [funcs_foldl_preloadUnmarked, mem_dfs hG.callees_expand (card_expand _)]
      -- the search starts from the names that are known after the function's own
      have hknown : ∀ g, g ∈ (G.preloadOwnName start tx s).funcs tx ↔ g ∈ G.known start tx s := by
        intro g
        rw [preloadOwnName, known, State.skips]
        cases hdbg : contains (G.functionName start) "llvm.dbg." with
        | true => simp
        | false =>
            simp only [Bool.false_or, decide_eq_true_eq, Bool.false_eq_true, if_false]
            split
            · next hmem =>
                rw [List.mem_cons]
                constructor
                · exact Or.inr
                · rintro (rfl | hg)
                  · exact hmem
                  · exact hg
            · simp [State.preloadInstAddr]
      have hunseen : Unseen (G.callees s.code) ((G.preloadOwnName start tx s).funcs tx) =
          Unseen (G.callees s.code) (G.known start tx s) := by
        funext a b
        simp only [Unseen, hknown]
      -- marking the start takes no other block out of the region
      have hmarks : ∀ c, ((G.preloadOwnName start tx s).setBlockSlice start 777).slices.block c ≠
          777 ↔ c ≠ start ∧ s.slices.block c ≠ 777 := by
        intro c
        have hslices : (G.preloadOwnName start tx s).slices = s.slices := by
          rw [preloadOwnName]
          split
          · rfl
          · rfl
        rw [State.setBlockSlice, Slices.setBlock]
        simp only [hslices]
        by_cases hc : c = start
        · subst hc
          simp
        · simp [hc]
      have hfuncs : ((G.preloadOwnName start tx s).setBlockSlice start 777).funcs =
          (G.preloadOwnName start tx s).funcs := rfl
      rw [hfuncs, hunseen, hknown]
      apply or_congr Iff.rfl
      simp only [hknown]
      constructor
      · rintro ⟨g, hg, hnot, hreach⟩
        obtain ⟨c, hc, hg⟩ := List.mem_flatMap.1 hg
        rw [mem_unmarked, hmarks, mem_region hne] at hc
        exact ⟨c, g, ⟨hc.2.1, hc.1, hc.2.2⟩, hg, hnot, hreach⟩
      · rintro ⟨c, g, ⟨hcs, hwalk, hmarked⟩, hg, hnot, hreach⟩
        refine ⟨g, List.mem_flatMap.2 ⟨c, ?_, hg⟩, hnot, hreach⟩
        rw [mem_unmarked, hmarks, mem_region hne]
        exact ⟨hwalk, hcs, hmarked⟩

end Scan

/-! ## One placement -/

section Place

variable {G} {s s' : State N B T}

/-- A call inserted before a node stands behind what stood before the node. -/
theorem pair_insertBefore {a at_ i : Inst N} {l : List (Inst N)} (hnodup : l.Nodup)
    (h : [a, at_].Sublist l) : [a, i].Sublist (Inst.insertBefore at_ i l) := by
  obtain ⟨pre, post, rfl, hpre⟩ := List.eq_append_cons_of_mem (h.subset (by simp : at_ ∈ [a, at_]))
  rw [Inst.insertBefore_split i hpre]
  have hpost : at_ ∉ post := (List.nodup_cons.1 (List.nodup_append.1 hnodup).2.1).1
  obtain ⟨l₁, l₂, heq, hl₁, hl₂⟩ := List.sublist_append_iff.1 h
  cases l₁ with
  | nil =>
      -- both behind the first part: the place stands there once
      rw [List.nil_append] at heq
      subst heq
      cases hl₂ with
      | cons _ hsub => exact absurd (hsub.subset (by simp)) hpost
      | cons_cons _ hsub => exact absurd (hsub.subset (by simp)) hpost
  | cons x l₁ =>
      obtain ⟨rfl, -⟩ := List.cons.inj heq
      have hx : a ∈ pre := hl₁.subset List.mem_cons_self
      exact (List.singleton_sublist.2 hx).append
        ((List.singleton_sublist.2 List.mem_cons_self))

/-- A start inserted before an instruction stands before it. -/
theorem pair_start {at_ i : Inst N} {l : List (Inst N)} (h : at_ ∈ l) :
    [i, at_].Sublist (Inst.insertBefore at_ i l) := by
  obtain ⟨pre, post, rfl, hpre⟩ := List.eq_append_cons_of_mem h
  rw [Inst.insertBefore_split i hpre]
  exact List.Sublist.trans (((List.nil_sublist post).cons_cons at_).cons_cons i)
    (List.sublist_append_right _ _)

/-- A name that is entered anew has its call inserted behind the start. -/
theorem Preloads.exists_call {txStart : N} (h : Preloads txStart s s') (hs : G.Intact s) {b : B}
    {a : Inst N} (hpair : [a, .node txStart].Sublist (s.code b)) {f : String}
    (hf : f ∈ s'.funcs txStart) (hnew : f ∉ s.funcs txStart) :
    ∃ v, [a, .inserted v (.preloadInstAddr f)].Sublist (s'.code b) := by
  induction h with
  | refl => exact absurd hf hnew
  | @enter s₁ name h₁ ih =>
      have hnodup := (hs.inserts h₁.inserts).nodup b
      have hpair₁ := hpair.trans (h₁.inserts.sublist b)
      have hmem : f = name ∨ f ∈ s₁.funcs txStart := by
        simpa [State.preloadInstAddr] using hf
      rcases hmem with rfl | hmem
      · exact ⟨_, pair_insertBefore hnodup hpair₁⟩
      · obtain ⟨v, hv⟩ := ih hmem
        exact ⟨v, hv.trans (Inst.sublist_insertBefore _ _ _)⟩
  | mark b' id _ ih => exact ih hf

/-- A transaction with a region starts at the last node of its block. -/
theorem exists_txStart (hG : G.WellFormed) (hs : G.Intact s) {r : Request N B} {σ : Site N B}
    {stop : B} (hσ : G.siteOf r s = some σ) (hopens : σ.opens = some stop) :
    ∃ txStart, G.lastNode σ.block = some txStart ∧ σ.inst = .node txStart := by
  unfold siteOf at hσ
  split at hσ
  · obtain ⟨CD, hCD, hmap⟩ := Option.bind_eq_some_iff.1 hσ
    obtain ⟨inst, hinst, rfl⟩ := Option.map_eq_some_iff.1 hmap
    simp only at hopens
    split at hopens
    · next hbr =>
        cases inst with
        | inserted uid call => cases hbr
        | node n =>
            have hmem := (hs.node_mem CD n).1 (mem_of_skipPhis hinst)
            exact ⟨n, hG.br_last n CD hmem hbr, rfl⟩
    · cases hopens
  · obtain ⟨S, -, hmap⟩ := Option.bind_eq_some_iff.1 hσ
    obtain ⟨node, hnode, rfl⟩ := Option.map_eq_some_iff.1 hmap
    exact ⟨node, hnode, rfl⟩

theorem FoundByScan.of_opened {σ : Site N B} {s₂ : State N B T} (hopened : G.Opened s σ s₂)
    {stop : B} (hopens : σ.opens = some stop) {txStart : N} {f : String}
    (h : G.FoundByScan s σ.block stop txStart f) : G.FoundByScan s₂ σ.block stop txStart f := by
  obtain ⟨c, g, ⟨hc, ⟨π, hπ, hstop⟩, hmark⟩, hg, hnot, hreach⟩ := h
  have hcalls : ∀ b, G.calls s.code b ⊆ G.calls s₂.code b := by
    intro b
    have hsub := hopened.inserts.sublist b
    exact ((hsub.filterMap _).filter _).subset
  have hknown : G.known σ.block txStart s₂ = G.known σ.block txStart s := by
    unfold known
    rw [hopened.funcs_eq]
  refine ⟨c, g, ⟨hc, ⟨π, hπ, hstop⟩, ?_⟩, hcalls c hg, ?_, ?_⟩
  · rw [hopened.marks stop hopens c hc fun heq => hstop (heq ▸ hπ.end_mem)]
    exact hmark
  · rw [hknown]
    exact hnot
  · rw [hknown]
    refine Relation.ReflTransGen.mono (fun a b hab => ?_) _ _ hreach
    obtain ⟨hb, hnew⟩ := hab
    obtain ⟨d, hd, hb⟩ := List.mem_flatMap.1 hb
    exact ⟨List.mem_flatMap.2 ⟨d, hd, hcalls d hb⟩, hnew⟩

theorem FoundByScan.not_known {start stop : B} {txStart : N} {f : String}
    (h : G.FoundByScan s start stop txStart f) : f ∉ G.known start txStart s := by
  obtain ⟨c, g, -, -, hnot, hreach⟩ := h
  cases hreach with
  | refl => exact hnot
  | tail _ hstep => exact hstep.2

theorem subset_known (start : B) (txStart : N) (s : State N B T) :
    s.funcs txStart ⊆ G.known start txStart s := by
  rw [known]
  split
  · exact List.Subset.refl _
  · exact List.subset_cons_self _ _

theorem mem_known_of_not_skips {start : B} {txStart : N}
    (h : s.skips txStart (G.functionName start) = false) :
    G.functionName start ∈ G.known start txStart s ∧ G.functionName start ∉ s.funcs txStart := by
  rw [State.skips] at h
  rw [Bool.or_eq_false_iff, decide_eq_false_iff_not] at h
  rw [known]
  rw [h.1, if_neg Bool.false_ne_true]
  exact ⟨List.mem_cons_self, h.2⟩

/-- A placement preloads what it needs if it finds it. -/
theorem preloadedAt_of_place (hG : G.WellFormed) (hs : G.Intact s) {r : Request N B}
    (h : G.place r s = some s') (hfinds : G.FindsNeeded s r) {σ : Site N B} {stop : B}
    (hσ : G.siteOf r s = some σ) (hstarts : Starts r σ) (hopens : σ.opens = some stop) {f : String}
    (hneeded : G.Needed σ.block stop f) : PreloadedAt s' σ.block f := by
  obtain ⟨txStart, hlast, hinst⟩ := exists_txStart hG hs hσ hopens
  rcases hfinds σ stop hσ hstarts hopens txStart hlast f hneeded with hold | ⟨hmark, hfound⟩
  · obtain ⟨u, v, hpair⟩ := hold
    exact ⟨u, v, hpair.trans ((inserts_place h).sublist _)⟩
  · obtain ⟨σ', hσ', hcases⟩ := place_spec h
    obtain rfl : σ = σ' := Option.some.inj (hσ.symm.trans hσ')
    rcases hcases with ⟨hmarked, -⟩ | ⟨-, hempty, -⟩ | ⟨-, s₂, s₃, hopened, hcode, rfl⟩
    · rw [hstarts.1] at hmarked
      cases hmarked
    · rw [hstarts.2] at hempty
      cases hempty
    · rw [CodePreloaded] at hcode
      rw [hopens] at hcode
      have hne : stop ≠ σ.block := by
        rintro rfl
        simp [preloadTransactionCode] at hcode
      have hunmarked : s₂.slices.block σ.block ≠ 777 := by
        rw [Ne, hopened.startMark stop hopens hne, hmark]
        exact Bool.false_ne_true
      have hfuncs := hopened.funcs_eq
      -- the name is entered by this placement, so its preload is inserted by it too
      have hentered : f ∈ s₃.funcs txStart ∧ f ∉ s₂.funcs txStart := by
        rw [mem_funcs_preloadTransactionCode hG hcode hunmarked hlast]
        rcases hfound with ⟨rfl, hskip⟩ | hscan
        · have hskip₂ : s₂.skips txStart (G.functionName σ.block) = false := by
            unfold State.skips at hskip ⊢
            rwa [hfuncs]
          obtain ⟨hmem, hnot⟩ := mem_known_of_not_skips hskip₂
          exact ⟨Or.inl hmem, hnot⟩
        · have hscan₂ := hscan.of_opened hopened hopens
          exact ⟨Or.inr hscan₂, fun hmem => hscan₂.not_known (subset_known _ _ _ hmem)⟩
      have hnode : Inst.node txStart ∈ s.code σ.block :=
        (hs.node_mem σ.block txStart).2 (List.mem_of_mem_getLast? hlast)
      have hpair : [.inserted s.nextUid .startTransaction, .node txStart].Sublist
          (s₂.code σ.block) := by
        apply List.Sublist.trans _ (hopened.inserts_start.sublist σ.block)
        rw [hinst]
        exact pair_start hnode
      rcases G.preloads_preloadTransactionCode hcode with heq | ⟨tx, htx, hpreloads⟩
      · rw [heq] at hentered
        exact absurd hentered.1 hentered.2
      · obtain rfl : tx = txStart := Option.some.inj (htx.symm.trans hlast)
        obtain ⟨v, hv⟩ := hpreloads.exists_call (hs.inserts hopened.inserts) hpair hentered.1
          hentered.2
        exact ⟨s.nextUid, v, hv.trans ((State.inserts_addPreLoad _ _ _).sublist _)⟩

/-! ## Runs -/

theorem PreloadedAt.of_sublist {start : B} {f : String} (h : PreloadedAt s start f)
    (hsub : ∀ b, (s.code b).Sublist (s'.code b)) : PreloadedAt s' start f := by
  obtain ⟨u, v, hpair⟩ := h
  exact ⟨u, v, hpair.trans (hsub start)⟩

theorem CodePreloadedAll.of_sublist {h : List (Request N B × State N B T)}
    (hall : G.CodePreloadedAll h s) (hsub : ∀ b, (s.code b).Sublist (s'.code b)) :
    G.CodePreloadedAll h s' :=
  fun p hp σ stop hσ hstarts hopens f hf =>
    (hall p hp σ stop hσ hstarts hopens f hf).of_sublist hsub

end Place

end DependenceGraph

/-! ## Overlapping regions -/

namespace OverlappingRegions

/-- `main` branches in block 0 to 1 and 3, and in block 1 to 2 and 3. Block 2 calls `f`, which is
block 4. -/
def graph : DependenceGraph (Fin 6) (Fin 5) Unit Unit where
  key
    | 0 => .instruction (.br true)
    | 1 => .instruction (.br true)
    | 2 => .instruction (.call (some "f"))
    | 3 => .instruction (.br false)
    | 4 => .instruction .ret
    | 5 => .instruction .ret
  nodes
    | 0 => [0]
    | 1 => [1]
    | 2 => [2, 3]
    | 3 => [4]
    | 4 => [5]
  successors
    | 0 => [1, 3]
    | 1 => [2, 3]
    | 2 => [3]
    | _ => []
  predecessors
    | 1 => [0]
    | 2 => [1]
    | 3 => [0, 1, 2]
    | _ => []
  idom
    | 1 => some 0
    | 2 => some 1
    | 3 => some 0
    | _ => none
  ipostdom
    | 0 => .block 3
    | 1 => .block 3
    | 2 => .block 3
    | _ => .root
  functionName b := if b = 4 then "f" else "main"
  functionBlocks f := if f = "main" then [0, 1, 2, 3] else if f = "f" then [4] else []
  bblock
    | 0 => some 0
    | 1 => some 1
    | 2 => some 2
    | 3 => some 2
    | 4 => some 3
    | 5 => some 4
  dg _ := some ()
  entry _ := none
  getNode _ n := some n
  control _ := []
  revControl _ := []
  data _ := []
  revData _ := []
  use _ := []
  user _ := []
  interference _ := []
  controlDependence _ := []
  revControlDependence _ := []
  userData _ := .null
  pointsTo _ _ := []

/-- A transaction for the branch `bn`. -/
def request (bn : Fin 6) : Request (Fin 6) (Fin 5) where
  placement := .processHighestBr bn
  blks := ∅
  sliceId := 5
  sets := ⟨[1], [], []⟩
  accesses := []

def source : State (Fin 6) (Fin 5) Unit := graph.source ⟨fun _ => 1, fun _ => 1⟩

/-- Behind the placement for a branch. -/
def after (bn : Fin 6) (s : State (Fin 6) (Fin 5) Unit) : State (Fin 6) (Fin 5) Unit :=
  (graph.place (request bn) s).getD s

theorem place_eq (bn : Fin 6) (s : State (Fin 6) (Fin 5) Unit)
    (h : (graph.place (request bn) s).isSome = true) :
    graph.place (request bn) s = some (after bn s) := by
  obtain ⟨s', hs'⟩ := Option.isSome_iff_exists.1 h
  rw [after, hs', Option.getD_some]

theorem between : graph.Between 0 3 2 := by
  refine ⟨by decide, ⟨[0, 1, 2], ?_, by decide⟩, .single (by decide : (3 : Fin 5) ∈ [3])⟩
  exact .cons (by decide : (1 : Fin 5) ∈ [1, 3])
    (.cons (by decide : (2 : Fin 5) ∈ [2, 3]) (.single 2))

/-- The site of the outer branch. -/
def outer : Site (Fin 6) (Fin 5) := ⟨0, .node 0, false, some (3, 4), false, some 3, false⟩

theorem calls_eq {b : Fin 5} {f : String} (h : graph.Calls b f) : b = 2 ∧ f = "f" := by
  obtain ⟨n, hn, hkey⟩ := h
  have hcall : ∀ (b : Fin 5) (n : Fin 6), n ∈ graph.nodes b →
      ∀ callee, graph.key n = .instruction (.call callee) → b = 2 ∧ callee = some "f" := by
    intro b n hn callee hkey
    fin_cases b <;> fin_cases hn <;> cases hkey
    exact ⟨rfl, rfl⟩
  obtain ⟨hb, hf⟩ := hcall b n hn _ hkey
  exact ⟨hb, Option.some.inj hf⟩

theorem calledFrom_eq {b : Fin 5} {f : String} (h : graph.CalledFrom b f) : f = "f" := by
  cases h with
  | direct h => exact (calls_eq h).2
  | through _ _ h => exact (calls_eq h).2

theorem wellFormed : graph.WellFormed where
  bblock := by decide
  nodup := by decide
  br_last := by decide
  functionBlocks f b hb := by
    by_cases hmain : f = "main"
    · subst hmain
      revert b
      decide
    · by_cases hf : f = "f"
      · subst hf
        revert b
        decide
      · simp [graph, hmain, hf] at hb
  control := by decide

end OverlappingRegions

end Cape.Slicing
