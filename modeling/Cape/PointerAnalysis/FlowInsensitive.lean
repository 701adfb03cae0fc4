import Cape.Library.FinLiterals
import Cape.Library.Rounds
import Cape.PointerAnalysis.MemoryModel

/-!
# The flow-insensitive analysis

One memory object per allocation, shared by all nodes (`PointerAnalysisFI`). The global nodes are
processed once, in order; then all nodes reachable from the root, then again and again what is
reachable from the nodes that changed something, with no limit on the iterations.

**`FI.run_ends`**: the run ends, because every offset that is ever created is the unknown offset or
is bounded by the size of its target, and every reported change lets the state rise strictly. The
state rises in the order of `PointsToSet.Grows`, in which a known offset counts also when it comes in
beside the unknown one: a reported change need not add to what the sets cover (`FI.covered_again`).
-/

set_option autoImplicit false

namespace Cape.PointerAnalysis

open Cape.Library

universe u

variable {N : Type u} [DecidableEq N]

namespace FI

/-- `preprocessGEPs`: a GEP on a loop gets the unknown offset. -/
def preprocessGEPs [Fintype N] (G : PointerGraph N) : PointerGraph N :=
  { G with
    kind := fun n =>
      match G.kind n with
      | .gep source off =>
          .gep source (if G.subgraphs.any fun r => G.inLoop r n then .unknown else off)
      | k => k }

/-- `preprocess`. -/
def preprocess [Fintype N] (G : PointerGraph N) (opts : PointerAnalysisOptions) : PointerGraph N :=
  if opts.preprocessGeps then preprocessGEPs G else G

variable (G : PointerGraph N) (opts : PointerAnalysisOptions)

/-- The allocation that a target stands for. The set of a constant never changes. -/
def allocation : PSNode N → PSNode N
  | .node n =>
      match G.kind n with
      | .cast op => op
      | .gep source _ => source
      | .constant target _ => target
      | _ => .node n
  | x => x

/-- The object of an allocation is created when it is asked for the first time. -/
def withObject (n : PSNode N) (s : State N (PSNode N)) : State N (PSNode N) :=
  match s.objects n with
  | some _ => s
  | none => { s with objects := Function.update s.objects n (some (.create n)) }

/-- `PointerAnalysisFI::getMemoryObjects`: an object is known by its allocation. -/
def getMemoryObjects : GetMemoryObjects N (PSNode N) := fun _ p s =>
  if isFunction G (allocation G p.target) then (s, [])
  else (withObject (allocation G p.target) s, [allocation G p.target])

/-- One node. -/
def step : N → Step (State N (PSNode N)) := processNode G opts (getMemoryObjects G)

/-- The state after the global nodes. -/
def afterGlobals : State N (PSNode N) := (pass (step G opts) G.globals (.initial G)).1

section Run

variable [Fintype N]

/-- `queue_changed`. -/
def queueChanged (changed : List N) : List N :=
  match changed with
  | [] => []
  | _ => G.getNodes changed

/-- `run`, after the preprocessing; `none` when the fuel is spent. -/
def runFrom (fuel : Nat) : Option (State N (PSNode N)) :=
  rounds (step G opts) (queueChanged G) fuel (G.getNodes [G.root]) (afterGlobals G opts)

/-- `run` without a limit on the iterations. -/
def run (fuel : Nat) : Option (State N (PSNode N)) := runFrom (preprocess G opts) opts fuel

end Run

/-! ## The memory model -/

theorem getMemoryObjects_keys (n : N) (p : Pointer N) (s : State N (PSNode N)) :
    (getMemoryObjects G n p s).2 =
      if isFunction G (allocation G p.target) then [] else [allocation G p.target] := by
  rw [getMemoryObjects]
  split <;> rfl

theorem finds_withObject (x : PSNode N) (s : State N (PSNode N)) :
    Finds s (withObject x s) [x] := by
  rw [withObject]
  split
  · next o ho =>
      apply Finds.refl
      intro k hk
      rw [List.mem_singleton.1 hk, ho]
      rfl
  · next ho =>
      refine ⟨rfl, rfl, rfl, fun k => ?_, fun k hk => ?_⟩
      · by_cases hk : k = x
        · exact Or.inr ⟨hk ▸ ho, x, hk ▸ Function.update_self _ _ _⟩
        · exact Or.inl (Function.update_of_ne hk _ _)
      · rw [List.mem_singleton.1 hk]
        simp

theorem finds_getMemoryObjects (n : N) (p : Pointer N) (s : State N (PSNode N)) :
    Finds s (getMemoryObjects G n p s).1 (getMemoryObjects G n p s).2 := by
  rw [getMemoryObjects]
  split
  · exact Finds.refl (fun k hk => by cases hk)
  · exact finds_withObject _ s

theorem node_withObject {x : PSNode N} {s : State N (PSNode N)}
    (h : ∀ k o, s.objects k = some o → o.node = k) :
    ∀ k o, (withObject x s).objects k = some o → o.node = k := by
  rw [withObject]
  split
  · exact h
  · intro k o ho
    by_cases hk : k = x
    · subst hk
      simp only [Function.update_self, Option.some.injEq] at ho
      rw [← ho]
      rfl
    · exact h k o (by simpa [Function.update_of_ne hk] using ho)

/-- The memory model of the flow-insensitive analysis. -/
def memory : MemoryModel G (PSNode N) where
  getMemoryObjects := getMemoryObjects G
  finds := finds_getMemoryObjects G
  ofMemcpy := fun n _ _ _ _ p s t => by rw [getMemoryObjects_keys, getMemoryObjects_keys]

theorem rises_step (n : N) (s : State N (PSNode N)) :
    State.Rises s (step G opts n s).1 (step G opts n s).2 := (memory G).rises_processNode opts n s

/-! ## Offsets stay bounded -/

/-- The pointer of a constant node. -/
def Given (p : Pointer N) : Prop := ∃ n, G.kind n = .constant p.target p.offset

/-- The offset is unknown or bounded by the size of the target, or the pointer is given. -/
def Bounded (p : Pointer N) : Prop :=
  p.offset = .unknown ∨ p.offset ≤ ⟨G.getSize p.target⟩ ∨ Given G p

/-- An entry of an object: the offset is unknown, or bounded by the size of the object, or that of a
bounded pointer to the object. -/
def BoundedEntry (k : PSNode N) (off : Offset) : Prop :=
  off = .unknown ∨ off ≤ ⟨G.getSize k⟩ ∨ ∃ p, Bounded G p ∧ allocation G p.target = k ∧ p.offset = off

/-- All offsets of the state are bounded. -/
structure OffsetsBounded (s : State N (PSNode N)) : Prop where
  pointers : ∀ pl, ∀ p ∈ s.read pl, Bounded G p
  entries : ∀ k, ∀ off ∈ s.offsets k, BoundedEntry G k off
  node : ∀ k o, s.objects k = some o → o.node = k

theorem zero_le (x : BitVec 64) : (0 : Offset) ≤ ⟨x⟩ := by
  show (0 : BitVec 64) ≤ x
  bv_omega

theorem le_of_lt {a b : Offset} (h : a < b) : a ≤ b := by
  have h : a.offset < b.offset := h
  show a.offset ≤ b.offset
  bv_omega

theorem le_of_not_le {a b : Offset} (h : ¬ a ≤ b) : b ≤ a := by
  have h : ¬ a.offset ≤ b.offset := h
  show b.offset ≤ a.offset
  bv_omega

theorem eq_zero_of_le {a : Offset} (h : a ≤ 0) : a = 0 := by
  have h : a.offset ≤ 0 := h
  have hzero : a.offset = 0 := by bv_omega
  cases a
  exact congrArg Offset.mk hzero

variable {G}

omit [DecidableEq N] in
theorem bounded_gepPointer (p : Pointer N) (off : Offset) : Bounded G (gepPointer G opts p off) := by
  unfold gepPointer
  extract_lets newOffset
  split
  · next h =>
      right
      left
      obtain hzero | hlt := h.1
      · exact hzero ▸ zero_le _
      · exact le_of_lt hlt
  · exact Or.inl rfl

omit [DecidableEq N] in
/-- `memcpy` uses offsets inside the destination object. -/
theorem copiedTo_bounded (sptr dptr : Pointer N) (target : PSNode N) (off : Offset) :
    copiedTo G opts sptr dptr target off = .unknown ∨
      copiedTo G opts sptr dptr target off ≤ ⟨G.getSize target⟩ := by
  rw [copiedTo]
  split
  · split
    · exact Or.inl rfl
    · simp only []
      split
      · exact Or.inl rfl
      · next h => exact Or.inr (le_of_not_le fun hle => h (Or.inl hle))
  · exact Or.inl rfl

namespace OffsetsBounded

variable {s : State N (PSNode N)}

theorem modifyNode (h : OffsetsBounded G s) (n : N) {f : Step (PointsToSet N)}
    (hf : ∀ S : PointsToSet N, (∀ p ∈ S, Bounded G p) → ∀ p ∈ (f S).1, Bounded G p) :
    OffsetsBounded G (State.modifyNode n f s).1 where
  pointers := by
    rintro (x | ⟨k, off⟩)
    · show ∀ p ∈ (State.modifyNode n f s).1.pts x, Bounded G p
      rw [State.pts_modifyNode]
      split
      · exact hf _ (h.pointers (.node x))
      · exact h.pointers (.node x)
    · exact h.pointers (.cell k off)
  entries := h.entries
  node := h.node

theorem modifyCell (h : OffsetsBounded G s) {k : PSNode N} {off : Offset}
    (hoff : BoundedEntry G k off) {f : Step (PointsToSet N)}
    (hf : ∀ S : PointsToSet N, (∀ p ∈ S, Bounded G p) → ∀ p ∈ (f S).1, Bounded G p) :
    OffsetsBounded G (State.modifyCell k off f s).1 where
  pointers := by
    rintro (x | ⟨k', off'⟩)
    · show ∀ p ∈ (State.modifyCell k off f s).1.pts x, Bounded G p
      rw [State.pts_modifyCell]
      exact h.pointers (.node x)
    · show ∀ p ∈ (State.modifyCell k off f s).1.cell k' off', Bounded G p
      cases ho : s.objects k with
      | none =>
          rw [State.modifyCell_of_none ho]
          exact h.pointers (.cell k' off')
      | some o =>
          rw [State.cell_modifyCell (by rw [ho]; rfl)]
          split
          · exact hf _ (h.pointers (.cell k off))
          · exact h.pointers (.cell k' off')
  entries := by
    -- an entry is there before, or it is the one that is written
    intro k' off' hmem
    obtain hold | ⟨rfl, rfl⟩ := State.mem_offsets_modifyCell hmem
    · exact h.entries k' off' hold
    · exact hoff
  node := by
    intro k' o' ho'
    cases ho : s.objects k with
    | none =>
        rw [State.modifyCell_of_none ho] at ho'
        exact h.node k' o' ho'
    | some o =>
        by_cases hk : k' = k
        · subst hk
          simp only [State.modifyCell, ho, Function.update_self, Option.some.injEq] at ho'
          rw [← ho']
          exact h.node k' o ho
        · simp only [State.modifyCell, ho, Function.update_of_ne hk] at ho'
          exact h.node k' o' ho'

end OffsetsBounded

theorem bounded_add {p : Pointer N} (hp : Bounded G p) (S : PointsToSet N)
    (h : ∀ q ∈ S, Bounded G q) : ∀ q ∈ (PointsToSet.add p S).1, Bounded G q := by
  intro q hq
  obtain hq | rfl := PointsToSet.mem_of_add hq
  · exact h q hq
  · exact hp

theorem bounded_union {T : PointsToSet N} (hT : ∀ q ∈ T, Bounded G q) (S : PointsToSet N)
    (h : ∀ q ∈ S, Bounded G q) : ∀ q ∈ (PointsToSet.union T S).1, Bounded G q := by
  intro q hq
  obtain hq | hq := (PointsToSet.mem_union S T q).1 hq
  · exact h q hq
  · exact hT q hq

variable (G)

/-- The elementary writes keep the offsets bounded. -/
theorem keepsBounded (n : N) : Elementary G opts (getMemoryObjects G) n (OffsetsBounded G) (Bounded G)
    (BoundedEntry G) (fun _ _ _ => True) where
  composes := ⟨fun _ => trivial, fun _ _ => trivial⟩
  occurs := fun s x p hs hp => hs.pointers (.node x) p hp
  null := Or.inr (Or.inl (zero_le _))
  unknown := Or.inl rfl
  invalidated := Or.inr (Or.inl (zero_le _))
  gep := fun p off _ => bounded_gepPointer opts p off
  unknownOffset := fun _ => Or.inl rfl
  storedTo := by
    intro p s k _ hp hk
    rw [getMemoryObjects_keys] at hk
    split at hk
    · cases hk
    · exact Or.inr (Or.inr ⟨p, hp, (List.mem_singleton.1 hk).symm, rfl⟩)
  copiedTo := by
    intro s sptr dptr k off hs
    -- a node without an object is copied to as if it were the null pointer
    cases ho : s.objects k with
    | none =>
        obtain h | h := copiedTo_bounded opts sptr dptr .nullptr off
        · exact Or.inl h
        · refine Or.inr (Or.inl ?_)
          have hle : copiedTo G opts sptr dptr .nullptr off ≤ 0 := h
          show copiedTo G opts sptr dptr .nullptr off ≤ _
          rw [eq_zero_of_le hle]
          exact zero_le _
    | some o =>
        have hnode : o.node = k := hs.node k o ho
        obtain h | h := copiedTo_bounded opts sptr dptr k off
        · exact Or.inl (by simpa [hnode] using h)
        · exact Or.inr (Or.inl (by simpa [hnode] using h))
  objects := by
    intro p s _ hs
    refine ⟨?_, trivial⟩
    have hfinds := finds_getMemoryObjects G n p s
    refine ⟨fun pl => hfinds.read ▸ hs.pointers pl, fun k => hfinds.offsets k ▸ hs.entries k, ?_⟩
    intro k o ho
    rw [getMemoryObjects] at ho
    split at ho
    · exact hs.node k o ho
    · exact node_withObject hs.node k o ho
  addToNode := fun p s hp hs => ⟨hs.modifyNode n (bounded_add hp), trivial⟩
  copyToNode := fun src s hs => ⟨hs.modifyNode n (bounded_union (hs.pointers src)), trivial⟩
  addToCell := fun k off s hoff hs =>
    ⟨hs.modifyCell hoff (bounded_add (Or.inr (Or.inl (zero_le _)))), trivial⟩
  copyToCell := by
    intro k off src s hoff
    apply Step.Meets.ite (g := Step.skip)
      (h := State.modifyCell k off (PointsToSet.union (s.read src))) rfl
    · exact fun _ hs => ⟨hs, trivial⟩
    · exact fun _ hs => ⟨hs.modifyCell hoff (bounded_union (hs.pointers src)), trivial⟩
  setParent := fun p s hs => ⟨⟨hs.pointers, hs.entries, hs.node⟩, trivial⟩

theorem offsetsBounded_step (n : N) {s : State N (PSNode N)} (hs : OffsetsBounded G s) :
    OffsetsBounded G (step G opts n s).1 := by
  have hzero : ∀ (x : PSNode N) (s : State N (PSNode N)),
      Step.Meets (Under (OffsetsBounded G) (fun _ _ _ => True)) (State.setZeroInitialized x) s := by
    intro x s hs
    refine ⟨?_, trivial⟩
    cases x with
    | node n => exact ⟨hs.pointers, hs.entries, hs.node⟩
    | nullptr => exact hs
    | unknownMemory => exact hs
    | invalidated => exact hs
  exact ((keepsBounded G opts n).processNode (fun _ _ _ _ => hzero) s hs).1

omit [DecidableEq N] in
theorem offsetsBounded_initial : OffsetsBounded G (.initial G) where
  pointers := by
    rintro ((n | _ | _ | _) | ⟨k, off⟩) p hp
    · simp only [State.read, State.pts, State.initial] at hp
      split at hp
      · exact Or.inr (Or.inl ((PointsToSet.mem_singleton _ _).1 hp ▸ zero_le _))
      · exact Or.inr (Or.inl ((PointsToSet.mem_singleton _ _).1 hp ▸ zero_le _))
      · next target off hkind =>
          obtain rfl := (PointsToSet.mem_singleton _ _).1 hp
          exact Or.inr (Or.inr ⟨n, hkind⟩)
      · exact absurd hp (PointsToSet.mem_empty p)
    · exact Or.inr (Or.inl ((PointsToSet.mem_singleton _ _).1 hp ▸ zero_le _))
    · exact Or.inl ((PointsToSet.mem_singleton _ _).1 hp ▸ rfl)
    · exact absurd hp (PointsToSet.mem_empty p)
    · exact absurd hp (PointsToSet.mem_empty p)
  entries := fun _ _ hoff => by cases hoff
  node := fun _ _ ho => by cases ho

/-! ## The run ends -/

/-- The states of the analysis, in whatever order the nodes are processed. -/
inductive Reached : State N (PSNode N) → Prop
  | initial : Reached (.initial G)
  | step (n : N) {s : State N (PSNode N)} : Reached s → Reached (step G opts n s).1

theorem Reached.offsetsBounded {s : State N (PSNode N)} (h : Reached G opts s) :
    OffsetsBounded G s := by
  induction h with
  | initial => exact offsetsBounded_initial G
  | step n _ ih => exact offsetsBounded_step G opts n ih

theorem reached_pass (l : List N) {s : State N (PSNode N)} (h : Reached G opts s) :
    Reached G opts (pass (step G opts) l s).1 :=
  pass_invariant (fun n _ _ h => Reached.step n h) h

theorem reached_afterGlobals : Reached G opts (afterGlobals G opts) :=
  reached_pass G opts G.globals .initial

variable [Fintype N]

/-- The run goes through reached states. -/
theorem reached_runFrom {fuel : Nat} {t : State N (PSNode N)} (h : runFrom G opts fuel = some t) :
    Reached G opts t :=
  rounds_invariant (fun n _ h => Reached.step n h) (reached_afterGlobals G opts) h

/-- **The run ends**: with some number of iterations it comes to a state with nothing left to do.
Every offset in a state on the way is unknown, bounded by the size of the target, or was given with a
constant; and every step that reports a change is a strict growth. -/
theorem run_ends :
    (∃ fuel, (run G opts fuel).isSome = true) ∧
      (∀ s, Reached (preprocess G opts) opts s → OffsetsBounded (preprocess G opts) s) ∧
      ∀ s n, Reached (preprocess G opts) opts s → (step (preprocess G opts) opts n s).2 = true →
        s.read < (step (preprocess G opts) opts n s).1.read := by
  refine ⟨?_, fun s hs => hs.offsetsBounded, fun s n _ hreport => ?_⟩
  · exact exists_rounds State.read (fun n s => (rises_step _ opts n s).read)
      (fun n s => (rises_step _ opts n s).report) rfl _ _
  · exact (rises_step _ opts n s).report hreport

/-- `g = a + ?; q = a + 4; do p = phi(g, x), x = cast q` for an allocation `a` of 8 bytes. -/
def castInLoop : PointerGraph (Fin 5) where
  kind := ![.alloc, .gep (.node 0) .unknown, .gep (.node 0) 4, .phi [.node 1, .node 4],
    .cast (.node 2)]
  successors := ![[1], [2], [3], [4], [3]]
  predecessors := ![[], [0], [1], [2, 4], [3]]
  callees := fun _ => []
  returnSites := fun _ => []
  size := ![8, 0, 0, 0, 0]
  isHeap := fun _ => false
  isGlobal := fun _ => false
  zeroInitialized := fun _ => false
  subgraphs := [0]
  parent := fun _ => some 0
  globals := []
  root := 0
  mem_predecessors := by decide
  nodup_globals := List.nodup_nil

/-- A reported change that covers nothing new: in the second iteration the PHI, which has `a` at the
unknown offset, takes `a + 4` from the cast. -/
theorem covered_again : ∃ s,
    Reached (preprocess castInLoop {}) {} s ∧ (step (preprocess castInLoop {}) {} 3 s).2 = true ∧
      ∀ pl p, ((step (preprocess castInLoop {}) {} 3 s).1.read pl).Covers p →
        (s.read pl).Covers p := by
  let s := (pass (step (preprocess castInLoop {}) {}) [0, 1, 2, 3, 4]
    (.initial (preprocess castInLoop {}))).1
  refine ⟨s, reached_pass _ _ _ .initial, by decide, ?_⟩
  have hbefore : (s.pts (.node 3)).pointers = [⟨.node 0, .unknown⟩] := by decide
  have hafter : ((step (preprocess castInLoop {}) {} 3 s).1.pts (.node 3)).pointers =
      [⟨.node 0, .unknown⟩, ⟨.node 0, 4⟩] := by decide
  rintro (x | ⟨k, off⟩) p hp
  · by_cases hx : x = .node 3
    · subst hx
      have hwide : p.target = .node 0 := by
        obtain hp | hp := hp
        · have hp : p ∈ ((step (preprocess castInLoop {}) {} 3 s).1.pts (.node 3)).pointers := hp
          rw [hafter] at hp
          obtain rfl | hp := List.mem_cons.1 hp
          · rfl
          · rw [List.mem_singleton.1 hp]
        · have hp : p.widen ∈ ((step (preprocess castInLoop {}) {} 3 s).1.pts (.node 3)).pointers :=
            hp
          rw [hafter] at hp
          obtain hp | hp := List.mem_cons.1 hp
          · exact congrArg Pointer.target hp
          · exact congrArg Pointer.target (List.mem_singleton.1 hp)
      right
      show p.widen ∈ (s.pts (.node 3)).pointers
      rw [hbefore, Pointer.widen, hwide]
      exact List.mem_singleton_self _
    · -- the other sets stay as they are
      have hsame : (step (preprocess castInLoop {}) {} 3 s).1.pts x = s.pts x := by
        show (State.copyToNode 3 (.node (.node 4))
          (State.copyToNode 3 (.node (.node 1)) s).1).1.pts x = s.pts x
        unfold State.copyToNode
        rw [State.pts_modifyNode, if_neg hx, State.pts_modifyNode, if_neg hx]
      show (s.pts x).Covers p
      rw [← hsame]
      exact hp
  · exact hp

end FI

end Cape.PointerAnalysis
