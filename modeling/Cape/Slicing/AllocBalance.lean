import Cape.Library.FinLiterals
import Cape.Library.Visits
import Cape.Slicing.BufferIds
import Cape.Slicing.Paths

/-!
# Pushes and pops of stack buffers

An `alloca` that is preloaded gets a push behind it and one pop before the first return of its
function. `balanced_iff` says for which functions pushes and pops agree on every path from the entry
to a return: no other return may follow the allocation, and the allocation has to dominate the first
return and to lie on no cycle. Buffers that share an id do not make up for one another.

The statement is about the code after any sequence of accesses, with any other calls inserted in
between (`Instrumented`).
-/

set_option autoImplicit false
set_option linter.unusedSectionVars false

namespace Cape.Slicing

open Cape.Library

namespace RuntimeCall

variable {N : Type}

/-- A call of `pushAllocStack` or `popAllocStack`. -/
def isAllocStack : RuntimeCall N → Bool
  | .pushAllocStack _ _ => true
  | .popAllocStack _ => true
  | _ => false

end RuntimeCall

namespace Inst

variable {N : Type}

/-- An inserted `pushAllocStack` of a buffer id. -/
def isPush (id : Nat) : Inst N → Bool
  | .inserted _ (.pushAllocStack id' _) => id' == id
  | _ => false

/-- An inserted `popAllocStack` of a buffer id. -/
def isPop (id : Nat) : Inst N → Bool
  | .inserted _ (.popAllocStack id') => id' == id
  | _ => false

variable {call : RuntimeCall N} (h : call.isAllocStack = false)

include h

theorem isPush_of_other (id uid : Nat) : isPush id (.inserted uid call) = false := by
  cases call with
  | pushAllocStack id' ai => cases h
  | _ => rfl

theorem isPop_of_other (id uid : Nat) : isPop id (.inserted uid call) = false := by
  cases call with
  | popAllocStack id' => cases h
  | _ => rfl

end Inst

namespace DependenceGraph

variable {N B F T : Type} [DecidableEq N] [DecidableEq T] (G : DependenceGraph N B F T)

/-- States of the passes: accesses were handled in the given order, and other calls were inserted
at any time and any place. -/
inductive Instrumented : List (Access N) → State N B T → Prop
  | source (slices : Slices N B) : Instrumented [] (G.source slices)
  | access {accesses : List (Access N)} {s : State N B T} (a : Access N) (sliceId : Nat) :
      Instrumented accesses s → Instrumented (accesses ++ [a])
        (G.handlePreloading a.node sliceId a.opIdx (G.pointsTo a.node) s).1
  | insertBefore {accesses : List (Access N)} {s : State N B T} (at_ : Inst N)
      (call : RuntimeCall N) (hother : call.isAllocStack = false) :
      Instrumented accesses s → Instrumented accesses (s.insertBefore at_ call)
  | bookkeeping {accesses : List (Access N)} {s : State N B T} (slices : Slices N B)
      (allocId : Nat) : Instrumented accesses s →
      Instrumented accesses { s with slices := slices, allocId := allocId }

/-- On every path from the entry of a function to a return, and for every buffer id, as many pushes
as pops are executed. -/
def Balanced (s : State N B T) : Prop :=
  ∀ f e, G.entryBlock f = some e → ∀ π b, Walk G.Control e π b → G.Returns b →
    ∀ id, (s.trace π).countP (Inst.isPush id) = (s.trace π).countP (Inst.isPop id)

/-! ## The condition -/

/-- The `alloca`s that handling the accesses pushes: those of other functions, at an access that
comes to them. -/
def Pushed (accesses : List (Access N)) (ai : N) : Prop :=
  ∃ t ∈ G.objects accesses, G.userData t = .instruction ai ∧ G.key ai = .instruction .alloca

/-- The block of the return before which the function of a block pops. -/
def popBlock (a : B) : Option B := (G.getFuncRet a).bind G.bblock

/-- A block `a` of a function with entry `e` in which an allocation is pushed and popped once on the
way to every return: whatever return follows is the first one of the function; and if that one can
be reached, then only through `a`, and `a` lies on no cycle. -/
structure PushedAndPopped (e a : B) : Prop where
  firstReturn : FromRoot G.Control e a →
    ∀ b, Relation.ReflTransGen G.Control a b → G.Returns b → G.popBlock a = some b
  once : ∀ x, G.popBlock a = some x → FromRoot G.Control e x →
    Dominates G.Control e a x ∧ ¬ Relation.TransGen G.Control a a

/-! ## The calls in the code -/

section Calls

/-- The `popAllocStack` for an `alloca` stands before this return. -/
def popAt (ai : N) : Option N := (G.bblock ai).bind G.getFuncRet

/-- The pushes and pops in the code are those of the pairs `ps` of an `alloca` and an id, which are
the `alloca`s of the objects `ts` handled so far. -/
structure CallsOf (ts : List T) (s : State N B T) (ps : List (N × Nat)) : Prop where
  node_mem : ∀ b n, .node n ∈ s.code b ↔ n ∈ G.nodes b
  push : ∀ b id, (s.code b).countP (Inst.isPush id) =
    ps.countP fun p => p.2 == id && decide (p.1 ∈ G.nodes b)
  pop : ∀ b id, (s.code b).countP (Inst.isPop id) =
    ps.countP fun p => p.2 == id && (G.popAt p.1).any fun ret => decide (ret ∈ G.nodes b)
  pushed : ∀ ai, (∃ id, (ai, id) ∈ ps) ↔
    ∃ t ∈ ts, G.userData t = .instruction ai ∧ G.key ai = .instruction .alloca
  buffered : ∀ t ai, G.userData t = .instruction ai → G.key ai = .instruction .alloca →
    s.bufferId t ≠ 0 → ∃ id, (ai, id) ∈ ps

variable {G}

namespace CallsOf

variable {ts : List T} {s : State N B T} {ps : List (N × Nat)}

theorem of_source (slices : Slices N B) : G.CallsOf [] (G.source slices : State N B T) [] where
  node_mem b n := by simp [BlockGraph.source, BlockGraph.sourceCode]
  push b id := by
    rw [List.countP_nil, List.countP_eq_zero]
    intro i hi
    obtain ⟨n, -, rfl⟩ := List.mem_map.1 hi
    exact Bool.false_ne_true
  pop b id := by
    rw [List.countP_nil, List.countP_eq_zero]
    intro i hi
    obtain ⟨n, -, rfl⟩ := List.mem_map.1 hi
    exact Bool.false_ne_true
  pushed ai := by simp
  buffered t ai _ _ h := absurd rfl h

/-- Only the code, the ids and the objects matter. -/
theorem of_code {s' : State N B T} {ts' : List T} (h : G.CallsOf ts s ps)
    (hcode : s'.code = s.code)
    (hid : ∀ t ai, G.userData t = .instruction ai → G.key ai = .instruction .alloca →
      s'.bufferId t ≠ 0 → s.bufferId t ≠ 0)
    (hts : ∀ ai, (∃ t ∈ ts', G.userData t = .instruction ai ∧ G.key ai = .instruction .alloca) ↔
      ∃ t ∈ ts, G.userData t = .instruction ai ∧ G.key ai = .instruction .alloca) :
    G.CallsOf ts' s' ps where
  node_mem b n := by rw [hcode, h.node_mem]
  push b id := by rw [hcode, h.push]
  pop b id := by rw [hcode, h.pop]
  pushed ai := by rw [hts, h.pushed]
  buffered t ai hdata hkey hne := h.buffered t ai hdata hkey (hid t ai hdata hkey hne)

/-- Inserting another call. -/
theorem insertBefore_other (h : G.CallsOf ts s ps) (at_ : Inst N) {call : RuntimeCall N}
    (hother : call.isAllocStack = false) : G.CallsOf ts (s.insertBefore at_ call) ps where
  node_mem b n := by rw [State.node_mem_insertBefore, h.node_mem]
  push b id := by
    rw [State.countP_insertBefore, Inst.isPush_of_other hother, if_neg (by simp), h.push]
    rfl
  pop b id := by
    rw [State.countP_insertBefore, Inst.isPop_of_other hother, if_neg (by simp), h.pop]
    rfl
  pushed := h.pushed
  buffered := h.buffered

theorem insertAfter_other (h : G.CallsOf ts s ps) (at_ : Inst N) {call : RuntimeCall N}
    (hother : call.isAllocStack = false) : G.CallsOf ts (s.insertAfter at_ call) ps where
  node_mem b n := by rw [State.node_mem_insertAfter, h.node_mem]
  push b id := by
    rw [State.countP_insertAfter, Inst.isPush_of_other hother, if_neg (by simp), h.push]
    rfl
  pop b id := by
    rw [State.countP_insertAfter, Inst.isPop_of_other hother, if_neg (by simp), h.pop]
    rfl
  pushed := h.pushed
  buffered := h.buffered

/-- The `alloca` of one more object. -/
theorem exists_append_iff {target : T} {ai : N} (hdata : G.userData target = .instruction ai)
    (hkey : G.key ai = .instruction .alloca) (ai' : N) :
    (∃ t ∈ ts ++ [target], G.userData t = .instruction ai' ∧ G.key ai' = .instruction .alloca) ↔
      (∃ t ∈ ts, G.userData t = .instruction ai' ∧ G.key ai' = .instruction .alloca) ∨ ai' = ai := by
  constructor
  · rintro ⟨t, ht, hdata', hkey'⟩
    rcases List.mem_append.1 ht with ht | ht
    · exact Or.inl ⟨t, ht, hdata', hkey'⟩
    · obtain rfl := List.mem_singleton.1 ht
      rw [hdata] at hdata'
      exact Or.inr (UserData.instruction.inj hdata').symm
  · rintro (⟨t, ht, h⟩ | rfl)
    · exact ⟨t, List.mem_append_left _ ht, h⟩
    · exact ⟨target, List.mem_append_right _ List.mem_cons_self, hdata, hkey⟩

/-- A push behind the `alloca` and a pop at its place. -/
theorem push_pop (h : G.CallsOf ts s ps) {target : T} {ai : N}
    (hdata : G.userData target = .instruction ai) (hkey : G.key ai = .instruction .alloca)
    (bid : Nat) {s₁ s₂ : State N B T} (hcode : s₁.code = s.code)
    (hids : s₁.bufferId = Function.update s.bufferId target bid)
    (hs₂ : s₂ = match G.popAt ai with
      | none => s₁.insertAfter (.node ai) (.pushAllocStack bid ai)
      | some ret => (s₁.insertAfter (.node ai) (.pushAllocStack bid ai)).insertBefore (.node ret)
          (.popAllocStack bid)) :
    G.CallsOf (ts ++ [target]) s₂ ((ai, bid) :: ps) := by
  have hpushed : ∀ ai', (∃ id, (ai', id) ∈ (ai, bid) :: ps) ↔
      ∃ t ∈ ts ++ [target], G.userData t = .instruction ai' ∧ G.key ai' = .instruction .alloca := by
    intro ai'
    rw [exists_append_iff hdata hkey, ← h.pushed]
    constructor
    · rintro ⟨id, hid⟩
      rcases List.mem_cons.1 hid with heq | hid
      · exact Or.inr (congrArg Prod.fst heq)
      · exact Or.inl ⟨id, hid⟩
    · rintro (⟨id, hid⟩ | rfl)
      · exact ⟨id, List.mem_cons_of_mem _ hid⟩
      · exact ⟨bid, List.mem_cons_self⟩
  -- only the target gets an id
  have hbuffered : ∀ t ai', G.userData t = .instruction ai' →
      G.key ai' = .instruction .alloca → s₁.bufferId t ≠ 0 → ∃ id, (ai', id) ∈ (ai, bid) :: ps := by
    intro t ai' hdata' hkey' hne
    rw [hids] at hne
    by_cases ht : t = target
    · subst ht
      rw [hdata] at hdata'
      exact ⟨bid, UserData.instruction.inj hdata' ▸ List.mem_cons_self⟩
    · rw [Function.update_of_ne ht] at hne
      obtain ⟨id, hid⟩ := h.buffered t ai' hdata' hkey' hne
      exact ⟨id, List.mem_cons_of_mem _ hid⟩
  cases hret : G.popAt ai with
  | none =>
      rw [hret] at hs₂
      subst hs₂
      refine ⟨?_, ?_, ?_, hpushed, hbuffered⟩
      · intro b n
        rw [State.node_mem_insertAfter, hcode, h.node_mem]
      · intro b id
        rw [State.countP_insertAfter, hcode, h.push, List.countP_cons]
        simp [Inst.isPush, h.node_mem, and_comm]
      · intro b id
        rw [State.countP_insertAfter, hcode, h.pop, List.countP_cons, hret]
        simp [Inst.isPop]
  | some ret =>
      rw [hret] at hs₂
      subst hs₂
      refine ⟨?_, ?_, ?_, hpushed, hbuffered⟩
      · intro b n
        rw [State.node_mem_insertBefore, State.node_mem_insertAfter, hcode, h.node_mem]
      · intro b id
        rw [State.countP_insertBefore, State.countP_insertAfter, hcode, h.push, List.countP_cons]
        simp [Inst.isPush, h.node_mem, and_comm]
      · intro b id
        rw [State.countP_insertBefore, State.countP_insertAfter, hcode, h.pop, List.countP_cons, hret]
        simp [Inst.isPop, State.node_mem_insertAfter, hcode, h.node_mem, and_comm]

theorem bufferAlloca (h : G.CallsOf ts s ps) {target : T} {ai : N}
    (hdata : G.userData target = .instruction ai) (hkey : G.key ai = .instruction .alloca) :
    ∃ ps', G.CallsOf (ts ++ [target]) (G.bufferAlloca s target ai) ps' := by
  rw [DependenceGraph.bufferAlloca]
  split
  · next hbuffered =>
      refine ⟨ps, h.of_code rfl (fun _ _ _ _ hne => hne) fun ai' => ?_⟩
      rw [exists_append_iff hdata hkey, or_iff_left_of_imp]
      rintro rfl
      exact (h.pushed ai').1 (h.buffered target ai' hdata hkey hbuffered.ne')
  · have hcode : ({ s with
        allocId := nextId s
        bufferId := Function.update s.bufferId target (nextId s) } : State N B T).code = s.code := rfl
    exact ⟨_, h.push_pop hdata hkey (nextId s) hcode rfl rfl⟩

/-- An object that is no `alloca`. -/
theorem append_other (h : G.CallsOf ts s ps) {target : T}
    (hother : ∀ ai, G.userData target = .instruction ai → G.key ai ≠ .instruction .alloca) :
    G.CallsOf (ts ++ [target]) s ps := by
  refine h.of_code rfl (fun _ _ _ _ hne => hne) fun ai => ?_
  constructor
  · rintro ⟨t, ht, hdata, hkey⟩
    rcases List.mem_append.1 ht with ht | ht
    · exact ⟨t, ht, hdata, hkey⟩
    · obtain rfl := List.mem_singleton.1 ht
      exact absurd hkey (hother ai hdata)
  · rintro ⟨t, ht, h⟩
    exact ⟨t, List.mem_append_left _ ht, h⟩

theorem bufferMalloc (h : G.CallsOf ts s ps) {target : T}
    (hother : ∀ ai, G.userData target = .instruction ai → G.key ai ≠ .instruction .alloca)
    (ci : N) : G.CallsOf ts (bufferMalloc s target ci) ps := by
  rw [DependenceGraph.bufferMalloc]
  split
  · exact h
  · apply insertAfter_other
    · refine h.of_code rfl (fun t ai hdata hkey hne => ?_) fun _ => Iff.rfl
      have ht : t ≠ target := by
        rintro rfl
        exact hother ai hdata hkey
      simpa [Function.update_of_ne ht] using hne
    · rfl

theorem setSlices (h : G.CallsOf ts s ps) (slices : Slices N B) :
    G.CallsOf ts { s with slices := slices } ps :=
  h.of_code rfl (fun _ _ _ _ hne => hne) fun _ => Iff.rfl

theorem markLocal (h : G.CallsOf ts s ps) (access : N) (sliceId : Nat) (v : N) :
    G.CallsOf ts (G.markLocal access sliceId s v) ps := by
  rw [DependenceGraph.markLocal]
  split
  · exact h.setSlices _
  · exact h

/-- Handling a target adds it if it needs an id. -/
theorem handleTarget (h : G.CallsOf ts s ps) (access : N) (sliceId : Nat) (target : T) :
    ∃ ps', G.CallsOf (ts ++ [target].filter (G.needsId access))
      (G.handleTarget access sliceId s target).1 ps' := by
  -- the list of handled targets grows by those that need an id
  have hskip : G.needsId access target = false →
      ts ++ [target].filter (G.needsId access) = ts := by
    intro hid
    simp [hid]
  have hadd : G.needsId access target = true →
      ts ++ [target].filter (G.needsId access) = ts ++ [target] := by
    intro hid
    simp [hid]
  rw [DependenceGraph.handleTarget]
  cases hdata : G.userData target with
  | null =>
      rw [hskip (by simp [needsId, hdata])]
      exact ⟨ps, h⟩
  | other =>
      rw [hskip (by simp [needsId, hdata])]
      exact ⟨ps, h⟩
  | globalVariable gv =>
      rw [hskip (by simp [needsId, hdata])]
      simp only
      split
      · exact ⟨ps, h⟩
      · exact ⟨ps, h⟩
  | instruction v =>
      simp only
      split
      · next hkey =>
          cases hlocal : G.localNode access v with
          | some g =>
              rw [hskip (by simp [needsId, hdata, hkey, hlocal])]
              exact ⟨ps, h.setSlices _⟩
          | none =>
              rw [hadd (by simp [needsId, hdata, hkey, hlocal])]
              exact h.bufferAlloca hdata hkey
      · next hkey =>
          have hother : ∀ ai, G.userData target = .instruction ai →
              G.key ai ≠ .instruction .alloca := by
            intro ai hai
            rw [hdata] at hai
            rwa [← UserData.instruction.inj hai]
          split
          · next hmalloc =>
              rw [hadd (by simp [needsId, hdata, hmalloc])]
              exact ⟨ps, ((h.markLocal access sliceId v).bufferMalloc hother v).append_other hother⟩
          · next hmalloc =>
              rw [hskip (by simp [needsId, hdata, hkey, hmalloc])]
              exact ⟨ps, h⟩

theorem handleTargets (access : N) (sliceId : Nat) (l : List T) :
    ∀ {ts : List T} {s : State N B T} {ps : List (N × Nat)}, G.CallsOf ts s ps →
      ∃ ps', G.CallsOf (ts ++ (l.takeWhile fun t => !G.stops t).filter (G.needsId access))
        (G.handleTargets access sliceId l s).1 ps' := by
  induction l with
  | nil =>
      intro ts s ps h
      exact ⟨ps, by simpa [DependenceGraph.handleTargets] using h⟩
  | cons target rest ih =>
      intro ts s ps h
      rw [DependenceGraph.handleTargets]
      cases hstop : G.stops target with
      | true => exact ⟨ps, by simpa [hstop] using h⟩
      | false =>
          obtain ⟨ps₁, h₁⟩ := h.handleTarget access sliceId target
          obtain ⟨ps₂, h₂⟩ := ih h₁
          refine ⟨ps₂, ?_⟩
          have hcons : (target :: rest).takeWhile (fun t => !G.stops t) =
              [target] ++ rest.takeWhile fun t => !G.stops t := by simp [hstop]
          rw [hcons, List.filter_append, ← List.append_assoc]
          exact h₂

end CallsOf

/-- **The pushes and pops in the code** are those of the objects that were handled. -/
theorem Instrumented.callsOf {accesses : List (Access N)} {s : State N B T}
    (h : G.Instrumented accesses s) : ∃ ps, G.CallsOf (G.objects accesses) s ps := by
  induction h with
  | source slices => exact ⟨[], CallsOf.of_source slices⟩
  | access a sliceId _ ih =>
      obtain ⟨ps, hps⟩ := ih
      have hobjects : ∀ l : List (Access N), G.objects (l ++ [a]) = G.objects l ++ G.requests a := by
        intro l
        simp [objects]
      rw [hobjects]
      exact hps.handleTargets a.node sliceId _
  | insertBefore at_ call hother _ ih =>
      obtain ⟨ps, hps⟩ := ih
      exact ⟨ps, hps.insertBefore_other at_ hother⟩
  | bookkeeping slices allocId _ ih =>
      obtain ⟨ps, hps⟩ := ih
      exact ⟨ps, hps.of_code rfl (fun _ _ _ _ hne => hne) fun _ => Iff.rfl⟩

end Calls

/-! ## Counting along a path -/

section Count

variable [DecidableEq B] {G}

variable (G) in
/-- The block of the pushed `alloca` of a pair, if the pair has the id and the function. -/
def pushBlock (f : String) (id : Nat) (p : N × Nat) : Option B :=
  if p.2 = id then (G.bblock p.1).filter fun a => decide (G.functionName a = f) else none

theorem pushBlock_eq_some {f : String} {id : Nat} {p : N × Nat} {a : B} :
    G.pushBlock f id p = some a ↔ p.2 = id ∧ G.bblock p.1 = some a ∧ G.functionName a = f := by
  rw [pushBlock]
  split
  · next hid => simp [hid, Option.filter_eq_some_iff]
  · next hid => simp [hid]

/-- Of the blocks on a path only those of its function count. -/
theorem elim_pushBlock {f : String} {c : B → Nat} (hc : ∀ a, G.functionName a ≠ f → c a = 0)
    (ai : N) (id : Nat) : (G.pushBlock f id (ai, id)).elim 0 c = (G.bblock ai).elim 0 c := by
  rw [pushBlock]
  rw [if_pos rfl]
  cases G.bblock ai with
  | none => rfl
  | some a =>
      by_cases ha : G.functionName a = f
      · simp [Option.filter, ha]
      · simp [Option.filter, ha, hc a ha]

variable (hG : G.WellFormed)

include hG

theorem WellFormed.functionName_of_mem {a b : B} {π : List B} (hπ : Walk G.Control a π b) :
    ∀ x ∈ π, G.functionName x = G.functionName a := by
  induction hπ with
  | single a =>
      intro x hx
      rw [List.mem_singleton.1 hx]
  | @cons a b c π hab _ ih =>
      intro x hx
      rcases List.mem_cons.1 hx with rfl | hx
      · rfl
      · rw [ih x hx, hG.control a b hab]

theorem WellFormed.functionName_entryBlock {f : String} {e : B} (he : G.entryBlock f = some e) :
    G.functionName e = f :=
  hG.functionBlocks f e (List.mem_of_mem_head? he)

/-- The block before whose return a function pops is a return block of the function. -/
theorem WellFormed.of_popBlock {a x : B} (h : G.popBlock a = some x) :
    G.Returns x ∧ G.functionName x = G.functionName a := by
  obtain ⟨ret, hret, hx⟩ := Option.bind_eq_some_iff.1 h
  have hreturn : (G.key ret).isReturn = true := by
    simpa using List.find?_some hret
  obtain ⟨b, hb, hmem⟩ := List.mem_flatMap.1 (List.mem_of_find?_eq_some hret)
  have hxb : x = b := by
    rw [(hG.bblock ret b).2 hmem] at hx
    exact (Option.some.inj hx).symm
  subst hxb
  exact ⟨⟨ret, hmem, hreturn⟩, hG.functionBlocks _ x hb⟩

theorem WellFormed.popBlock_congr {a b : B} (h : G.functionName a = G.functionName b) :
    G.popBlock a = G.popBlock b := by
  unfold popBlock getFuncRet
  rw [h]

/-- How often a path visits the block of an instruction. -/
theorem WellFormed.countP_mem_nodes (n : N) (π : List B) :
    π.countP (fun b => decide (n ∈ G.nodes b)) = (G.bblock n).elim 0 fun a => π.count a := by
  simp only [← hG.bblock n]
  cases G.bblock n with
  | none => simp
  | some a =>
      rw [Option.elim_some, List.count_eq_countP]
      congr 1
      funext b
      rw [beq_eq_decide]
      simp [eq_comm]

variable {ts : List T} {s : State N B T} {ps : List (N × Nat)} {f : String} {π : List B}

/-- The pushes that a path in a function executes: one for each visit of the block of an `alloca`. -/
theorem WellFormed.countP_isPush (h : G.CallsOf ts s ps) (hf : ∀ x ∈ π, G.functionName x = f) (id : Nat) :
    (s.trace π).countP (Inst.isPush id) =
      ((ps.filterMap (G.pushBlock f id)).map fun a => π.count a).sum := by
  have hblocks : (s.trace π).countP (Inst.isPush id) =
      (π.map fun b => ps.countP fun p => p.2 == id && decide (p.1 ∈ G.nodes b)).sum := by
    rw [State.trace]
    rw [List.countP_flatMap]
    exact congrArg List.sum (List.map_congr_left fun b _ => h.push b id)
  rw [hblocks, sum_countP_comm]
  apply sum_filterMap
  rintro ⟨ai, id'⟩ -
  by_cases hid : id' = id
  · subst hid
    rw [elim_pushBlock, ← hG.countP_mem_nodes ai π]
    · simp
    · intro a ha
      exact List.count_eq_zero_of_not_mem fun hmem => ha (hf a hmem)
  · simp [pushBlock, hid]

/-- The pops that a path in a function executes: one for each visit of the block of its first
return, for each `alloca`. -/
theorem WellFormed.countP_isPop (h : G.CallsOf ts s ps) (hf : ∀ x ∈ π, G.functionName x = f) (id : Nat) :
    (s.trace π).countP (Inst.isPop id) = ((ps.filterMap (G.pushBlock f id)).map
      fun a => (G.popBlock a).elim 0 fun x => π.count x).sum := by
  have hblocks : (s.trace π).countP (Inst.isPop id) = (π.map fun b => ps.countP fun p =>
      p.2 == id && (G.popAt p.1).any fun ret => decide (ret ∈ G.nodes b)).sum := by
    rw [State.trace]
    rw [List.countP_flatMap]
    exact congrArg List.sum (List.map_congr_left fun b _ => h.pop b id)
  rw [hblocks, sum_countP_comm]
  apply sum_filterMap
  rintro ⟨ai, id'⟩ -
  by_cases hid : id' = id
  · subst hid
    rw [elim_pushBlock]
    · unfold popAt popBlock
      cases G.bblock ai with
      | none => simp
      | some a =>
          cases hret : G.getFuncRet a with
          | none => simp [hret]
          | some ret =>
              simpa [hret] using hG.countP_mem_nodes ret π
    · intro a ha
      cases hx : G.popBlock a with
      | none => rfl
      | some x =>
          apply List.count_eq_zero_of_not_mem
          intro hmem
          apply ha
          rw [← (hG.of_popBlock hx).2, hf x hmem]
  · simp [pushBlock, hid]

/-! ## Balance -/

/-- What an allocation block contributes on a path: as many pushes as pops. -/
theorem PushedAndPopped.count_eq {e a b : B} (h : G.PushedAndPopped e a)
    (hπ : Walk G.Control e π b) (hb : G.Returns b) :
    π.count a = (G.popBlock a).elim 0 fun x => π.count x := by
  have hfirst : a ∈ π → G.popBlock a = some b := by
    intro hmem
    obtain ⟨π₁, π₂, -, -, hto, hfrom⟩ := hπ.split_first hmem
    exact h.firstReturn ⟨_, hto⟩ b hfrom.reflTransGen hb
  by_cases hx : G.popBlock a = some b
  · -- the path ends at the return before which the pop stands
    rw [hx, Option.elim_some, BlockGraph.count_return hπ hb, if_pos rfl]
    exact visitedOnce_iff.2 (h.once b hx) π hπ
  · rw [List.count_eq_zero_of_not_mem fun hmem => hx (hfirst hmem)]
    cases hy : G.popBlock a with
    | none => rfl
    | some y =>
        have hne : b ≠ y := fun heq => hx (heq ▸ hy)
        rw [Option.elim_some, BlockGraph.count_return hπ (hG.of_popBlock hy).1, if_neg hne]

/-- Allocation blocks of one function, with repetitions: pushes and pops agree on every path to a
return if and only if each of the blocks is pushed and popped once. -/
theorem WellFormed.sums_eq_iff {e : B} {l : List B} (hl : ∀ a ∈ l, G.functionName a = f) :
    (∀ π b, Walk G.Control e π b → G.Returns b → (l.map fun a => π.count a).sum =
        (l.map fun a => (G.popBlock a).elim 0 fun x => π.count x).sum) ↔
      ∀ a ∈ l, G.PushedAndPopped e a := by
  constructor
  · intro hsum a ha
    -- the blocks of one function have their pops at the same return
    have hsame : ∀ a' ∈ l, G.popBlock a' = G.popBlock a := by
      intro a' ha'
      apply hG.popBlock_congr
      rw [hl a' ha', hl a ha]
    refine ⟨?_, ?_⟩
    · intro hfrom b hreach hb
      obtain ⟨π₁, hπ₁⟩ := hfrom
      obtain ⟨π₂, hπ₂⟩ := Walk.exists_of_reflTransGen hreach
      obtain ⟨σ, rfl⟩ := hπ₂.eq_cons
      have hπ := hπ₁.join hπ₂
      by_contra hne
      have hpops : (l.map fun a => (G.popBlock a).elim 0 fun x => (π₁ ++ σ).count x).sum = 0 := by
        apply List.sum_eq_zero
        intro i hi
        obtain ⟨a', ha', rfl⟩ := List.mem_map.1 hi
        rw [hsame a' ha']
        cases hx : G.popBlock a with
        | none => rfl
        | some x =>
            have hbx : b ≠ x := fun heq => hne (heq ▸ hx)
            rw [Option.elim_some, BlockGraph.count_return hπ (hG.of_popBlock hx).1, if_neg hbx]
      have hpush : (π₁ ++ σ).count a ≤ (l.map fun a => (π₁ ++ σ).count a).sum :=
        List.single_le_sum (fun _ _ => Nat.zero_le _) _ (List.mem_map_of_mem ha)
      have hvisit : 0 < (π₁ ++ σ).count a :=
        List.count_pos_iff.2 (List.mem_append_left _ hπ₁.end_mem)
      have heq := hsum _ b hπ hb
      omega
    · intro x hx hfrom
      refine visitedOnce_iff.1 (sum_count_iff.1 ?_ a ha) hfrom
      intro π hπ
      have hreturn := (hG.of_popBlock hx).1
      rw [hsum π x hπ hreturn]
      have hone : ∀ a' ∈ l, ((G.popBlock a').elim 0 fun x => π.count x) = 1 := by
        intro a' ha'
        rw [hsame a' ha', hx, Option.elim_some, BlockGraph.count_return hπ hreturn, if_pos rfl]
      rw [List.map_congr_left hone]
      simp
  · intro h π b hπ hb
    exact congrArg List.sum (List.map_congr_left fun a ha => (h a ha).count_eq hG hπ hb)

/-- **Pushes and pops balance** if and only if every pushed `alloca` is pushed and popped once on
the way to every return of its function. -/
theorem WellFormed.balanced_iff_of_callsOf (h : G.CallsOf ts s ps) : G.Balanced s ↔
    ∀ ai id a e, (ai, id) ∈ ps → G.bblock ai = some a →
      G.entryBlock (G.functionName a) = some e → G.PushedAndPopped e a := by
  have hcount : ∀ f e, G.entryBlock f = some e → ∀ id,
      ((∀ π b, Walk G.Control e π b → G.Returns b →
        (s.trace π).countP (Inst.isPush id) = (s.trace π).countP (Inst.isPop id)) ↔
      ∀ a ∈ ps.filterMap (G.pushBlock f id), G.PushedAndPopped e a) := by
    intro f e he id
    have hblocks : ∀ a ∈ ps.filterMap (G.pushBlock f id), G.functionName a = f := by
      intro a ha
      obtain ⟨p, -, hp⟩ := List.mem_filterMap.1 ha
      exact (pushBlock_eq_some.1 hp).2.2
    rw [← hG.sums_eq_iff hblocks]
    refine forall_congr' fun π => forall_congr' fun b => forall_congr' fun hπ => ?_
    have hf : ∀ x ∈ π, G.functionName x = f := by
      intro x hx
      rw [hG.functionName_of_mem hπ x hx, hG.functionName_entryBlock he]
    rw [hG.countP_isPush h hf, hG.countP_isPop h hf]
  constructor
  · intro hbal ai id a e hp hblock he
    refine (hcount _ e he id).1 (fun π b hπ hb => hbal _ e he π b hπ hb id) a ?_
    exact List.mem_filterMap.2 ⟨(ai, id), hp, pushBlock_eq_some.2 ⟨rfl, hblock, rfl⟩⟩
  · intro hall f e he π b hπ hb id
    refine (hcount f e he id).2 (fun a ha => ?_) π b hπ hb
    obtain ⟨⟨ai, id'⟩, hp, hpush⟩ := List.mem_filterMap.1 ha
    obtain ⟨-, hblock, rfl⟩ := pushBlock_eq_some.1 hpush
    exact hall ai id' a e hp hblock he

end Count

/-- **When the allocation stack is balanced**: if and only if every `alloca` pushed by the accesses
lies in a block that is left for the first return only, dominates this return and lies on no cycle;
the last two only if the return can be reached. -/
theorem balanced_iff [DecidableEq B] (hG : G.WellFormed) {accesses : List (Access N)}
    {s : State N B T} (h : G.Instrumented accesses s) : G.Balanced s ↔
      ∀ ai, G.Pushed accesses ai → ∀ a e, G.bblock ai = some a →
        G.entryBlock (G.functionName a) = some e → G.PushedAndPopped e a := by
  obtain ⟨ps, hps⟩ := h.callsOf
  rw [hG.balanced_iff_of_callsOf hps]
  constructor
  · intro hall ai hpushed a e
    obtain ⟨id, hid⟩ := (hps.pushed ai).2 hpushed
    exact hall ai id a e hid
  · intro hall ai id a e hid
    exact hall ai ((hps.pushed ai).1 ⟨id, hid⟩) a e

/-! ## The driver's runs -/

section Driver

variable {G} {accesses : List (Access N)} {s : State N B T}

theorem Instrumented.handleAll (sliceId : Nat) (l : List (Access N)) :
    ∀ {accesses : List (Access N)} {s : State N B T}, G.Instrumented accesses s →
      G.Instrumented (accesses ++ l) (G.handleAll sliceId l s).1 := by
  induction l with
  | nil =>
      intro accesses s h
      rw [List.append_nil]
      exact h
  | cons a rest ih =>
      intro accesses s h
      rw [List.append_cons]
      exact ih (h.access a sliceId)

theorem Instrumented.mark (h : G.Instrumented accesses s) (sliceId : Nat) (l : List (Access N))
    (buffId : Nat) : G.Instrumented (accesses ++ l) (G.mark sliceId l buffId s).2.1 :=
  (h.bookkeeping s.slices buffId).handleAll sliceId l

theorem Instrumented.handleFreeTarget (h : G.Instrumented accesses s) (ci : N) (target : T) :
    G.Instrumented accesses (G.handleFreeTarget ci s target) := by
  rw [DependenceGraph.handleFreeTarget]
  split
  · split
    · exact h.insertBefore _ _ rfl
    · exact h
  · exact h

theorem Instrumented.handleFreeFunc (h : G.Instrumented accesses s) (frees : List N) :
    G.Instrumented accesses (G.handleFreeFunc frees s) := by
  apply List.foldlRecOn (motive := fun s => G.Instrumented accesses s) _ _ h
  intro s hs ci _
  apply List.foldlRecOn (motive := fun s => G.Instrumented accesses s) _ _ hs
  exact fun s hs target _ => hs.handleFreeTarget ci target

theorem Instrumented.markStart (h : G.Instrumented accesses s) (sliceId : Nat) (frees : List N)
    (run : StartRun N) : G.Instrumented (accesses ++ (run.pass1 ++ run.pass2))
      (G.markStart sliceId frees run s).1 := by
  rw [DependenceGraph.markStart]
  apply handleFreeFunc
  rw [← List.append_assoc]
  apply mark
  apply mark
  have hpass0 := h.mark sliceId [] 0
  rwa [List.append_nil] at hpass0

/-- A run of the driver handles the accesses of its passes, start by start. -/
theorem Instrumented.markAll (sliceId : Nat) (frees : List N) (runs : List (StartRun N)) :
    ∀ {accesses : List (Access N)} {s : State N B T}, G.Instrumented accesses s →
      G.Instrumented (accesses ++ runs.flatMap fun run => run.pass1 ++ run.pass2)
        (G.markAll sliceId frees runs s).1 := by
  induction runs with
  | nil =>
      intro accesses s h
      rw [List.flatMap_nil, List.append_nil]
      exact h
  | cons run rest ih =>
      intro accesses s h
      rw [List.flatMap_cons, ← List.append_assoc]
      exact ih (h.markStart sliceId frees run)

end Driver

end DependenceGraph

/-! ## Two returns -/

namespace TwoReturns

/-- Block 0 of `f` allocates and branches to blocks 1 and 2. Block 1 returns; block 2 returns as well
or joins block 1. Block 3 is `g`, which loads from the buffer. -/
def graph (returns : Bool) : DependenceGraph (Fin 6) (Fin 4) String Unit where
  key
    | 0 => .instruction .alloca
    | 1 => .instruction (.br true)
    | 2 => .instruction .ret
    | 3 => .instruction (if returns then .ret else .br false)
    | 4 => .instruction .load
    | 5 => .instruction .ret
  nodes
    | 0 => [0, 1]
    | 1 => [2]
    | 2 => [3]
    | 3 => [4, 5]
  successors
    | 0 => [1, 2]
    | 2 => if returns then [] else [1]
    | _ => []
  predecessors
    | 1 => if returns then [0] else [0, 2]
    | 2 => [0]
    | _ => []
  idom
    | 1 => some 0
    | 2 => some 0
    | _ => none
  ipostdom _ := .root
  functionName b := if b = 3 then "g" else "f"
  functionBlocks f := if f = "f" then [0, 1, 2] else if f = "g" then [3] else []
  bblock
    | 0 => some 0
    | 1 => some 0
    | 2 => some 1
    | 3 => some 2
    | 4 => some 3
    | 5 => some 3
  dg n := if n = 4 ∨ n = 5 then some "g" else some "f"
  entry _ := none
  getNode f n := if f = "g" ↔ n = 4 ∨ n = 5 then some n else none
  control _ := []
  revControl _ := []
  data _ := []
  revData _ := []
  use _ := []
  user _ := []
  interference _ := []
  controlDependence _ := []
  revControlDependence _ := []
  userData _ := .instruction 0
  pointsTo _ _ := [()]

def access : Access (Fin 6) := ⟨4, 0⟩

def source (returns : Bool) : State (Fin 6) (Fin 4) Unit :=
  (graph returns).source ⟨fun _ => 1, fun _ => 1⟩

def state (returns : Bool) : State (Fin 6) (Fin 4) Unit :=
  ((graph returns).handlePreloading 4 1 0 ((graph returns).pointsTo 4) (source returns)).1

theorem instrumented (returns : Bool) : (graph returns).Instrumented [access] (state returns) :=
  .access access 1 (.source _)

theorem wellFormed (returns : Bool) : (graph returns).WellFormed where
  bblock := by cases returns <;> decide
  nodup := by cases returns <;> decide
  br_last := by cases returns <;> decide
  functionBlocks f b hb := by
    by_cases hf : f = "f"
    · subst hf
      revert b
      cases returns <;> decide
    · by_cases hg : f = "g"
      · subst hg
        revert b
        cases returns <;> decide
      · simp [graph, hf, hg] at hb
  control := by cases returns <;> decide

/-- **The second return pops nothing.** -/
theorem not_balanced : ¬ (graph true).Balanced (state true) := by
  intro hbal
  have hpath : Walk (graph true).Control 0 [0, 2] 2 := .cons (by decide) (.single 2)
  have hcount := hbal "f" 0 rfl _ 2 hpath (by decide) 1
  revert hcount
  decide

/-- Without it the stack is balanced. -/
theorem balanced_join : (graph false).Balanced (state false) := by
  refine (DependenceGraph.balanced_iff (graph false) (wellFormed false) (instrumented false)).2 ?_
  rintro ai ⟨t, -, hdata, -⟩ a e ha he
  obtain rfl := UserData.instruction.inj hdata
  obtain rfl := Option.some.inj ha
  obtain rfl := Option.some.inj he
  have hreturns : ∀ b, (graph false).Returns b → b = 1 ∨ b = 3 := by decide
  have hto : ∀ c, ¬ (graph false).Control c 0 ∧ ¬ (graph false).Control c 3 := by decide
  refine ⟨?_, ?_⟩
  · intro _ b hreach hb
    rcases hreturns b hb with rfl | rfl
    · decide
    · rcases hreach.cases_tail with heq | ⟨c, -, hc⟩
      · exact absurd heq (by decide)
      · exact absurd hc (hto c).2
  · intro x _ _
    refine ⟨Dominates.of_root x, ?_⟩
    intro hcycle
    obtain ⟨c, -, hc⟩ := Relation.TransGen.tail'_iff.1 hcycle
    exact (hto c).1 hc

end TwoReturns

end Cape.Slicing
