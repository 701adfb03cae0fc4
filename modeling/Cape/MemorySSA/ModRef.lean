import Cape.Library.FinLiterals
import Cape.Library.Summaries
import Cape.MemorySSA.DefinitionsMap

/-!
# Mod-ref information

`computeModRef`: the memory outside a procedure that the procedure and its callees may define or
use. A procedure counts as initialized before its blocks are scanned, so a member of a cycle of calls
takes what the summary of a callee under computation has so far.
-/

set_option autoImplicit false

namespace Cape.MemorySSA

open Cape.Library

universe u v w

variable {N : Type u} {B : Type v} {S : Type w}

/-- `ModRefInfo`. -/
structure ModRefInfo (N : Type u) where
  maydef : DefinitionsMap N
  mayref : DefinitionsMap N

namespace ModRefInfo

def empty : ModRefInfo N := ⟨.empty, .empty⟩

/-- `add`. -/
def add [DecidableEq N] (m oth : ModRefInfo N) : ModRefInfo N :=
  ⟨m.maydef.addMap oth.maydef, m.mayref.addMap oth.mayref⟩

end ModRefInfo

variable (G : ReadWriteGraph N B S)

/-- A procedure calls another one. -/
def ReadWriteGraph.Calls (p q : S) : Prop :=
  ∃ b ∈ G.bblocks p, ∃ n ∈ G.getNodes b, ∃ callees, G.getCallees n = some callees ∧
    .subgraph q ∈ callees

/-- The node `n` of the procedure has the effects of `v`: its own, or those of a called value. -/
inductive HasEffects (p : S) : N → N → Prop
  | node {b : B} {n : N} : b ∈ G.bblocks p → n ∈ G.getNodes b → G.getCall b = none →
      HasEffects p n n
  | called {b : B} {n v : N} {callees : List (CalledValue N S)} : b ∈ G.bblocks p →
      G.getCall b = some (n, callees) → .calledValue v ∈ callees → HasEffects p v n

variable [DecidableEq S]

/-- `canBeOutput`: the memory can escape, or is not of the procedure. -/
def canBeOutput (target : Memory N) (subg : Option S) : Bool :=
  match target with
  | .unknown => true
  | .node n =>
      G.canEscape n ||
        match G.getBBlock n with
        | none => true
        | some b => some (G.getSubgraph b) != subg

/-- The node of the procedure defines the bytes, which others can see. -/
def EscapingDef (p : S) (ds : DefSite N) (n : N) : Prop :=
  ∃ v, HasEffects G p v n ∧ (ds ∈ G.getDefines v ∨ ds ∈ G.getOverwrites v) ∧
    canBeOutput G ds.target (some p) = true

/-- The node of the procedure uses the bytes, which others can see. -/
def EscapingUse (p : S) (ds : DefSite N) (n : N) : Prop :=
  ∃ v, HasEffects G p v n ∧ ds ∈ G.getUses v ∧ canBeOutput G ds.target (some p) = true

/-- What the information of a procedure can say. -/
inductive ModRefFact (N : Type u) where
  | maydef (ds : DefSite N) (n : N)
  | mayref (ds : DefSite N) (n : N)

/-- The information says it. -/
def ModRefInfo.Says (m : ModRefInfo N) : ModRefFact N → Prop
  | .maydef ds n => m.maydef.Contains ds n
  | .mayref ds n => m.mayref.Contains ds n

/-- It is true of the procedure itself. -/
def Escapes (p : S) : ModRefFact N → Prop
  | .maydef ds n => EscapingDef G p ds n
  | .mayref ds n => EscapingUse G p ds n

variable [DecidableEq N]

/-- `modRefAdd`. -/
def modRefAdd (modref : DefinitionsMap N) (c : List (DefSite N)) (node : N) (subg : Option S) :
    DefinitionsMap N :=
  c.foldl (fun modref ds => if canBeOutput G ds.target subg then modref.add ds node else modref)
    modref

/-- The effects of the node `v`, as effects of `node`. -/
def addEffects (v node : N) (subg : Option S) (m : ModRefInfo N) : ModRefInfo N where
  maydef := modRefAdd G (modRefAdd G m.maydef (G.getDefines v) node subg) (G.getOverwrites v) node subg
  mayref := modRefAdd G m.mayref (G.getUses v) node subg

/-- `computeModRef`. The known procedures are those whose information is initialized. -/
def computeModRef : Nat → S → Summaries S (ModRefInfo N) → Summaries S (ModRefInfo N)
  | 0, _, st => st
  | fuel + 1, subg, st =>
      if st.known subg then st
      else
        (G.bblocks subg).foldl (fun st b =>
          match G.getCall b with
          | some (C, callees) =>
              callees.foldl (fun st callee =>
                match callee with
                | .subgraph csubg =>
                    (computeModRef fuel csubg st).modify subg fun m =>
                      m.add ((computeModRef fuel csubg st).summary csubg)
                -- an undefined function
                | .calledValue v => st.modify subg (addEffects G v C none)) st
          | none =>
              (G.getNodes b).foldl (fun st node => st.modify subg (addEffects G node node (some subg))) st)
          (st.setKnown subg)

/-- Requests of procedures, one after the other. -/
def computeModRefs [Fintype S] (rs : List S) : Summaries S (ModRefInfo N) :=
  rs.foldl (fun st r => computeModRef G (Fintype.card S + 1) r st) (nothingKnown .empty)

/-! ## The scan of a procedure -/

/-- What `computeModRef` does for one block. -/
def blockItems (subg : S) (b : B) : List (Item S (ModRefInfo N)) :=
  match G.getCall b with
  | some (C, callees) =>
      callees.map fun callee =>
        match callee with
        | .subgraph csubg => .call csubg
        | .calledValue v => .own (addEffects G v C none)
  | none => (G.getNodes b).map fun node => .own (addEffects G node node (some subg))

def items (subg : S) : List (Item S (ModRefInfo N)) := (G.bblocks subg).flatMap (blockItems G subg)

theorem computeModRef_eq (fuel : Nat) (subg : S) (st : Summaries S (ModRefInfo N)) :
    computeModRef G fuel subg st = request (items G) ModRefInfo.add fuel subg st := by
  induction fuel generalizing subg st with
  | zero => rfl
  | succ fuel ih =>
      unfold computeModRef request items
      split
      · rfl
      · rw [List.foldl_flatMap]
        congr 1
        funext st b
        unfold blockItems
        cases G.getCall b with
        | none =>
            rw [List.foldl_map]
            rfl
        | some C =>
            obtain ⟨C, callees⟩ := C
            simp only [List.foldl_map]
            congr 1
            funext st callee
            cases callee with
            | subgraph csubg =>
                simp only [ih, Summaries.take]
                rfl
            | calledValue v => rfl

theorem computeModRefs_eq [Fintype S] (rs : List S) :
    computeModRefs G rs =
      requests (items G) ModRefInfo.add (Fintype.card S + 1) rs (nothingKnown .empty) := by
  rw [computeModRefs, requests]
  congr 1
  funext st r
  exact computeModRef_eq G _ r st

theorem has_modRefAdd {modref : DefinitionsMap N} {c : List (DefSite N)} {node : N}
    {subg : Option S} {t : Memory N} {b : Offset} (hb : b ≠ .unknown) {w : N} :
    (modRefAdd G modref c node subg).Has t b w ↔ modref.Has t b w ∨ ∃ ds ∈ c,
      canBeOutput G ds.target subg = true ∧ t = ds.target ∧ b ∈ ds.getInterval ∧ w = node := by
  induction c generalizing modref with
  | nil => simp [modRefAdd]
  | cons ds c ih =>
      show (modRefAdd G (if canBeOutput G ds.target subg then modref.add ds node else modref) c node
        subg).Has t b w ↔ _
      rw [ih]
      split
      · next h =>
          rw [DefinitionsMap.has_add hb]
          simp [h, or_assoc]
      · next h => simp [h]

theorem has_addEffects {v node : N} {subg : Option S} {m : ModRefInfo N} {t : Memory N}
    {b : Offset} (hb : b ≠ .unknown) {w : N} :
    ((addEffects G v node subg m).maydef.Has t b w ↔ m.maydef.Has t b w ∨
        ∃ ds, (ds ∈ G.getDefines v ∨ ds ∈ G.getOverwrites v) ∧
          canBeOutput G ds.target subg = true ∧ t = ds.target ∧ b ∈ ds.getInterval ∧ w = node) ∧
      ((addEffects G v node subg m).mayref.Has t b w ↔ m.mayref.Has t b w ∨
        ∃ ds ∈ G.getUses v,
          canBeOutput G ds.target subg = true ∧ t = ds.target ∧ b ∈ ds.getInterval ∧ w = node) := by
  refine ⟨?_, has_modRefAdd G hb⟩
  rw [addEffects]
  simp only [has_modRefAdd G hb, or_assoc, or_and_right, exists_or]

omit [DecidableEq N] [DecidableEq S] in
theorem getCall_eq_some {b : B} {C : N} {callees : List (CalledValue N S)} :
    G.getCall b = some (C, callees) ↔
      G.getNodes b = [C] ∧ G.getCallees C = some callees ∧ callsDefined callees = true := by
  rw [ReadWriteGraph.getCall]
  constructor
  · intro h
    split at h
    · next n hnodes =>
        split at h
        · next callees' hcallees =>
            split at h
            · next hdefined =>
                obtain ⟨rfl, rfl⟩ := Prod.mk.inj (Option.some.inj h)
                exact ⟨hnodes, hcallees, hdefined⟩
            · cases h
        · cases h
    · cases h
  · rintro ⟨hnodes, hcallees, hdefined⟩
    simp [hnodes, hcallees, hdefined]

/-- The items that are contributions. -/
theorem own_mem_items {p : S} {g : ModRefInfo N → ModRefInfo N} (h : .own g ∈ items G p) :
    ∃ v n subg, g = addEffects G v n subg := by
  obtain ⟨b, -, hi⟩ := List.mem_flatMap.1 h
  rw [blockItems] at hi
  split at hi
  · obtain ⟨callee, -, hi⟩ := List.mem_map.1 hi
    cases callee with
    | subgraph c => cases hi
    | calledValue v => exact ⟨v, _, none, (Item.own.inj hi).symm⟩
  · obtain ⟨n, -, hi⟩ := List.mem_map.1 hi
    exact ⟨n, n, some p, (Item.own.inj hi).symm⟩

/-- The calls among the items are those of the call graph. -/
theorem calls_items (p q : S) : Calls (items G) p q ↔ G.Calls p q := by
  constructor
  · intro h
    obtain ⟨b, hb, hi⟩ := List.mem_flatMap.1 h
    rw [blockItems] at hi
    split at hi
    · next C callees hcall =>
        obtain ⟨callee, hcallee, hi⟩ := List.mem_map.1 hi
        obtain ⟨hnodes, hcallees, -⟩ := (getCall_eq_some G).1 hcall
        cases callee with
        | subgraph c =>
            rw [← Item.call.inj hi]
            exact ⟨b, hb, C, by simp [hnodes], callees, hcallees, hcallee⟩
        | calledValue v => cases hi
    · obtain ⟨n, -, hi⟩ := List.mem_map.1 hi
      cases hi
  · rintro ⟨b, hb, n, hn, callees, hcallees, hq⟩
    have hdefined : callsDefined callees = true := List.any_eq_true.2 ⟨_, hq, rfl⟩
    have hcall : G.getCall b = some (n, callees) :=
      (getCall_eq_some G).2 ⟨G.call_alone b n hn callees hcallees hdefined, hcallees, hdefined⟩
    apply List.mem_flatMap.2 ⟨b, hb, _⟩
    rw [blockItems]
    rw [hcall]
    exact List.mem_map.2 ⟨_, hq, rfl⟩

/-- A node with effects contributes them. -/
theorem own_of_hasEffects {p : S} {v n : N} (h : HasEffects G p v n) :
    ∃ subg, (subg = some p ∨ subg = none) ∧ .own (addEffects G v n subg) ∈ items G p := by
  cases h with
  | node hb hn hcall =>
      refine ⟨some p, Or.inl rfl, List.mem_flatMap.2 ⟨_, hb, ?_⟩⟩
      rw [blockItems]
      rw [hcall]
      exact List.mem_map.2 ⟨_, hn, rfl⟩
  | called hb hcall hv =>
      refine ⟨none, Or.inr rfl, List.mem_flatMap.2 ⟨_, hb, ?_⟩⟩
      rw [blockItems]
      rw [hcall]
      exact List.mem_map.2 ⟨_, hv, rfl⟩

omit [DecidableEq N] in
/-- What can be seen outside a procedure can be seen outside an undefined function. -/
theorem canBeOutput_none {p : S} {t : Memory N} (h : canBeOutput G t (some p) = true) :
    canBeOutput G t none = true := by
  cases t with
  | unknown => rfl
  | node n =>
      cases hb : G.getBBlock n with
      | none => simp [canBeOutput, hb]
      | some b => simp [canBeOutput, hb]

theorem additive_items : Additive (items G) ModRefInfo.add ModRefInfo.Says where
  own := by
    intro p g hg m f hf
    obtain ⟨v, n, subg, rfl⟩ := own_mem_items G hg
    cases f with
    | maydef ds w => exact hf.mono fun t b hb w h => (has_addEffects G hb).1.2 (Or.inl h)
    | mayref ds w => exact hf.mono fun t b hb w h => (has_addEffects G hb).2.2 (Or.inl h)
  left := by
    intro m m' f hf
    cases f with
    | maydef ds w => exact hf.mono fun t b hb w h => (DefinitionsMap.has_addMap hb).2 (Or.inl h)
    | mayref ds w => exact hf.mono fun t b hb w h => (DefinitionsMap.has_addMap hb).2 (Or.inl h)
  right := by
    intro m m' f hf
    cases f with
    | maydef ds w => exact hf.mono fun t b hb w h => (DefinitionsMap.has_addMap hb).2 (Or.inr h)
    | mayref ds w => exact hf.mono fun t b hb w h => (DefinitionsMap.has_addMap hb).2 (Or.inr h)

/-- The scan of a procedure notes what escapes from it. -/
theorem contributes_of_escapes {p : S} {f : ModRefFact N} (h : Escapes G p f) :
    Contributes (items G) ModRefInfo.Says p f := by
  have hseen : ∀ {t subg}, canBeOutput G t (some p) = true → (subg = some p ∨ subg = none) →
      canBeOutput G t subg = true := by
    rintro t subg hout (rfl | rfl)
    · exact hout
    · exact canBeOutput_none G hout
  cases f with
  | maydef ds n =>
      obtain ⟨v, heffects, hds, hout⟩ := h
      obtain ⟨subg, hsubg, hmem⟩ := own_of_hasEffects G heffects
      refine ⟨_, hmem, fun m b hb hknown => ?_⟩
      exact (has_addEffects G hknown).1.2 (Or.inr ⟨ds, hds, hseen hout hsubg, rfl, hb, rfl⟩)
  | mayref ds n =>
      obtain ⟨v, heffects, hds, hout⟩ := h
      obtain ⟨subg, hsubg, hmem⟩ := own_of_hasEffects G heffects
      refine ⟨_, hmem, fun m b hb hknown => ?_⟩
      exact (has_addEffects G hknown).2.2 (Or.inr ⟨ds, hds, hseen hout hsubg, rfl, hb, rfl⟩)

/-- **Mod-ref information is complete** for every procedure that is requested, when each cycle of
calls is entered at one procedure only. -/
theorem modref_complete [Fintype S] {rs rs₁ rs₂ : List S} {f : S} (hone : OneEntry G.Calls rs)
    (hrs : rs = rs₁ ++ f :: rs₂) {p : S} (hreach : CallReaches G.Calls f p) :
    (∀ ds n, EscapingDef G p ds n →
        ((computeModRefs G (rs₁ ++ [f])).summary f).maydef.Contains ds n) ∧
      ∀ ds n, EscapingUse G p ds n →
        ((computeModRefs G (rs₁ ++ [f])).summary f).mayref.Contains ds n := by
  have hcalls : Calls (items G) = G.Calls := by
    funext p q
    exact propext (calls_items G p q)
  rw [computeModRefs_eq]
  have hone' : OneEntry (Calls (items G)) rs := by rwa [hcalls]
  have hcomplete := complete_requests (additive_items G) hone' ModRefInfo.empty
    (Nat.lt_succ_self (Fintype.card S)) hrs
  rw [← hcalls] at hreach
  exact ⟨fun ds n h => hcomplete p (.maydef ds n) hreach (contributes_of_escapes G h),
    fun ds n h => hcomplete p (.mayref ds n) hreach (contributes_of_escapes G h)⟩

/-- `f() { g(); x = 1; }` and `g() { f(); }` with a global `x`. -/
def callEachOther : ReadWriteGraph (Fin 4) (Fin 3) (Fin 2) where
  getDefines := fun _ => []
  getOverwrites := ![[], [⟨.node 3, 0, 4⟩], [], []]
  getUses := fun _ => []
  getCallees := ![some [.subgraph 1], none, some [.subgraph 0], none]
  canEscape := ![false, false, false, true]
  getBBlock := ![some 0, some 1, some 2, none]
  getNodes := ![[0], [1], [2]]
  predecessors := ![[], [0], []]
  getSubgraph := ![0, 0, 1]
  bblocks := ![[0, 1], [2]]
  call_alone := by decide

theorem calls_callEachOther : callEachOther.Calls 0 1 ∧ callEachOther.Calls 1 0 :=
  ⟨⟨0, by decide, 0, by decide, _, rfl, by decide⟩, ⟨2, by decide, 2, by decide, _, rfl, by decide⟩⟩

theorem escapingDef_callEachOther : EscapingDef callEachOther 0 ⟨.node 3, 0, 4⟩ 1 :=
  ⟨1, .node (b := 1) (by decide) (by decide) (by decide), Or.inr (by decide), by decide⟩

theorem oneEntry_callEachOther : OneEntry callEachOther.Calls [0] := by
  have hcycle : ∀ x y : Fin 2, CallReaches callEachOther.Calls x y := by
    have h₀ : CallReaches callEachOther.Calls 0 1 := .single calls_callEachOther.1
    have h₁ : CallReaches callEachOther.Calls 1 0 := .single calls_callEachOther.2
    intro x y
    fin_cases x <;> fin_cases y
    · exact .refl
    · exact h₀
    · exact h₁
    · exact .refl
  have hentry : ∀ x, IsEntry callEachOther.Calls [0] x → x = 0 := by
    rintro x (hx | ⟨u, -, -, hnot⟩)
    · exact List.mem_singleton.1 hx
    · exact absurd (hcycle x u) hnot
  intro x y hx hy _ _
  rw [hentry x hx, hentry y hy]

/-- The first request finds the definition of `x`. -/
theorem modref_complete_callEachOther :
    ((computeModRefs callEachOther [0]).summary 0).maydef.Contains ⟨.node 3, 0, 4⟩ 1 :=
  (modref_complete callEachOther oneEntry_callEachOther (show [0] = [] ++ 0 :: [] from rfl) .refl).1
    _ _ escapingDef_callEachOther

/-- The request of `f` computes the information of `g` when that of `f` is not complete; a request of
`g` finds it as it is. -/
theorem incomplete_in_cycle : CallReaches callEachOther.Calls 1 0 ∧
    EscapingDef callEachOther 0 ⟨.node 3, 0, 4⟩ 1 ∧
      ¬ ((computeModRefs callEachOther ([0] ++ [1])).summary 1).maydef.Contains ⟨.node 3, 0, 4⟩ 1 := by
  refine ⟨.single calls_callEachOther.2, escapingDef_callEachOther, fun h => ?_⟩
  have hnothing : ((computeModRefs callEachOther ([0] ++ [1])).summary 1).maydef.offsets (.node 3) =
      [] := by decide
  have hbyte := h 0 (by decide) (by decide)
  rw [DefinitionsMap.Has] at hbyte
  rw [hnothing] at hbyte
  exact DisjunctiveIntervalMap.has_nil _ _ hbyte

end Cape.MemorySSA
