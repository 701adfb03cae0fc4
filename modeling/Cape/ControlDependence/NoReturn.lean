import Cape.Library.FallibleLoop
import Mathlib.Data.Fintype.Card
import Mathlib.Logic.Relation

/-!
# Calls that may not return

`LLVMInterprocCD::computeFuncInfo` goes through the functions that a function calls, depth first, and
gathers the points from which control may not come back: blocks that end without a return, and calls.
`noret_iff`: whatever functions are asked for, and in whatever order, a call is such a point exactly
if a function that it calls leads to a block that ends without a return or to a cycle of calls.
-/

set_option autoImplicit false

namespace Cape.ControlDependence.InterprocCD

open Cape.Library Relation

/-- The functions of a module with their blocks. -/
structure Module (Fn B I : Type) where
  isDeclaration : Fn → Bool
  blocks : Fn → List B
  instructions : B → List I
  terminator : B → I
  successors : B → List B
  isCall : I → Bool
  isReturn : I → Bool
  /-- `getCalledFunctions`: one function, or those that the pointer may point to. -/
  getCalledFunctions : I → List Fn
  terminator_not_call : ∀ b, isCall (terminator b) = false

/-- `_funcInfos`: the set `noret` of each function that has one. -/
abbrev FuncInfos (Fn I : Type) : Type := Fn → Option (Finset I)

/-- The function, the functions that are being computed, and the infos. -/
abbrev Recursion (Fn I : Type) : Type :=
  Fn → List Fn → FuncInfos Fn I → Option (FuncInfos Fn I)

section

variable {Fn B I : Type} [DecidableEq Fn] [DecidableEq I]

namespace FuncInfos

/-- `info.noret.insert`. -/
def addNoret (F : Fn) (i : I) (s : FuncInfos Fn I) : FuncInfos Fn I :=
  Function.update s F ((s F).map (insert i))

end FuncInfos

namespace Module

variable (M : Module Fn B I)

/-- No successors, and does not return to the caller. -/
def endsWithoutReturn (b : B) : Bool :=
  (M.successors b).isEmpty && !M.isReturn (M.terminator b)

/-- A function that is called at `C` in `F`. -/
def processCallee (computeFuncInfo : Recursion Fn I) (F : Fn) (stack : List Fn) (C : I)
    (s : FuncInfos Fn I) (calledFun : Fn) : Option (FuncInfos Fn I) :=
  if M.isDeclaration calledFun then some s
  else if calledFun ∈ stack then some (s.addNoret F C)
  else do
    let s ← computeFuncInfo calledFun stack s
    let fi ← s calledFun
    some (if fi = ∅ then s else s.addNoret F C)

def processInstruction (computeFuncInfo : Recursion Fn I) (F : Fn) (stack : List Fn)
    (s : FuncInfos Fn I) (i : I) : Option (FuncInfos Fn I) :=
  if M.isCall i then
    (M.getCalledFunctions i).foldlM (M.processCallee computeFuncInfo F stack i) s
  else some s

def processBlock (computeFuncInfo : Recursion Fn I) (F : Fn) (stack : List Fn)
    (s : FuncInfos Fn I) (b : B) : Option (FuncInfos Fn I) :=
  (M.instructions b).foldlM (M.processInstruction computeFuncInfo F stack)
    (if M.endsWithoutReturn b then s.addNoret F (M.terminator b) else s)

/-- `computeFuncInfo`, to a depth of nested functions. The stack is copied. -/
def computeFuncInfo : Nat → Recursion Fn I
  | 0, _, _, _ => none
  | depth + 1, F, stack, s =>
      if M.isDeclaration F || (s F).isSome then some s
      else (M.blocks F).foldlM (M.processBlock (computeFuncInfo depth) F (F :: stack))
        (Function.update s F (some ∅))

/-- Functions asked for one after the other. -/
def compute (depth : Nat) (requests : List Fn) : Option (FuncInfos Fn I) :=
  requests.foldlM (fun s F => M.computeFuncInfo depth F [] s) fun _ => none

/-! ## What is to be computed -/

/-- A call in the function. -/
def HasCall (F : Fn) (C : I) : Prop := ∃ b ∈ M.blocks F, C ∈ M.instructions b ∧ M.isCall C = true

/-- A function that is defined is called at `C`. -/
def CalledAt (C : I) (G : Fn) : Prop := G ∈ M.getCalledFunctions C ∧ M.isDeclaration G = false

/-- The edges of the call graph. -/
def Calls (F G : Fn) : Prop := ∃ C, M.HasCall F C ∧ M.CalledAt C G

/-- The function leads to a block that ends without a return, or to a cycle of calls. -/
def MayNotReturn (F : Fn) : Prop :=
  ∃ G, ReflTransGen M.Calls F G ∧
    ((∃ b ∈ M.blocks G, M.endsWithoutReturn b = true) ∨ TransGen M.Calls G G)

/-- What belongs into `noret`. -/
def IsNoret (F : Fn) (i : I) : Prop :=
  (∃ b ∈ M.blocks F, M.endsWithoutReturn b = true ∧ i = M.terminator b) ∨
    (M.HasCall F i ∧ ∃ G, M.CalledAt i G ∧ M.MayNotReturn G)

variable {M}

omit [DecidableEq Fn] [DecidableEq I] in
/-- What is in `noret` is there for a reason that the function is not to return. -/
theorem mayNotReturn_iff {F : Fn} : M.MayNotReturn F ↔ ∃ i, M.IsNoret F i := by
  constructor
  · rintro ⟨G, hway, hG⟩
    obtain rfl | ⟨H, ⟨C, hC, hcalled⟩, hrest⟩ := hway.cases_head
    · obtain ⟨b, hb, hend⟩ | hcycle := hG
      · exact ⟨_, .inl ⟨b, hb, hend, rfl⟩⟩
      · -- the first call on the cycle leads back to the function
        obtain ⟨H, ⟨C, hC, hcalled⟩, hback⟩ := TransGen.head'_iff.1 hcycle
        exact ⟨C, .inr ⟨hC, H, hcalled, F, hback, .inr hcycle⟩⟩
    · exact ⟨C, .inr ⟨hC, H, hcalled, G, hrest, hG⟩⟩
  · rintro ⟨i, ⟨b, hb, hend, -⟩ | ⟨hC, G, hcalled, H, hway, hH⟩⟩
    · exact ⟨F, .refl, .inl ⟨b, hb, hend⟩⟩
    · exact ⟨H, .head ⟨i, hC, hcalled⟩ hway, hH⟩

end Module

/-- The point is in `noret` of the function. -/
def FuncInfos.Has (s : FuncInfos Fn I) (F : Fn) (i : I) : Prop := ∃ noret ∈ s F, i ∈ noret

namespace FuncInfos

theorem addNoret_of_ne {F G : Fn} (h : G ≠ F) (i : I) (s : FuncInfos Fn I) :
    s.addNoret F i G = s G :=
  Function.update_of_ne h _ _

theorem isSome_addNoret (F G : Fn) (i : I) (s : FuncInfos Fn I) :
    (s.addNoret F i G).isSome = (s G).isSome := by
  by_cases h : G = F
  · subst h
    rw [addNoret, Function.update_self, Option.isSome_map]
  · rw [addNoret_of_ne h]

theorem has_addNoret {F : Fn} {i j : I} {s : FuncInfos Fn I} (hF : (s F).isSome) :
    (s.addNoret F i).Has F j ↔ j = i ∨ s.Has F j := by
  obtain ⟨noret, hnoret⟩ := Option.isSome_iff_exists.1 hF
  rw [Has, Has, addNoret, Function.update_self, hnoret]
  simp

end FuncInfos

namespace Module

variable (M : Module Fn B I)

/-- The infos that are not in computation are exact. -/
def Exact (stack : List Fn) (s : FuncInfos Fn I) : Prop :=
  ∀ F ∉ stack, ∀ noret ∈ s F, ∀ i, i ∈ noret ↔ M.IsNoret F i

/-- The state while `F` is computed, called by the functions on the stack. -/
structure InProgress (F : Fn) (stack : List Fn) (s : FuncInfos Fn I) : Prop where
  fresh : F ∉ stack
  chain : ∀ G ∈ stack, TransGen M.Calls G F
  started : ∀ G ∈ F :: stack, (s G).isSome
  exact : M.Exact (F :: stack) s
  sound : ∀ i, s.Has F i → M.IsNoret F i

/-- What a part of the computation of `F` does. -/
structure Keeps (F : Fn) (stack : List Fn) (s t : FuncInfos Fn I) : Prop where
  frame : ∀ G ∈ stack, t G = s G
  known : ∀ G, (s G).isSome → (t G).isSome
  grows : ∀ i, s.Has F i → t.Has F i
  inProgress : M.InProgress F stack s → M.InProgress F stack t

/-- What a recursive call does. -/
def ComputesInfo (computeFuncInfo : Recursion Fn I) : Prop :=
  ∀ F stack s t, F ∉ stack → (∀ G ∈ stack, TransGen M.Calls G F) →
    (∀ G ∈ stack, (s G).isSome) → M.Exact stack s → computeFuncInfo F stack s = some t →
      M.Exact stack t ∧ (∀ G ∈ stack, t G = s G) ∧ (∀ G, (s G).isSome → (t G).isSome) ∧
        (M.isDeclaration F = false → (t F).isSome)

variable {M}

omit [DecidableEq Fn] [DecidableEq I] in
theorem Keeps.refl (F : Fn) (stack : List Fn) (s : FuncInfos Fn I) : M.Keeps F stack s s :=
  ⟨fun _ _ => rfl, fun _ h => h, fun _ h => h, fun h => h⟩

omit [DecidableEq Fn] [DecidableEq I] in
theorem Keeps.trans {F : Fn} {stack : List Fn} {s t u : FuncInfos Fn I} (h : M.Keeps F stack s t)
    (k : M.Keeps F stack t u) : M.Keeps F stack s u :=
  ⟨fun G hG => (k.frame G hG).trans (h.frame G hG), fun G hG => k.known G (h.known G hG),
    fun i hi => k.grows i (h.grows i hi), fun hs => k.inProgress (h.inProgress hs)⟩

theorem keeps_addNoret {F : Fn} {stack : List Fn} {s : FuncInfos Fn I} {i : I}
    (hs : M.InProgress F stack s) (hi : M.IsNoret F i) :
    M.Keeps F stack s (s.addNoret F i) ∧ (s.addNoret F i).Has F i := by
  have hF := hs.started F List.mem_cons_self
  have hne : ∀ G ∈ stack, G ≠ F := fun G hG h => hs.fresh (h ▸ hG)
  refine ⟨⟨fun G hG => FuncInfos.addNoret_of_ne (hne G hG) i s, fun G hG => ?_, fun j hj => ?_,
    fun _ => ⟨hs.fresh, hs.chain, fun G hG => ?_, fun G hG noret hnoret => ?_, fun j hj => ?_⟩⟩, ?_⟩
  · rwa [FuncInfos.isSome_addNoret]
  · exact (FuncInfos.has_addNoret hF).2 (.inr hj)
  · rw [FuncInfos.isSome_addNoret]
    exact hs.started G hG
  · rw [FuncInfos.addNoret_of_ne (List.ne_of_not_mem_cons hG)] at hnoret
    exact hs.exact G hG noret hnoret
  · obtain rfl | hj := (FuncInfos.has_addNoret hF).1 hj
    · exact hi
    · exact hs.sound j hj
  · exact (FuncInfos.has_addNoret hF).2 (.inl rfl)

omit [DecidableEq Fn] [DecidableEq I] in
/-- The info of a called function is computed before it is read. -/
theorem keeps_recursion {create : Recursion Fn I} (hcreate : M.ComputesInfo create) {F G : Fn}
    {stack : List Fn} {s t : FuncInfos Fn I} (hs : M.InProgress F stack s)
    (hG : G ∉ F :: stack) (hcalls : M.Calls F G) (ht : create G (F :: stack) s = some t) :
    M.Keeps F stack s t ∧ (M.isDeclaration G = false → (t G).isSome) := by
  have hchain : ∀ H ∈ F :: stack, TransGen M.Calls H G := by
    intro H hH
    obtain rfl | hH := List.mem_cons.1 hH
    · exact .single hcalls
    · exact (hs.chain H hH).tail hcalls
  obtain ⟨hexact, hframe, hknown, hsome⟩ :=
    hcreate G (F :: stack) s t hG hchain hs.started hs.exact ht
  have hF : t F = s F := hframe F List.mem_cons_self
  have hhas : ∀ i, t.Has F i ↔ s.Has F i := fun i => by rw [FuncInfos.Has, FuncInfos.Has, hF]
  refine ⟨⟨fun H hH => hframe H (List.mem_cons_of_mem F hH), hknown, fun i hi => (hhas i).2 hi,
    fun _ => ⟨hs.fresh, hs.chain, fun H hH => ?_, hexact, fun i hi => hs.sound i ((hhas i).1 hi)⟩⟩,
    hsome⟩
  rw [hframe H hH]
  exact hs.started H hH

theorem processCallee_spec {create : Recursion Fn I} (hcreate : M.ComputesInfo create) {F : Fn}
    {stack : List Fn} {s t : FuncInfos Fn I} (hs : M.InProgress F stack s) {C : I}
    (hC : M.HasCall F C) {G : Fn} (hG : G ∈ M.getCalledFunctions C)
    (ht : M.processCallee create F (F :: stack) C s G = some t) :
    M.Keeps F stack s t ∧ (M.CalledAt C G → M.MayNotReturn G → t.Has F C) := by
  rw [processCallee] at ht
  split at ht
  · next hdecl =>
      obtain rfl := Option.some.inj ht
      refine ⟨.refl F stack s, fun hcalled => ?_⟩
      exact absurd (hdecl.symm.trans hcalled.2) Bool.true_eq_false_eq_False
  · next hdecl =>
      have hcalled : M.CalledAt C G := ⟨hG, Bool.eq_false_iff.2 hdecl⟩
      have hcalls : M.Calls F G := ⟨C, hC, hcalled⟩
      split at ht
      · next hstack =>
          obtain rfl := Option.some.inj ht
          -- the called function is below on the stack, so this call closes a cycle
          have hcycle : TransGen M.Calls G G := by
            obtain rfl | hmem := List.mem_cons.1 hstack
            · exact .single hcalls
            · exact (hs.chain G hmem).tail hcalls
          have hmay : M.MayNotReturn G := ⟨G, .refl, .inr hcycle⟩
          obtain ⟨hkeeps, hhas⟩ := keeps_addNoret hs (.inr ⟨hC, G, hcalled, hmay⟩)
          exact ⟨hkeeps, fun _ _ => hhas⟩
      · next hstack =>
          obtain ⟨u, hu, ht⟩ := Option.bind_eq_some_iff.1 ht
          obtain ⟨fi, hfi, ht⟩ := Option.bind_eq_some_iff.1 ht
          obtain ⟨hkeeps, -⟩ := keeps_recursion hcreate hs hstack hcalls hu
          have hu' := hkeeps.inProgress hs
          have hexact := hu'.exact G hstack fi hfi
          have hmay : M.MayNotReturn G ↔ fi ≠ ∅ := by
            rw [mayNotReturn_iff, ← Finset.nonempty_iff_ne_empty]
            exact exists_congr fun i => (hexact i).symm
          split at ht
          · next hempty =>
              obtain rfl := Option.some.inj ht
              exact ⟨hkeeps, fun _ h => absurd hempty (hmay.1 h)⟩
          · next hne =>
              obtain rfl := Option.some.inj ht
              obtain ⟨hkeeps', hhas⟩ := keeps_addNoret hu' (.inr ⟨hC, G, hcalled, hmay.2 hne⟩)
              exact ⟨hkeeps.trans hkeeps', fun _ _ => hhas⟩

theorem processInstruction_spec {create : Recursion Fn I} (hcreate : M.ComputesInfo create)
    {F : Fn} {stack : List Fn} {s t : FuncInfos Fn I} (hs : M.InProgress F stack s) {b : B}
    (hb : b ∈ M.blocks F) {i : I} (hi : i ∈ M.instructions b)
    (ht : M.processInstruction create F (F :: stack) s i = some t) :
    M.Keeps F stack s t ∧
      (M.isCall i = true → ∀ G, M.CalledAt i G → M.MayNotReturn G → t.Has F i) := by
  rw [processInstruction] at ht
  split at ht
  · next hcall =>
      obtain ⟨hkeeps, hdone⟩ := FallibleLoop.each_done (Keeps.refl F stack) Keeps.trans
        (P := fun G u => M.CalledAt i G → M.MayNotReturn G → u.Has F i)
        (fun hle hP hcalled hmay => hle.grows i (hP hcalled hmay))
        (fun G hG u u' hsu hu =>
          processCallee_spec hcreate (hsu.inProgress hs) ⟨b, hb, hi, hcall⟩ hG hu) ht
      exact ⟨hkeeps, fun _ G hG => hdone G hG.1 hG⟩
  · next hcall =>
      obtain rfl := Option.some.inj ht
      exact ⟨.refl F stack s, fun h => absurd h hcall⟩

theorem processBlock_spec {create : Recursion Fn I} (hcreate : M.ComputesInfo create)
    {F : Fn} {stack : List Fn} {s t : FuncInfos Fn I} (hs : M.InProgress F stack s) {b : B}
    (hb : b ∈ M.blocks F) (ht : M.processBlock create F (F :: stack) s b = some t) :
    M.Keeps F stack s t ∧ (M.endsWithoutReturn b = true → t.Has F (M.terminator b)) ∧
      ∀ i ∈ M.instructions b, M.isCall i = true →
        ∀ G, M.CalledAt i G → M.MayNotReturn G → t.Has F i := by
  have hstart : ∃ u, (if M.endsWithoutReturn b then s.addNoret F (M.terminator b) else s) = u ∧
      M.Keeps F stack s u ∧ (M.endsWithoutReturn b = true → u.Has F (M.terminator b)) := by
    refine ⟨_, rfl, ?_⟩
    split
    · next hend =>
        obtain ⟨hkeeps, hhas⟩ := keeps_addNoret hs (.inl ⟨b, hb, hend, rfl⟩)
        exact ⟨hkeeps, fun _ => hhas⟩
    · next hend => exact ⟨.refl F stack s, fun h => absurd h hend⟩
  obtain ⟨u, hu, hkeeps, hend⟩ := hstart
  rw [processBlock, hu] at ht
  obtain ⟨hkeeps', hdone⟩ := FallibleLoop.each_done (Keeps.refl F stack) Keeps.trans
    (P := fun i v => M.isCall i = true →
      ∀ G, M.CalledAt i G → M.MayNotReturn G → v.Has F i)
    (fun hle hP hcall G hG hmay => hle.grows _ (hP hcall G hG hmay))
    (fun i hi v v' huv hv =>
      processInstruction_spec hcreate (huv.inProgress (hkeeps.inProgress hs)) hb hi hv) ht
  exact ⟨hkeeps.trans hkeeps', fun h => hkeeps'.grows _ (hend h), hdone⟩

/-- What is computed is exact, as soon as the computation has returned. -/
theorem computeFuncInfo_spec (depth : Nat) : M.ComputesInfo (M.computeFuncInfo depth) := by
  induction depth with
  | zero => exact fun F stack s t _ _ _ _ ht => absurd ht (Option.some_ne_none t).symm
  | succ depth ih =>
      intro F stack s t hfresh hchain hstarted hexact ht
      rw [computeFuncInfo] at ht
      split at ht
      · next hdone =>
          obtain rfl := Option.some.inj ht
          refine ⟨hexact, fun _ _ => rfl, fun _ h => h, fun hdecl => ?_⟩
          obtain h | h := Bool.or_eq_true_iff.1 hdone
          · exact absurd (hdecl.symm.trans h) Bool.false_ne_true
          · exact h
      · next hnew =>
          -- the function has an empty entry while its blocks are processed
          have hstart : M.InProgress F stack (Function.update s F (some ∅)) := by
            refine ⟨hfresh, hchain, fun G hG => ?_, fun G hG noret hnoret => ?_, fun i hi => ?_⟩
            · obtain rfl | hG := List.mem_cons.1 hG
              · rw [Function.update_self, Option.isSome_some]
              · rw [Function.update_of_ne (ne_of_mem_of_not_mem hG hfresh)]
                exact hstarted G hG
            · rw [Function.update_of_ne (List.ne_of_not_mem_cons hG)] at hnoret
              exact hexact G (List.not_mem_of_not_mem_cons hG) noret hnoret
            · obtain ⟨noret, hnoret, hi⟩ := hi
              rw [Function.update_self] at hnoret
              obtain rfl := Option.some.inj hnoret
              exact absurd hi (Finset.notMem_empty i)
          obtain ⟨hkeeps, hdone⟩ := FallibleLoop.each_done (Keeps.refl F stack) Keeps.trans
            (P := fun b u => (M.endsWithoutReturn b = true → u.Has F (M.terminator b)) ∧
              ∀ i ∈ M.instructions b, M.isCall i = true →
                ∀ G, M.CalledAt i G → M.MayNotReturn G → u.Has F i)
            (fun hle hP => ⟨fun h => hle.grows _ (hP.1 h),
              fun i hi hcall G hG hmay => hle.grows i (hP.2 i hi hcall G hG hmay)⟩)
            (fun b hb u u' hsu hu => processBlock_spec ih (hsu.inProgress hstart) hb hu) ht
          have hend := hkeeps.inProgress hstart
          refine ⟨fun G hG noret hnoret i => ?_, fun G hG => ?_, fun G hG => hkeeps.known G ?_,
            fun _ => hend.started F List.mem_cons_self⟩
          · by_cases hGF : G = F
            · subst hGF
              refine ⟨fun hi => hend.sound i ⟨noret, hnoret, hi⟩, fun hi => ?_⟩
              -- what is exact has a reason in one of the blocks, and all of them were processed
              have hhas : t.Has G i := by
                obtain ⟨b, hb, hno, rfl⟩ | ⟨⟨b, hb, hib, hcall⟩, H, hcalled, hmay⟩ := hi
                · exact (hdone b hb).1 hno
                · exact (hdone b hb).2 i hib hcall H hcalled hmay
              obtain ⟨noret', hnoret', hi⟩ := hhas
              obtain rfl := Option.mem_unique hnoret hnoret'
              exact hi
            · refine hend.exact G (fun hmem => ?_) noret hnoret i
              exact (List.mem_cons.1 hmem).elim hGF hG
          · rw [hkeeps.frame G hG, Function.update_of_ne (ne_of_mem_of_not_mem hG hfresh)]
          · by_cases hGF : G = F
            · subst hGF
              rw [Function.update_self, Option.isSome_some]
            · rwa [Function.update_of_ne hGF]

/-! ## The computation ends -/

section

variable [Fintype Fn]

/-- The functions without info. -/
def unknown (s : FuncInfos Fn I) : Finset Fn := Finset.univ.filter fun F => s F = none

omit [DecidableEq Fn] [DecidableEq I] in
theorem unknown_subset {s t : FuncInfos Fn I} (h : ∀ F, (s F).isSome → (t F).isSome) :
    unknown t ⊆ unknown s := by
  intro F hF
  refine Finset.mem_filter.2 ⟨Finset.mem_univ F, Option.not_isSome_iff_eq_none.1 fun hsome => ?_⟩
  exact Option.not_isSome_iff_eq_none.2 (Finset.mem_filter.1 hF).2 (h F hsome)

/-- The infos that there are stay. -/
abbrev Known (s t : FuncInfos Fn I) : Prop := ∀ F, (s F).isSome → (t F).isSome

omit [Fintype Fn] in
theorem exists_processBlock {create : Recursion Fn I} {F : Fn} {stack : List Fn}
    {s : FuncInfos Fn I} (hcreate : ∀ G t, Known s t → ∃ t', create G stack t = some t' ∧
      Known t t' ∧ (M.isDeclaration G = false → (t' G).isSome)) (b : B) {t : FuncInfos Fn I}
    (ht : Known s t) : ∃ t', M.processBlock create F stack t b = some t' ∧ Known s t' := by
  have hadd : ∀ {u : FuncInfos Fn I}, Known s u → ∀ i, Known s (u.addNoret F i) := by
    intro u hu i G hG
    rw [FuncInfos.isSome_addNoret]
    exact hu G hG
  refine FallibleLoop.exists_foldlM (I := Known s) (fun i _ u hu => ?_) ?_
  · rw [processInstruction]
    split
    · refine FallibleLoop.exists_foldlM (I := Known s) (fun G _ v hv => ?_) hu
      rw [processCallee]
      split
      · exact ⟨v, rfl, hv⟩
      · next hdecl =>
          split
          · exact ⟨v.addNoret F i, rfl, hadd hv i⟩
          · obtain ⟨v', hv', hknown, hsome⟩ := hcreate G v hv
            obtain ⟨fi, hfi⟩ := Option.isSome_iff_exists.1 (hsome (Bool.eq_false_iff.2 hdecl))
            have hv'' : Known s v' := fun H hH => hknown H (hv H hH)
            refine ⟨if fi = ∅ then v' else v'.addNoret F i, ?_, ?_⟩
            · exact Option.bind_eq_some_iff.2 ⟨v', hv', Option.bind_eq_some_iff.2 ⟨fi, hfi, rfl⟩⟩
            · split
              · exact hv''
              · exact hadd hv'' i
    · exact ⟨u, rfl, hu⟩
  · split
    · exact hadd ht _
    · exact ht

/-- A depth for each function that has no info is enough. -/
theorem exists_computeFuncInfo {depth : Nat} (F : Fn) (stack : List Fn) {s : FuncInfos Fn I}
    (hdepth : (unknown s).card < depth) : ∃ t, M.computeFuncInfo depth F stack s = some t ∧
      Known s t ∧ (M.isDeclaration F = false → (t F).isSome) := by
  induction depth generalizing F stack s with
  | zero => exact absurd hdepth (Nat.not_lt_zero _)
  | succ depth ih =>
      rw [computeFuncInfo]
      split
      · next hdone =>
          refine ⟨s, rfl, fun _ h => h, fun hdecl => ?_⟩
          obtain h | h := Bool.or_eq_true_iff.1 hdone
          · exact absurd (hdecl.symm.trans h) Bool.false_ne_true
          · exact h
      · next hnew =>
          have hnone : s F = none :=
            Option.not_isSome_iff_eq_none.1 fun h => hnew (Bool.or_eq_true_iff.2 (.inr h))
          have hself : (Function.update s F (some ∅) F).isSome := by
            rw [Function.update_self, Option.isSome_some]
          have hstart : Known s (Function.update s F (some ∅)) := by
            intro G hG
            by_cases hGF : G = F
            · exact hGF ▸ hself
            · rwa [Function.update_of_ne hGF]
          -- with the info of `F`, one function less is unknown
          have hfewer : ∀ {u : FuncInfos Fn I}, Known (Function.update s F (some ∅)) u →
              (unknown u).card < depth := by
            intro u hu
            have hsub : unknown u ⊆ unknown s := unknown_subset fun G hG => hu G (hstart G hG)
            have hlt : unknown u ⊂ unknown s := by
              refine Finset.ssubset_iff_subset_ne.2 ⟨hsub, fun heq => ?_⟩
              have hmem : F ∈ unknown u :=
                heq ▸ Finset.mem_filter.2 ⟨Finset.mem_univ F, hnone⟩
              exact Option.not_isSome_iff_eq_none.2 (Finset.mem_filter.1 hmem).2 (hu F hself)
            exact (Finset.card_lt_card hlt).trans_le (Nat.lt_succ_iff.1 hdepth)
          obtain ⟨t, ht, hknown⟩ := FallibleLoop.exists_foldlM
            (I := Known (Function.update s F (some ∅))) (l := M.blocks F)
            (f := M.processBlock (M.computeFuncInfo depth) F (F :: stack))
            (fun b _ t ht => exists_processBlock
              (fun G u hu => ih G (F :: stack) (hfewer hu)) b ht) fun _ h => h
          exact ⟨t, ht, fun G hG => hknown G (hstart G hG), fun _ => hknown F hself⟩

/-- From one request to the next. -/
def Advances (M : Module Fn B I) (s t : FuncInfos Fn I) : Prop :=
  Known s t ∧ (M.Exact [] s → M.Exact [] t)

theorem request_spec {F : Fn} {s t : FuncInfos Fn I}
    (ht : M.computeFuncInfo (Fintype.card Fn + 1) F [] s = some t) :
    M.Advances s t ∧ (M.isDeclaration F = false → (t F).isSome) := by
  obtain ⟨u, hu, hknown, hsome⟩ := exists_computeFuncInfo (M := M) F []
    (Nat.lt_succ_of_le (Finset.card_le_univ (unknown s)))
  obtain rfl := Option.some.inj (ht.symm.trans hu)
  refine ⟨⟨hknown, fun hexact => ?_⟩, hsome⟩
  exact (computeFuncInfo_spec _ F [] s t List.not_mem_nil (fun G hG => absurd hG List.not_mem_nil)
    (fun G hG => absurd hG List.not_mem_nil) hexact ht).1

/-- **Calls that may not return**: whatever functions are asked for, in whatever order, `noret` of a
function has just the calls of functions that lead to a block that ends without a return or to a cycle
of calls. -/
theorem noret_iff (M : Module Fn B I) (requests : List Fn) :
    ∃ s, M.compute (Fintype.card Fn + 1) requests = some s ∧
      (∀ F ∈ requests, M.isDeclaration F = false → (s F).isSome) ∧
        ∀ F, ∀ noret ∈ s F, ∀ C, M.HasCall F C →
          (C ∈ noret ↔ ∃ G, M.CalledAt C G ∧ M.MayNotReturn G) := by
  have hstep : ∀ F (s : FuncInfos Fn I), ∃ t,
      M.computeFuncInfo (Fintype.card Fn + 1) F [] s = some t ∧ True := by
    intro F s
    obtain ⟨t, ht, -⟩ := exists_computeFuncInfo (M := M) F []
      (Nat.lt_succ_of_le (Finset.card_le_univ (unknown s)))
    exact ⟨t, ht, trivial⟩
  obtain ⟨s, hs, -⟩ := FallibleLoop.exists_foldlM (I := fun _ => True) (l := requests)
    (f := fun s F => M.computeFuncInfo (Fintype.card Fn + 1) F [] s)
    (fun F _ s _ => hstep F s) (s := fun _ => none) trivial
  obtain ⟨⟨-, hexact⟩, hdone⟩ := FallibleLoop.each_done
    (P := fun F u => M.isDeclaration F = false → (u F).isSome)
    (fun u => (⟨fun _ h => h, fun h => h⟩ : M.Advances u u))
    (fun h k => ⟨fun F hF => k.1 F (h.1 F hF), fun hexact => k.2 (h.2 hexact)⟩)
    (fun hle hP hdecl => hle.1 _ (hP hdecl)) (fun F _ u u' _ hu => request_spec hu) hs
  refine ⟨s, hs, hdone, fun F noret hnoret C hC => ?_⟩
  have hnone : M.Exact [] fun _ => none := fun F _ noret hnoret => absurd hnoret nofun
  rw [hexact hnone F List.not_mem_nil noret hnoret C]
  refine ⟨fun hC' => ?_, fun h => .inr ⟨hC, h⟩⟩
  obtain ⟨b, -, -, rfl⟩ | ⟨-, h⟩ := hC'
  · -- a terminator is not a call
    obtain ⟨b', -, -, hcall⟩ := hC
    exact absurd (hcall.symm.trans (M.terminator_not_call b)) Bool.true_eq_false_eq_False
  · exact h

end

end Module

end

end Cape.ControlDependence.InterprocCD
