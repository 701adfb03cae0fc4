import Mathlib.Data.Fintype.Basic
import Mathlib.Tactic

/-!
# Dependence graphs with parameters

A procedure has formal parameters, those for the globals that it uses among them. A call has actual
parameters, which edges connect with the formal ones of each procedure that it calls. Each parameter
is a pair of nodes, for the value that goes in and the value that comes out.

An edge crosses when it belongs to a call (`CallEdge`) or connects two procedures. A path on one level
(`SameLevel`) has no such edge: it goes past a call from an actual-in to an actual-out, where the
called procedure has a path on its own level between the formal nodes.
-/

set_option autoImplicit false

namespace Cape.SummaryEdges

/-- A parameter: the nodes of its input value and its output value. -/
structure ParameterPair (N : Type) where
  inNode : N
  outNode : N
deriving DecidableEq

/-- The parameters of a procedure or of a call. -/
structure Parameters (N : Type) where
  params : List (ParameterPair N)
  globals : List (ParameterPair N)

def Parameters.all {N : Type} (ps : Parameters N) : List (ParameterPair N) := ps.params ++ ps.globals

/-- The dependence graphs of a program, with nodes `N`, procedures `P` and calls `C`. `getDG` is the
procedure that a node belongs to; global variables belong to none. `actual` is the actual parameter
of a call that is connected with a formal one. -/
structure Graphs (N P C : Type) where
  constructedFunctions : List P
  getParameters : P → Option (Parameters N)
  getCallNodes : P → List C
  callParameters : C → Option (Parameters N)
  getSubgraphs : C → List P
  actual : C → P → ParameterPair N → ParameterPair N
  callNode : C → N
  getEntry : P → N
  getExit : P → N
  getNoReturn : P → Option N
  callNoReturn : C → Option N
  getDG : N → Option P
  revControl : N → List N
  revData : N → List N
  users : N → List N

namespace Graphs

variable {N P C : Type} (G : Graphs N P C)

/-- All that a node depends on. -/
def dependsOn (n : N) : List N := G.revControl n ++ G.revData n ++ G.users n

/-- The formal parameters but for those of globals. -/
def formalParams (p : P) : List (ParameterPair N) :=
  match G.getParameters p with
  | none => []
  | some ps => ps.params

/-- All formal parameters. -/
def formals (p : P) : List (ParameterPair N) :=
  match G.getParameters p with
  | none => []
  | some ps => ps.all

/-- The actual parameters of a call. -/
def actuals (c : C) : List (ParameterPair N) :=
  match G.callParameters c with
  | none => []
  | some ps => ps.all

/-- The edges that a call makes to the procedure it calls and back. -/
def CallEdge (c : C) (p : P) (m n : N) : Prop :=
  (m = G.callNode c ∧ n = G.getEntry p) ∨
  (∃ fp ∈ G.formals p, m = (G.actual c p fp).inNode ∧ n = fp.inNode) ∨
  (∃ fp ∈ G.formals p, m = fp.outNode ∧ n = (G.actual c p fp).outNode) ∨
  (m = G.getExit p ∧ n = G.callNode c) ∨
  (some m = G.getNoReturn p ∧ some n = G.callNoReturn c)

/-- The edge from `m` to `n` leaves its procedure, or its activation. -/
def Crossing (m n : N) : Prop :=
  (∃ c, ∃ p ∈ G.getSubgraphs c, G.CallEdge c p m n) ∨
    ∃ p q, G.getDG m = some p ∧ G.getDG n = some q ∧ p ≠ q

section Decidable

variable [DecidableEq N] [DecidableEq P] [Fintype P] [Fintype C]

instance (c : C) (p : P) (m n : N) : Decidable (G.CallEdge c p m n) := by
  unfold CallEdge
  infer_instance

instance (m n : N) : Decidable (G.Crossing m n) := by
  unfold Crossing
  infer_instance

end Decidable

end Graphs

/-- What the builder of the graphs sees to: the nodes of parameters and entries are nodes of their
own, with only the edges that it gives them. -/
structure DependenceGraphs (N P C : Type) extends Graphs N P C where
  mem_constructedFunctions : ∀ p, p ∈ constructedFunctions
  getDG_formal : ∀ p, ∀ fp ∈ toGraphs.formals p,
    getDG fp.inNode = some p ∧ getDG fp.outNode = some p
  getDG_callNode : ∀ c, (getDG (callNode c)).isSome
  getDG_actual : ∀ c, ∀ ap ∈ toGraphs.actuals c,
    getDG ap.inNode = getDG (callNode c) ∧ getDG ap.outNode = getDG (callNode c)
  actual_mem : ∀ c, ∀ p ∈ getSubgraphs c, ∀ fp ∈ toGraphs.formals p,
    actual c p fp ∈ toGraphs.actuals c
  global_source : ∀ n, getDG n = none → toGraphs.dependsOn n = []
  entry_crossing : ∀ p, ∀ m ∈ toGraphs.dependsOn (getEntry p), toGraphs.Crossing m (getEntry p)
  entry_ne_formalIn : ∀ p q, ∀ fp ∈ toGraphs.formals q, getEntry p ≠ fp.inNode
  entry_ne_actualOut : ∀ p c, ∀ ap ∈ toGraphs.actuals c, getEntry p ≠ ap.outNode
  formalIn_entry : ∀ p, ∀ fp ∈ toGraphs.formalParams p, ∀ m ∈ toGraphs.dependsOn fp.inNode,
    toGraphs.Crossing m fp.inNode ∨ m = getEntry p
  formalIn_ne_actualOut : ∀ p, ∀ fp ∈ toGraphs.formals p, ∀ c, ∀ ap ∈ toGraphs.actuals c,
    fp.inNode ≠ ap.outNode
  actualOut_crossing : ∀ c, ∀ ap ∈ toGraphs.actuals c, ∀ m ∈ revData ap.outNode ++ users ap.outNode,
    toGraphs.Crossing m ap.outNode
  formalOut_actualOut : ∀ c, ∀ p ∈ getSubgraphs c, ∀ fp ∈ toGraphs.formals p,
    fp.outNode ∈ revData (actual c p fp).outNode

namespace Graphs

variable {N P C : Type} (G : Graphs N P C)

/-! ## Paths on one level -/

/-- There is a path from `m` to `n` on one level. Calls to procedures with the parameters `F` are
gone past. -/
inductive SameLevel (F : P → List (ParameterPair N)) : N → N → Prop
  | refl (n : N) : SameLevel F n n
  | edge {m n o : N} : m ∈ G.dependsOn n → ¬ G.Crossing m n → SameLevel F n o → SameLevel F m o
  | call {c : C} {p : P} {fp fp' : ParameterPair N} {o : N} : p ∈ G.getSubgraphs c → fp ∈ F p →
      fp' ∈ F p → SameLevel F fp.inNode fp'.outNode →
      SameLevel F (G.actual c p fp').outNode o → SameLevel F (G.actual c p fp).inNode o

/-- Two parameters of a called procedure that are related by `R` correspond to the actual-in `a` and
the actual-out `b` of a call. -/
def Bridges (F : P → List (ParameterPair N)) (R : N → N → Prop) (a b : N) : Prop :=
  ∃ c, ∃ p ∈ G.getSubgraphs c, ∃ fp ∈ F p, ∃ fp' ∈ F p,
    a = (G.actual c p fp).inNode ∧ b = (G.actual c p fp').outNode ∧ R fp.inNode fp'.outNode

/-- There is to be a summary edge from `a` to `b`. -/
def SummaryEdge (F : P → List (ParameterPair N)) : N → N → Prop := G.Bridges F (G.SameLevel F)

variable {G} {F F' : P → List (ParameterPair N)}

theorem Bridges.mono {R R' : N → N → Prop} (hF : ∀ p, ∀ fp ∈ F p, fp ∈ F' p)
    (hR : ∀ p, ∀ fp ∈ F p, ∀ n, R fp.inNode n → R' fp.inNode n) {a b : N}
    (h : G.Bridges F R a b) : G.Bridges F' R' a b := by
  obtain ⟨c, p, hp, fp, hfp, fp', hfp', ha, hb, h⟩ := h
  exact ⟨c, p, hp, fp, hF p fp hfp, fp', hF p fp' hfp', ha, hb, hR p fp hfp _ h⟩

theorem SameLevel.mono (hF : ∀ p, ∀ fp ∈ F p, fp ∈ F' p) {m o : N} (h : G.SameLevel F m o) :
    G.SameLevel F' m o := by
  induction h with
  | refl n => exact .refl n
  | edge hm hcross _ ih => exact .edge hm hcross ih
  | call hp hfp hfp' _ _ ih ih' => exact .call hp (hF _ _ hfp) (hF _ _ hfp') ih ih'

theorem SummaryEdge.mono (hF : ∀ p, ∀ fp ∈ F p, fp ∈ F' p) {a b : N}
    (h : G.SummaryEdge F a b) : G.SummaryEdge F' a b :=
  Bridges.mono hF (fun _ _ _ _ h => h.mono hF) h

theorem formals_of_formalParams {p : P} {fp : ParameterPair N} (h : fp ∈ G.formalParams p) :
    fp ∈ G.formals p := by
  unfold formalParams at h
  unfold formals
  cases hparams : G.getParameters p with
  | none =>
      rw [hparams] at h
      cases h
  | some ps =>
      rw [hparams] at h
      exact List.mem_append_left _ h

end Graphs

end Cape.SummaryEdges
