import Cape.ADT.KnownStarts
import Cape.MemorySSA.DefinitionsOperations

/-!
# Local value numbering

`Definitions` keeps what the nodes of a block define: the nodes behind every byte, the bytes that are
overwritten, and the nodes that write to unknown memory. A write to unknown memory comes to the bytes
that have a node at this time. `numberingRight_iff` says exactly when `get` and `uncovered` answer
what the sequence of the nodes says byte by byte.
-/

set_option autoImplicit false

namespace Cape

universe u

namespace DisjunctiveIntervalMap

variable {V : Type u} [DecidableEq V]

/-- `addAll`: the value comes into all sets. -/
def addAll (v : V) (m : DisjunctiveIntervalMap V) : DisjunctiveIntervalMap V :=
  m.map fun e => (e.1, e.2.insert v)

theorem covers_addAll {v : V} {m : DisjunctiveIntervalMap V} {b : Offset} :
    Covers (addAll v m) b ↔ Covers m b := by
  simp [Covers, addAll]

theorem has_addAll {v : V} {m : DisjunctiveIntervalMap V} {b : Offset} {w : V} :
    Has (addAll v m) b w ↔ Has m b w ∨ (w = v ∧ Covers m b) := by
  constructor
  · rintro ⟨e, he, hb, hw⟩
    rcases List.mem_map.1 he with ⟨e', he', rfl⟩
    rcases List.mem_insert_iff.1 hw with rfl | hw
    · exact Or.inr ⟨rfl, e', he', hb⟩
    · exact Or.inl ⟨e', he', hb, hw⟩
  · rintro (⟨e, he, hb, hw⟩ | ⟨rfl, e, he, hb⟩)
    · exact ⟨_, List.mem_map_of_mem he, hb, List.mem_insert_iff.2 (Or.inr hw)⟩
    · exact ⟨_, List.mem_map_of_mem he, hb, List.mem_insert_iff.2 (Or.inl rfl)⟩

theorem Ordered.addAll {v : V} {m : DisjunctiveIntervalMap V} (h : Ordered m) :
    Ordered (addAll v m) where
  sorted := List.pairwise_map.2 h.sorted
  proper := by
    intro e he
    rcases List.mem_map.1 he with ⟨e', he', rfl⟩
    exact h.proper e' he'
  nonempty := by
    intro e he
    rcases List.mem_map.1 he with ⟨e', -, rfl⟩
    exact List.ne_nil_of_mem (List.mem_insert_iff.2 (Or.inl rfl))

theorem Tight.addAll {v : V} {m : DisjunctiveIntervalMap V} (h : Tight m) : Tight (addAll v m) where
  ordered := h.ordered.addAll
  single := by
    have hlength : (tops (DisjunctiveIntervalMap.addAll v m)).length = (tops m).length := by
      simp [tops, DisjunctiveIntervalMap.addAll, List.filter_map, Function.comp_def]
    rw [hlength]
    exact h.single
  last := by
    intro e he hunknown
    rcases List.mem_map.1 he with ⟨e', he', rfl⟩
    exact covers_addAll.2 (h.last e' he' hunknown)

end DisjunctiveIntervalMap

namespace MemorySSA

variable {N : Type u}

/-- `Annotations`: the memory that a node may define, the memory that it overwrites, and the memory
that it uses. -/
structure Annotations (N : Type u) where
  defs : List (DefSite N)
  overwrites : List (DefSite N)
  uses : List (DefSite N)
deriving DecidableEq

/-- `usesUnknown`. -/
def Annotations.usesUnknown [DecidableEq N] (A : Annotations N) : Bool :=
  A.uses.any fun ds => ds.target = .unknown

namespace DefinitionsMap

variable [DecidableEq N]

/-- `addAll`. -/
def addAll (n : N) (D : DefinitionsMap N) : DefinitionsMap N where
  offsets := fun t => (D.offsets t).addAll n
  ordered := fun t => (D.ordered t).addAll

omit [DecidableEq N] in
/-- Only intervals of def-sites have come into the map. -/
def Tight (D : DefinitionsMap N) : Prop := ∀ t, (D.offsets t).Tight

omit [DecidableEq N] in
theorem Tight.empty : Tight (empty : DefinitionsMap N) := fun _ => .nil

theorem Tight.addAll {D : DefinitionsMap N} (h : D.Tight) (n : N) : (D.addAll n).Tight :=
  fun t => (h t).addAll

theorem Tight.modify {D : DefinitionsMap N} (h : D.Tight) {t : Memory N}
    {m : DisjunctiveIntervalMap N} (hm : m.Ordered) (htight : m.Tight) : (D.modify t m hm).Tight := by
  intro t'
  rw [DefinitionsMap.modify]
  dsimp only
  by_cases ht : t' = t
  · subst ht
    rw [Function.update_self]
    exact htight
  · rw [Function.update_of_ne ht]
    exact h t'

theorem Tight.add {D : DefinitionsMap N} (h : D.Tight) (ds : DefSite N) (n : N) :
    (D.add ds n).Tight :=
  h.modify _ ((h ds.target).addOrUpdate ds.start_le_stop ds.start_ne_unknown n false)

theorem Tight.update {D : DefinitionsMap N} (h : D.Tight) (ds : DefSite N) (n : N) :
    (D.update ds n).Tight :=
  h.modify _ ((h ds.target).addOrUpdate ds.start_le_stop ds.start_ne_unknown n true)

theorem has_addAll {D : DefinitionsMap N} {t : Memory N} {b : Offset} {n w : N} :
    (D.addAll n).Has t b w ↔ D.Has t b w ∨ (w = n ∧ (D.offsets t).Covers b) :=
  DisjunctiveIntervalMap.has_addAll

theorem Tight.has_add {D : DefinitionsMap N} (h : D.Tight) {ds : DefSite N} {n : N} {t : Memory N}
    {b : Offset} {w : N} :
    (D.add ds n).Has t b w ↔ D.Has t b w ∨ (t = ds.target ∧ b ∈ ds.getInterval ∧ w = n) := by
  rw [DefinitionsMap.add, has_modify]
  split
  · next ht =>
      subst ht
      rw [DisjunctiveIntervalMap.add, (h _).has_addOrUpdate ds.start_le_stop ds.start_ne_unknown,
        DisjunctiveIntervalMap.Written]
      by_cases hmem : b ∈ ds.getInterval
      · simp [hmem, Has, or_comm]
      · simp [hmem, Has]
  · next ht => simp [ht]

theorem Tight.has_update {D : DefinitionsMap N} (h : D.Tight) {ds : DefSite N} {n : N}
    {t : Memory N} {b : Offset} {w : N} :
    (D.update ds n).Has t b w ↔
      if t = ds.target ∧ b ∈ ds.getInterval then w = n else D.Has t b w := by
  rw [DefinitionsMap.update, has_modify]
  by_cases ht : t = ds.target
  · subst ht
    rw [if_pos rfl, DisjunctiveIntervalMap.update,
      (h _).has_addOrUpdate ds.start_le_stop ds.start_ne_unknown, DisjunctiveIntervalMap.Written]
    by_cases hmem : b ∈ ds.getInterval
    · simp [hmem]
    · simp [hmem, Has]
  · simp [ht]

end DefinitionsMap

/-! ## The definitions of a block -/

/-- `Definitions`. -/
structure Definitions (N : Type u) where
  definitions : DefinitionsMap N
  kills : DefinitionsMap N
  unknownWrites : List N
  unknownReads : List N

namespace Definitions

def empty : Definitions N := ⟨.empty, .empty, [], []⟩

variable [DecidableEq N]

/-- A possible definition. -/
def define (defnode : N) (D : Definitions N) (ds : DefSite N) : Definitions N :=
  match ds.target with
  | .unknown =>
      -- this makes all last definitions into possible ones
      { D with
        definitions := D.definitions.addAll defnode
        unknownWrites := D.unknownWrites ++ [defnode] }
  | .node _ => { D with definitions := D.definitions.add ds defnode }

/-- A definitive definition. -/
def overwrite (defnode : N) (D : Definitions N) (ds : DefSite N) : Definitions N :=
  { D with
    kills := D.kills.add ds defnode
    definitions := D.definitions.update ds defnode }

/-- `update`, for a node with these annotations. -/
def updateBy (A : Annotations N) (defnode : N) (D : Definitions N) : Definitions N :=
  let D := A.overwrites.foldl (overwrite defnode) (A.defs.foldl (define defnode) D)
  if A.usesUnknown then { D with unknownReads := D.unknownReads ++ [defnode] } else D

variable (getAnnotations : N → Annotations N)

/-- `update`; without a `defnode`, the node itself defines the memory. -/
def update (node : N) (defnode : Option N) (D : Definitions N) : Definitions N :=
  D.updateBy (getAnnotations node) (defnode.getD node)

/-- The nodes of a sequence, each with its `defnode`. -/
def run (nodes : List (N × Option N)) : Definitions N :=
  nodes.foldl (fun D n => update getAnnotations n.1 n.2 D) empty

/-- `get`. -/
def get (D : Definitions N) (ds : DefSite N) : List N :=
  match D.definitions.get ds with
  | [] => D.unknownWrites.dedup
  | n :: ns => n :: ns

omit [DecidableEq N] in
/-- `uncovered`. -/
def uncovered (D : Definitions N) (ds : DefSite N) : List DiscreteInterval :=
  D.kills.undefinedIntervals ds

/-! ## What one node does -/

end Definitions

namespace Annotations

/-- The node writes to unknown memory. -/
def WritesUnknown (A : Annotations N) : Prop := ∃ ds ∈ A.defs, ds.target = .unknown

/-- The node overwrites the byte. -/
def Overwrites (A : Annotations N) (t : Memory N) (b : Offset) : Prop :=
  ∃ ds ∈ A.overwrites, ds.target = t ∧ b ∈ ds.getInterval

/-- The node may define the byte, or overwrites it. -/
def Defines (A : Annotations N) (t : Memory N) (b : Offset) : Prop :=
  (∃ ds ∈ A.defs, ds.target ≠ .unknown ∧ ds.target = t ∧ b ∈ ds.getInterval) ∨ A.Overwrites t b

end Annotations

namespace Definitions

/-- Both maps have the intervals of def-sites only. -/
structure Tight (D : Definitions N) : Prop where
  definitions : D.definitions.Tight
  kills : D.kills.Tight

theorem Tight.covers_iff {D : Definitions N} (h : D.Tight) {t : Memory N} {b : Offset} :
    (D.definitions.offsets t).Covers b ↔ ∃ w, D.definitions.Has t b w :=
  (h.definitions t).ordered.covers_iff

variable [DecidableEq N]

/-- The possible definitions of a node. -/
theorem foldl_define (defnode : N) (l : List (DefSite N)) :
    ∀ {D : Definitions N}, D.Tight →
      (l.foldl (define defnode) D).Tight ∧ (l.foldl (define defnode) D).kills = D.kills ∧
      (∀ t b w, (l.foldl (define defnode) D).definitions.Has t b w ↔ D.definitions.Has t b w ∨
        (w = defnode ∧ ((∃ ds ∈ l, ds.target ≠ .unknown ∧ ds.target = t ∧ b ∈ ds.getInterval) ∨
          ((∃ ds ∈ l, ds.target = .unknown) ∧ (D.definitions.offsets t).Covers b)))) ∧
      ∀ w, w ∈ (l.foldl (define defnode) D).unknownWrites ↔ w ∈ D.unknownWrites ∨
        (w = defnode ∧ ∃ ds ∈ l, ds.target = .unknown) := by
  induction l with
  | nil =>
      intro D hD
      simp [hD]
  | cons ds l ih =>
      intro D hD
      rw [List.foldl_cons]
      cases htarget : ds.target with
      | unknown =>
          have hstep : define defnode D ds = { D with
              definitions := D.definitions.addAll defnode
              unknownWrites := D.unknownWrites ++ [defnode] } := by
            rw [define, htarget]
          have htight : (define defnode D ds).Tight := by
            rw [hstep]
            exact ⟨hD.definitions.addAll defnode, hD.kills⟩
          rcases ih htight with ⟨htight', hkills, hhas, hwrites⟩
          rw [hstep] at htight' hkills hhas hwrites ⊢
          refine ⟨htight', hkills, fun t b w => ?_, fun w => ?_⟩
          · -- the bytes that are covered now get the node
            rw [hhas t b w, DefinitionsMap.has_addAll]
            have hcov : ((D.definitions.addAll defnode).offsets t).Covers b ↔
                (D.definitions.offsets t).Covers b := DisjunctiveIntervalMap.covers_addAll
            rw [hcov]
            simp only [List.exists_mem_cons_iff, htarget, ne_eq, not_true_eq_false, false_and,
              false_or, true_or, true_and]
            grind
          · rw [hwrites w]
            simp only [List.mem_append, List.mem_singleton, List.exists_mem_cons_iff, htarget,
              true_or, and_true]
            tauto
      | node m =>
          have hstep : define defnode D ds =
              { D with definitions := D.definitions.add ds defnode } := by
            rw [define, htarget]
          have htight : (define defnode D ds).Tight := by
            rw [hstep]
            exact ⟨hD.definitions.add ds defnode, hD.kills⟩
          have hcov : ∀ t b, ((define defnode D ds).definitions.offsets t).Covers b ↔
              (D.definitions.offsets t).Covers b ∨ (t = ds.target ∧ b ∈ ds.getInterval) := by
            intro t b
            rw [htight.covers_iff, hD.covers_iff, hstep]
            simp only [hD.definitions.has_add, exists_or]
            simp
          rcases ih htight with ⟨htight', hkills, hhas, hwrites⟩
          rw [hstep] at htight' hkills hhas hwrites hcov ⊢
          refine ⟨htight', hkills, fun t b w => ?_, fun w => ?_⟩
          · rw [hhas t b w, hcov t b, hD.definitions.has_add]
            have hne : ds.target ≠ .unknown := by
              rw [htarget]
              exact nofun
            simp only [List.exists_mem_cons_iff, hne, ne_eq, not_false_eq_true, true_and, false_or,
              eq_comm (a := t)]
            grind
          · rw [hwrites w]
            simp [htarget]

/-- The definitive definitions of a node. -/
theorem foldl_overwrite (defnode : N) (l : List (DefSite N)) :
    ∀ {D : Definitions N}, D.Tight →
      (l.foldl (overwrite defnode) D).Tight ∧
      (l.foldl (overwrite defnode) D).unknownWrites = D.unknownWrites ∧
      (∀ t b w, (l.foldl (overwrite defnode) D).definitions.Has t b w ↔
        ((∃ ds ∈ l, ds.target = t ∧ b ∈ ds.getInterval) ∧ w = defnode) ∨
          ((¬ ∃ ds ∈ l, ds.target = t ∧ b ∈ ds.getInterval) ∧ D.definitions.Has t b w)) ∧
      ∀ t b, ((l.foldl (overwrite defnode) D).kills.offsets t).Covers b ↔
        (D.kills.offsets t).Covers b ∨ ∃ ds ∈ l, ds.target = t ∧ b ∈ ds.getInterval := by
  induction l with
  | nil =>
      intro D hD
      simp [hD]
  | cons ds l ih =>
      intro D hD
      have htight : (overwrite defnode D ds).Tight :=
        ⟨hD.definitions.update ds defnode, hD.kills.add ds defnode⟩
      have hkills : ∀ t b, ((overwrite defnode D ds).kills.offsets t).Covers b ↔
          (D.kills.offsets t).Covers b ∨ (t = ds.target ∧ b ∈ ds.getInterval) := by
        intro t b
        rw [(htight.kills t).ordered.covers_iff, (hD.kills t).ordered.covers_iff]
        show (∃ w, (D.kills.add ds defnode).Has t b w) ↔ (∃ w, D.kills.Has t b w) ∨ _
        simp only [hD.kills.has_add, exists_or]
        simp
      rcases ih htight with ⟨htight', hwrites, hhas, hcov⟩
      rw [List.foldl_cons]
      refine ⟨htight', hwrites, fun t b w => ?_, fun t b => ?_⟩
      · have hstep : (overwrite defnode D ds).definitions.Has t b w ↔
            if t = ds.target ∧ b ∈ ds.getInterval then w = defnode else D.definitions.Has t b w :=
          hD.definitions.has_update
        rw [hhas t b w, hstep, List.exists_mem_cons_iff, eq_comm (a := ds.target)]
        by_cases hmem : t = ds.target ∧ b ∈ ds.getInterval
        · -- written by this site, whether or not by a later one
          simp only [hmem, and_self, if_true, true_or, true_and, not_true_eq_false, false_and,
            or_false]
          grind
        · rw [if_neg hmem]
          simp only [hmem, false_or]
      · rw [hcov t b, hkills t b, List.exists_mem_cons_iff, or_assoc, eq_comm (a := t)]

/-- **What a node does to the definitions.** -/
theorem updateBy_spec (A : Annotations N) (defnode : N) {D : Definitions N} (hD : D.Tight) :
    (D.updateBy A defnode).Tight ∧
    (∀ t b w, (D.updateBy A defnode).definitions.Has t b w ↔
      (w = defnode ∧ (A.Defines t b ∨ (A.WritesUnknown ∧ (D.definitions.offsets t).Covers b))) ∨
        (D.definitions.Has t b w ∧ ¬ A.Overwrites t b)) ∧
    (∀ t b, ((D.updateBy A defnode).kills.offsets t).Covers b ↔
      (D.kills.offsets t).Covers b ∨ A.Overwrites t b) ∧
    ∀ w, w ∈ (D.updateBy A defnode).unknownWrites ↔
      w ∈ D.unknownWrites ∨ (w = defnode ∧ A.WritesUnknown) := by
  rcases foldl_define defnode A.defs hD with ⟨htight, hkills, hhas, hwrites⟩
  rcases foldl_overwrite defnode A.overwrites htight with ⟨htight', hwrites', hhas', hcov⟩
  -- the unknown reads are not looked at
  have hsame : (D.updateBy A defnode).definitions =
        (A.overwrites.foldl (overwrite defnode) (A.defs.foldl (define defnode) D)).definitions ∧
      (D.updateBy A defnode).kills =
        (A.overwrites.foldl (overwrite defnode) (A.defs.foldl (define defnode) D)).kills ∧
      (D.updateBy A defnode).unknownWrites =
        (A.overwrites.foldl (overwrite defnode) (A.defs.foldl (define defnode) D)).unknownWrites := by
    rw [updateBy]
    split <;> exact ⟨rfl, rfl, rfl⟩
  refine ⟨⟨?_, ?_⟩, fun t b w => ?_, fun t b => ?_, fun w => ?_⟩
  · rw [hsame.1]
    exact htight'.definitions
  · rw [hsame.2.1]
    exact htight'.kills
  · rw [hsame.1, hhas' t b w, hhas t b w]
    have hdefines : A.Defines t b ↔
        (∃ ds ∈ A.defs, ds.target ≠ .unknown ∧ ds.target = t ∧ b ∈ ds.getInterval) ∨
          A.Overwrites t b := Iff.rfl
    have hover : A.Overwrites t b ↔ ∃ ds ∈ A.overwrites, ds.target = t ∧ b ∈ ds.getInterval :=
      Iff.rfl
    rw [hdefines, ← hover, Annotations.WritesUnknown]
    grind
  · rw [hsame.2.1, hcov t b, hkills]
    rfl
  · rw [hsame.2.2, hwrites', hwrites w]
    rfl

end Definitions

/-! ## Events that are not undone -/

section Live

variable {A : Type u}

/-- An event for which `Q` holds, after the events before it, is not followed by one that undoes it. -/
def Live (Q : List A → A → Prop) (K : A → Prop) (l : List A) : Prop :=
  ∃ pre a post, l = pre ++ a :: post ∧ Q pre a ∧ ∀ c ∈ post, ¬ K c

theorem live_nil {Q : List A → A → Prop} {K : A → Prop} : ¬ Live Q K [] := by
  rintro ⟨pre, a, post, h, -⟩
  exact List.append_ne_nil_of_right_ne_nil pre (List.cons_ne_nil a post) h.symm

/-- The last event counts, or one before that it does not undo. -/
theorem live_concat {Q : List A → A → Prop} {K : A → Prop} {l : List A} {a : A} :
    Live Q K (l ++ [a]) ↔ Q l a ∨ (Live Q K l ∧ ¬ K a) := by
  constructor
  · rintro ⟨pre, x, post, h, hQ, hpost⟩
    -- the event is the last one, or the last one is behind it
    rcases List.eq_nil_or_concat post with rfl | ⟨post, y, rfl⟩
    · rcases List.append_inj' h rfl with ⟨rfl, hx⟩
      rw [(List.cons.inj hx).1]
      exact Or.inl hQ
    · rw [List.concat_eq_append, ← List.cons_append, ← List.append_assoc] at h
      rw [List.concat_eq_append] at hpost
      rcases List.append_inj' h rfl with ⟨rfl, hy⟩
      rw [(List.cons.inj hy).1]
      right
      refine ⟨⟨pre, x, post, rfl, hQ, fun c hc => ?_⟩, ?_⟩
      · exact hpost c (List.mem_append_left _ hc)
      · exact hpost y (List.mem_append_right _ (List.mem_singleton_self y))
  · rintro (hQ | ⟨⟨pre, x, post, rfl, hQ, hpost⟩, ha⟩)
    · exact ⟨l, a, [], rfl, hQ, nofun⟩
    · refine ⟨pre, x, post ++ [a], by simp, hQ, fun c hc => ?_⟩
      rcases List.mem_append.1 hc with hc | hc
      · exact hpost c hc
      · rw [List.mem_singleton.1 hc]
        exact ha

theorem Live.mono {Q Q' : List A → A → Prop} {K : A → Prop} {l : List A} (h : Live Q K l)
    (hQ : ∀ pre a, a ∈ l → Q pre a → Q' pre a) : Live Q' K l := by
  rcases h with ⟨pre, a, post, rfl, ha, hpost⟩
  exact ⟨pre, a, post, rfl, hQ pre a (List.mem_append_right pre List.mem_cons_self) ha, hpost⟩

end Live

/-! ## What a sequence of nodes does -/

namespace Definitions

variable [DecidableEq N] (getAnnotations : N → Annotations N)

/-- The node that defines the memory. -/
def defnode (p : N × Option N) : N := p.2.getD p.1

/-- The node is behind the byte: it defines it, or it writes to unknown memory when the byte has a
definition already. -/
def Reaches (t : Memory N) (b : Offset) (n : N) (pre : List (N × Option N)) (p : N × Option N) :
    Prop :=
  defnode p = n ∧ ((getAnnotations p.1).Defines t b ∨
    ((getAnnotations p.1).WritesUnknown ∧ ∃ q ∈ pre, (getAnnotations q.1).Defines t b))

/-- What the definitions are after a sequence of nodes. -/
structure After (nodes : List (N × Option N)) (D : Definitions N) : Prop where
  tight : D.Tight
  covers : ∀ t b, (D.definitions.offsets t).Covers b ↔
    ∃ q ∈ nodes, (getAnnotations q.1).Defines t b
  has : ∀ t b w, D.definitions.Has t b w ↔ Live (Reaches getAnnotations t b w)
    (fun q => (getAnnotations q.1).Overwrites t b) nodes
  kills : ∀ t b, (D.kills.offsets t).Covers b ↔ ∃ q ∈ nodes, (getAnnotations q.1).Overwrites t b
  unknownWrites : ∀ w, w ∈ D.unknownWrites ↔
    ∃ q ∈ nodes, defnode q = w ∧ (getAnnotations q.1).WritesUnknown

omit [DecidableEq N] in
theorem After.nil : After getAnnotations [] (empty : Definitions N) where
  tight := ⟨.empty, .empty⟩
  covers t b := by
    simp only [List.not_mem_nil, false_and, exists_false, iff_false]
    exact DisjunctiveIntervalMap.covers_nil b
  has t b w := by
    refine iff_of_false ?_ live_nil
    rintro ⟨e, he, -⟩
    exact nomatch he
  kills t b := by
    simp only [List.not_mem_nil, false_and, exists_false, iff_false]
    exact DisjunctiveIntervalMap.covers_nil b
  unknownWrites w := by
    simp [empty]

/-- One more node. -/
theorem After.update {nodes : List (N × Option N)} {D : Definitions N}
    (h : After getAnnotations nodes D) (p : N × Option N) :
    After getAnnotations (nodes ++ [p]) (D.update getAnnotations p.1 p.2) := by
  rcases updateBy_spec (getAnnotations p.1) (defnode p) h.tight with
    ⟨htight, hhas, hkills, hwrites⟩
  have hconcat : ∀ Q : N × Option N → Prop,
      (∃ q ∈ nodes ++ [p], Q q) ↔ (∃ q ∈ nodes, Q q) ∨ Q p := by
    intro Q
    simp [or_and_right, exists_or]
  have hhas' : ∀ t b w, (D.updateBy (getAnnotations p.1) (defnode p)).definitions.Has t b w ↔
      Live (Reaches getAnnotations t b w) (fun q => (getAnnotations q.1).Overwrites t b)
        (nodes ++ [p]) := by
    intro t b w
    rw [hhas, live_concat, ← h.has t b w, h.covers t b, Reaches, eq_comm (a := w)]
  have htight' : (D.updateBy (getAnnotations p.1) (defnode p)).Tight := htight
  constructor
  case tight => exact htight
  case has => exact hhas'
  case covers =>
    intro t b
    show ((D.updateBy (getAnnotations p.1) (defnode p)).definitions.offsets t).Covers b ↔ _
    rw [htight'.covers_iff, hconcat, ← h.covers t b]
    simp only [hhas]
    constructor
    · rintro ⟨w, ⟨-, hdefines | ⟨-, hcov⟩⟩ | ⟨hold, -⟩⟩
      · exact Or.inr hdefines
      · exact Or.inl hcov
      · exact Or.inl (h.tight.covers_iff.2 ⟨w, hold⟩)
    · rintro (hcov | hdefines)
      · -- overwritten by the node, or left alone
        by_cases hover : (getAnnotations p.1).Overwrites t b
        · exact ⟨defnode p, Or.inl ⟨rfl, Or.inl (Or.inr hover)⟩⟩
        · rcases h.tight.covers_iff.1 hcov with ⟨w, hw⟩
          exact ⟨w, Or.inr ⟨hw, hover⟩⟩
      · exact ⟨defnode p, Or.inl ⟨rfl, Or.inl hdefines⟩⟩
  case kills =>
    intro t b
    show ((D.updateBy (getAnnotations p.1) (defnode p)).kills.offsets t).Covers b ↔ _
    rw [hkills, hconcat, h.kills t b]
  case unknownWrites =>
    intro w
    show w ∈ (D.updateBy (getAnnotations p.1) (defnode p)).unknownWrites ↔ _
    rw [hwrites, hconcat, h.unknownWrites w, eq_comm (a := w)]

theorem after_run (nodes : List (N × Option N)) :
    After getAnnotations nodes (run getAnnotations nodes) := by
  induction nodes using List.reverseRecOn with
  | nil => exact .nil getAnnotations
  | append_singleton nodes p ih =>
      rw [run, List.foldl_append]
      exact ih.update getAnnotations p

/-! ## `get` -/

/-- The nodes that, for a byte of the def-site, may define the byte or unknown memory, and are not
followed by one that overwrites the byte. -/
def GetRight (nodes : List (N × Option N)) (ds : DefSite N) : Prop :=
  ∀ n, n ∈ (run getAnnotations nodes).get ds ↔ ∃ b ∈ ds.getInterval,
    Live (fun _ p => defnode p = n ∧ ((getAnnotations p.1).WritesUnknown ∨
        (getAnnotations p.1).Defines ds.target b))
      (fun q => (getAnnotations q.1).Overwrites ds.target b) nodes

/-- **Where `get` is right.** No node defines a byte of the def-site; or each node that writes to
unknown memory, and is not followed by one that overwrites a byte of the def-site, is behind one of
the bytes that have definitions. -/
def GetFits (nodes : List (N × Option N)) (ds : DefSite N) : Prop :=
  (∀ b ∈ ds.getInterval, ∀ q ∈ nodes, ¬ (getAnnotations q.1).Defines ds.target b) ∨
    ∀ n, (∃ b ∈ ds.getInterval,
        Live (fun _ p => defnode p = n ∧ (getAnnotations p.1).WritesUnknown)
          (fun q => (getAnnotations q.1).Overwrites ds.target b) nodes) →
      ∃ b ∈ ds.getInterval, Live (Reaches getAnnotations ds.target b n)
        (fun q => (getAnnotations q.1).Overwrites ds.target b) nodes

variable {getAnnotations} in
/-- What is in the intervals of the def-site, or all writes to unknown memory if this is nothing. -/
theorem mem_get_iff {nodes : List (N × Option N)} {D : Definitions N}
    (h : After getAnnotations nodes D) (ds : DefSite N) (n : N) :
    ((∃ b ∈ ds.getInterval, ∃ q ∈ nodes, (getAnnotations q.1).Defines ds.target b) →
      (n ∈ D.get ds ↔ ∃ b ∈ ds.getInterval, Live (Reaches getAnnotations ds.target b n)
        (fun q => (getAnnotations q.1).Overwrites ds.target b) nodes)) ∧
    ((¬ ∃ b ∈ ds.getInterval, ∃ q ∈ nodes, (getAnnotations q.1).Defines ds.target b) →
      (n ∈ D.get ds ↔ ∃ q ∈ nodes, defnode q = n ∧ (getAnnotations q.1).WritesUnknown)) := by
  have hgather : ∀ w, w ∈ D.definitions.get ds ↔
      ∃ b ∈ ds.getInterval, D.definitions.Has ds.target b w := fun w =>
    DisjunctiveIntervalMap.mem_gather_iff (D.definitions.ordered ds.target) ds.start_le_stop
  have hdefined : (∃ b ∈ ds.getInterval, ∃ q ∈ nodes, (getAnnotations q.1).Defines ds.target b) ↔
      ∃ w, w ∈ D.definitions.get ds := by
    simp only [← h.covers, h.tight.covers_iff, hgather]
    constructor
    · rintro ⟨b, hb, w, hw⟩
      exact ⟨w, b, hb, hw⟩
    · rintro ⟨w, b, hb, hw⟩
      exact ⟨b, hb, w, hw⟩
  rw [hdefined]
  -- with nothing behind the bytes, `get` gives the writes to unknown memory
  cases hget : D.definitions.get ds with
  | nil =>
      have hunknown : D.get ds = D.unknownWrites.dedup := by
        rw [get, hget]
      rw [hunknown, List.mem_dedup]
      exact ⟨fun hex => absurd hex (by simp), fun _ => h.unknownWrites n⟩
  | cons w ws =>
      have hfound : D.get ds = D.definitions.get ds := by
        rw [get, hget]
      rw [hfound, hgather]
      refine ⟨fun _ => ?_, fun hnot => absurd ⟨w, List.mem_cons_self⟩ hnot⟩
      simp only [h.has]

theorem getRight_iff (nodes : List (N × Option N)) (ds : DefSite N) :
    GetRight getAnnotations nodes ds ↔ GetFits getAnnotations nodes ds := by
  have hget := mem_get_iff (after_run getAnnotations nodes) ds
  by_cases hdefined :
      ∃ b ∈ ds.getInterval, ∃ q ∈ nodes, (getAnnotations q.1).Defines ds.target b
  · have hget := fun n => (hget n).1 hdefined
    have hnot : ¬ ∀ b ∈ ds.getInterval, ∀ q ∈ nodes,
        ¬ (getAnnotations q.1).Defines ds.target b := by
      rcases hdefined with ⟨b, hb, q, hq, hdefines⟩
      exact fun hall => hall b hb q hq hdefines
    rw [GetFits, or_iff_right hnot]
    constructor
    · rintro hright n ⟨b, hb, hlive⟩
      -- the write may define the byte, so that `get` has it
      apply (hget n).1
      exact (hright n).2 ⟨b, hb, hlive.mono fun _ p _ hp => ⟨hp.1, Or.inl hp.2⟩⟩
    · intro hfits n
      rw [hget n]
      constructor
      · rintro ⟨b, hb, hlive⟩
        refine ⟨b, hb, hlive.mono fun pre p _ hp => ⟨hp.1, ?_⟩⟩
        exact hp.2.elim Or.inr fun hunknown => Or.inl hunknown.1
      · rintro ⟨b, hb, pre, p, post, heq, ⟨hn, hunknown | hdefines⟩, hpost⟩
        · exact hfits n ⟨b, hb, pre, p, post, heq, ⟨hn, hunknown⟩, hpost⟩
        · exact ⟨b, hb, pre, p, post, heq, ⟨hn, Or.inl hdefines⟩, hpost⟩
  · have hget := fun n => (hget n).2 hdefined
    have hnone : ∀ b ∈ ds.getInterval, ∀ q ∈ nodes,
        ¬ (getAnnotations q.1).Defines ds.target b := fun b hb q hq hd =>
      hdefined ⟨b, hb, q, hq, hd⟩
    refine iff_of_true (fun n => ?_) (Or.inl hnone)
    rw [hget n]
    constructor
    · rintro ⟨q, hq, hn, hunknown⟩
      rcases List.append_of_mem hq with ⟨pre, post, heq⟩
      have hstart : ds.getInterval.start ∈ ds.getInterval := ⟨le_refl _, ds.start_le_stop⟩
      refine ⟨_, hstart, pre, q, post, heq, ⟨hn, Or.inl hunknown⟩, fun c hc hover => ?_⟩
      refine hnone _ hstart c ?_ (Or.inr hover)
      rw [heq]
      exact List.mem_append_right pre (List.mem_cons_of_mem q hc)
    · rintro ⟨b, hb, pre, p, post, heq, ⟨hn, hp⟩, -⟩
      have hmem : p ∈ nodes := by
        rw [heq]
        exact List.mem_append_right pre List.mem_cons_self
      rcases hp with hunknown | hdefines
      · exact ⟨p, hmem, hn, hunknown⟩
      · exact absurd hdefines (hnone b hb p hmem)

/-! ## `uncovered` -/

/-- The bytes of the def-site that no node overwrites. -/
def UncoveredRight (nodes : List (N × Option N)) (ds : DefSite N) : Prop :=
  ∀ b, (∃ J ∈ (run getAnnotations nodes).uncovered ds, b ∈ J) ↔
    b ∈ ds.getInterval ∧ ∀ q ∈ nodes, ¬ (getAnnotations q.1).Overwrites ds.target b

/-- **Where `uncovered` is right.** -/
structure UncoveredFits (nodes : List (N × Option N)) (ds : DefSite N) : Prop where
  /-- without the target, the unknown offset is not stretched -/
  absent : ds.offset = .unknown → ∃ q ∈ nodes, ∃ b, (getAnnotations q.1).Overwrites ds.target b
  /-- when the last byte is not overwritten, and the one behind it is not, the scan does not stop
  before the next one that is -/
  overrun : ¬ ((∃ b ∈ ds.getInterval, ∃ q ∈ nodes, (getAnnotations q.1).Overwrites ds.target b) ∧
    (∀ q ∈ nodes, ¬ (getAnnotations q.1).Overwrites ds.target ds.getInterval.stop ∧
      ¬ (getAnnotations q.1).Overwrites ds.target (ds.getInterval.stop + 1)) ∧
    ∃ b, ds.getInterval.stop < b ∧ ∃ q ∈ nodes, (getAnnotations q.1).Overwrites ds.target b)

theorem uncoveredRight_iff (nodes : List (N × Option N)) (ds : DefSite N) :
    UncoveredRight getAnnotations nodes ds ↔ UncoveredFits getAnnotations nodes ds := by
  have hafter := after_run getAnnotations nodes
  have htight := hafter.tight.kills ds.target
  have hcov := hafter.kills ds.target
  have hfree : ∀ b, (∀ q ∈ nodes, ¬ (getAnnotations q.1).Overwrites ds.target b) ↔
      ¬ ((run getAnnotations nodes).kills.offsets ds.target).Covers b := by
    intro b
    rw [hcov]
    simp only [not_exists, not_and]
  -- the target is absent when nothing was overwritten in it
  have habsent : ((run getAnnotations nodes).kills.definesTarget ds.target = false →
      ds.offset ≠ .unknown) ↔ (ds.offset = .unknown →
        ∃ q ∈ nodes, ∃ b, (getAnnotations q.1).Overwrites ds.target b) := by
    have hnil : (run getAnnotations nodes).kills.definesTarget ds.target = false ↔
        ¬ ∃ q ∈ nodes, ∃ b, (getAnnotations q.1).Overwrites ds.target b := by
      constructor
      · rintro hnil ⟨q, hq, b, hover⟩
        rw [DefinitionsMap.definesTarget_of_covers ((hcov b).2 ⟨q, hq, hover⟩)] at hnil
        cases hnil
      · intro hnone
        rw [DefinitionsMap.definesTarget_eq_false_iff, List.eq_nil_iff_forall_not_mem]
        intro e he
        rcases (hcov e.1.start).1 ⟨e, he, le_refl _, htight.ordered.proper e he⟩ with
          ⟨q, hq, hover⟩
        exact hnone ⟨q, hq, _, hover⟩
    rw [hnil]
    exact ⟨fun h hunknown => not_not.1 fun hnone => h hnone hunknown,
      fun h hnone hunknown => hnone (h hunknown)⟩
  have hright : UncoveredRight getAnnotations nodes ds ↔
      ∀ b, (∃ J ∈ (run getAnnotations nodes).kills.undefinedIntervals ds, b ∈ J) ↔
        b ∈ ds.getInterval ∧ ¬ ((run getAnnotations nodes).kills.offsets ds.target).Covers b := by
    simp only [← hfree]
    exact Iff.rfl
  rw [hright, DefinitionsMap.bytes_undefinedIntervals_iff htight.keysDisjoint, habsent,
    htight.overruns_iff ds.start_le_stop]
  simp only [hcov]
  -- two spellings of the bytes at the stop
  constructor
  · rintro ⟨hfound, hruns⟩
    refine ⟨hfound, ?_⟩
    rintro ⟨hover, hstop, hlater⟩
    exact hruns ⟨hover, ⟨fun ⟨q, hq, hover⟩ => (hstop q hq).1 hover,
      fun ⟨q, hq, hover⟩ => (hstop q hq).2 hover⟩, hlater⟩
  · rintro ⟨hfound, hruns⟩
    refine ⟨hfound, ?_⟩
    rintro ⟨hover, hstop, hlater⟩
    exact hruns ⟨hover, fun q hq => ⟨fun hover => hstop.1 ⟨q, hq, hover⟩,
      fun hover => hstop.2 ⟨q, hq, hover⟩⟩, hlater⟩

/-- **Where local value numbering is right**, for every sequence of nodes and every def-site. -/
theorem numberingRight_iff (nodes : List (N × Option N)) (ds : DefSite N) :
    (GetRight getAnnotations nodes ds ↔ GetFits getAnnotations nodes ds) ∧
      (UncoveredRight getAnnotations nodes ds ↔ UncoveredFits getAnnotations nodes ds) :=
  ⟨getRight_iff getAnnotations nodes ds, uncoveredRight_iff getAnnotations nodes ds⟩

/-- Node 0 writes to unknown memory, node 1 may define the first byte of the memory 9. -/
def writeThenDefine : Nat → Annotations Nat
  | 0 => ⟨[⟨.unknown, .unknown, .unknown⟩], [], []⟩
  | _ => ⟨[⟨.node 9, 0, 1⟩], [], []⟩

/-- The write to unknown memory is forgotten when a definition of the byte comes after it. -/
theorem get_forgets : ¬ GetRight writeThenDefine [(0, none), (1, none)] ⟨.node 9, 0, 1⟩ := by
  intro h
  have hmem := (h 0).2 ⟨0, by decide, [], (0, none), [(1, none)], rfl,
    ⟨rfl, Or.inl ⟨⟨.unknown, .unknown, .unknown⟩, by decide, rfl⟩⟩, by
      rintro c hc ⟨ds, hds, -⟩
      obtain rfl := List.mem_singleton.1 hc
      exact nomatch hds⟩
  have hresult : (run writeThenDefine [(0, none), (1, none)]).get ⟨.node 9, 0, 1⟩ = [1] := by decide
  rw [hresult] at hmem
  exact absurd hmem (by decide)

end Definitions

end MemorySSA

end Cape
