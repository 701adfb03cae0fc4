import Cape.LLVMReadWriteGraph.MapPointers

/-!
# Stores

`createStore` makes a node with the def-sites of the pointer operand, and the update is a strong one
when there is a single def-site, on a local or global variable at known bytes. The unknown pointer
is not among the def-sites, and with it goes the information that other memory may be written.

`createStore_right_iff`: exactly when the node says what the store may and what it must write.
-/

set_option autoImplicit false

namespace Cape.LLVMReadWriteGraph

open Cape.MemorySSA Cape.PointerAnalysis

universe u v w

variable {V : Type u} {N : Type v} {R : Type w}

/-- The size of the accessed memory, unknown for a type without one. -/
def accessSize (typeSize : Offset) : Offset := if typeSize = 0 then .unknown else typeSize

section Definitions

variable [DecidableEq R] (B : Builder V R) (getUserData : N → V)

/-- The def-site is on a local or global variable, at known bytes. -/
def strongUpdate (ds : DefSite R) : Bool :=
  (match ds.target with
    | .node target => isAlloc B target || isGlobal B target
    | .unknown => false) &&
    !ds.offset.isUnknown && !ds.len.isUnknown

/-- `createStore`: the annotations of the node. `typeSize` is the size of the value operand's type,
0 if it has none. -/
def createStore (pointsTo : Option (PointsToSet N)) (typeSize : Offset) :
    Option (Annotations R) :=
  (mapPointers B getUserData pointsTo (accessSize typeSize)).map fun defSites =>
    let strong := match defSites with
      | [ds] => strongUpdate B ds
      | _ => false
    defSites.foldl (fun node ds => node.addDef ds strong) .empty

/-- `createLoad`: the annotations of the node. -/
def createLoad (pointsTo : Option (PointsToSet N)) (typeSize : Offset) :
    Option (Annotations R) :=
  (mapPointers B getUserData pointsTo (accessSize typeSize)).map fun defSites =>
    defSites.foldl (fun node ds => node.addUse ds) .empty

end Definitions

variable (B : Builder V R) (getUserData : N → V)

/-- What the node of a store is to say about the points-to set of the pointer operand: all known
memory in it may be defined, and any memory with the unknown pointer; only the one definite target
of a set is overwritten. -/
structure StoreRight [DecidableEq N] (S : PointsToSet N) (size : Offset) (node : Annotations R) :
    Prop where
  known : ∀ ptr ∈ targets B getUserData S, ∃ n, getOperand B ptr.value = some n ∧
    ∀ b, InRange ptr.offset size b → node.MayDefines n b
  unknown : hasUnknown S = true → node.MayDefinesUnknown
  overwrites : ∀ ds ∈ node.overwrites, ∃ ptr n, IsExactly getUserData S ptr ∧
    ptr.offset ≠ .unknown ∧ getOperand B ptr.value = some n ∧ ds.target = .node n ∧
    isDynAlloc B n = false

/-- The pointer is to a known offset of a local or global variable. -/
def IsVariable (ptr : LLVMPointer V) : Prop :=
  ptr.offset ≠ .unknown ∧
    ∃ n, getOperand B ptr.value = some n ∧ (isAlloc B n = true ∨ isGlobal B n = true)

variable {B getUserData}

theorem strongUpdate_iff [DecidableEq R] {size : Offset} {ptr : LLVMPointer V} {ds : DefSite R}
    (h : toDefSite B size ptr = some ds) :
    strongUpdate B ds = true ↔ IsVariable B ptr ∧ size ≠ .unknown := by
  obtain ⟨n, hn, rfl⟩ := toDefSite_eq_some.1 h
  unfold strongUpdate IsVariable
  by_cases hoff : ptr.offset = .unknown
  · simp [hoff]
  · have hknown := (Offset.isUnknown_eq_false_iff ptr.offset).2 hoff
    simp [hoff, hn, hknown, Offset.isUnknown_eq_false_iff]

section Fold

variable [DecidableEq R]

theorem mem_defs_foldl {l : List (DefSite R)} {s : Bool} (a : Annotations R) (ds : DefSite R) :
    ds ∈ (l.foldl (fun node ds => node.addDef ds s) a).defs ↔ (ds ∈ l ∧ s = false) ∨ ds ∈ a.defs := by
  induction l generalizing a with
  | nil => simp
  | cons d l ih =>
      rw [List.foldl_cons, ih, Annotations.mem_defs_addDef, List.mem_cons]
      tauto

theorem mem_overwrites_foldl {l : List (DefSite R)} {s : Bool} (a : Annotations R)
    (ds : DefSite R) : ds ∈ (l.foldl (fun node ds => node.addDef ds s) a).overwrites ↔
      (ds ∈ l ∧ s = true) ∨ ds ∈ a.overwrites := by
  induction l generalizing a with
  | nil => simp
  | cons d l ih =>
      rw [List.foldl_cons, ih, Annotations.mem_overwrites_addDef, List.mem_cons]
      tauto

end Fold

/-- What `createStore` leaves behind. -/
theorem createStore_spec [DecidableEq R] {pointsTo : Option (PointsToSet N)} {typeSize : Offset}
    {node : Annotations R} (h : createStore B getUserData pointsTo typeSize = some node) :
    ∃ defSites, List.Forall₂ (fun ptr ds => toDefSite B (accessSize typeSize) ptr = some ds)
        (targets B getUserData (pointsToSet pointsTo)) defSites ∧
      (∀ ds, ds ∈ node.defs ∨ ds ∈ node.overwrites ↔ ds ∈ defSites) ∧
      ∀ ds, ds ∈ node.overwrites ↔ defSites = [ds] ∧ strongUpdate B ds = true := by
  obtain ⟨defSites, hmap, rfl⟩ := Option.map_eq_some_iff.1 h
  rw [mapPointers_eq] at hmap
  refine ⟨defSites, forall₂_of_mapM hmap, fun ds => ?_, fun ds => ?_⟩
  · rw [mem_defs_foldl, mem_overwrites_foldl]
    simp only [Annotations.empty, Finset.notMem_empty, or_false]
    rw [← and_or_left, and_iff_left]
    exact (Bool.eq_false_or_eq_true _).symm
  · rw [mem_overwrites_foldl]
    simp only [Annotations.empty, Finset.notMem_empty, or_false]
    constructor
    · rintro ⟨hds, hstrong⟩
      split at hstrong
      · obtain rfl := List.mem_singleton.1 hds
        exact ⟨rfl, hstrong⟩
      · cases hstrong
    · rintro ⟨rfl, hstrong⟩
      exact ⟨List.mem_singleton_self ds, hstrong⟩

/-- **When the node of a store is right**: the set has no unknown pointer, and a variable that is its
only memory is its only element. -/
theorem createStore_right_iff [DecidableEq N] [DecidableEq R] (B : Builder V R) (getUserData : N → V)
    (pointsTo : Option (PointsToSet N)) (typeSize : Offset) (node : Annotations R)
    (h : createStore B getUserData pointsTo typeSize = some node) :
    StoreRight B getUserData (pointsToSet pointsTo) (accessSize typeSize) node ↔
      hasUnknown (pointsToSet pointsTo) = false ∧
        ∀ ptr, targets B getUserData (pointsToSet pointsTo) = [ptr] → IsVariable B ptr →
          accessSize typeSize ≠ .unknown → (pointsToSet pointsTo).pointers.length = 1 := by
  obtain ⟨defSites, hforall, hmem, hover⟩ := createStore_spec h
  have hnode : ∀ ds ∈ defSites, ∃ n, ds.target = .node n := by
    intro ds hds
    obtain ⟨ptr, -, hptr⟩ := exists_of_mem_right hforall hds
    obtain ⟨n, -, rfl⟩ := toDefSite_eq_some.1 hptr
    exact ⟨n, rfl⟩
  constructor
  · intro hright
    refine ⟨?_, fun ptr htargets hvar hsize => ?_⟩
    · by_contra hunknown
      obtain ⟨ds, hds, htarget⟩ := hright.unknown (by simpa using hunknown)
      obtain ⟨n, hn⟩ := hnode ds ((hmem ds).1 hds)
      cases hn.symm.trans htarget
    · rw [htargets] at hforall
      cases hforall with
      | @cons _ ds _ _ hds hnil =>
          cases hnil
          have hstrong := (strongUpdate_iff hds).2 ⟨hvar, hsize⟩
          obtain ⟨ptr', n, hexact, -⟩ := hright.overwrites ds ((hover ds).2 ⟨rfl, hstrong⟩)
          exact hexact.1
  · rintro ⟨hunknown, hsingle⟩
    refine ⟨fun ptr hptr => ?_, fun h => ?_, fun ds hds => ?_⟩
    · obtain ⟨ds, hds, hsite⟩ := exists_of_mem_left hforall hptr
      obtain ⟨n, hn, hcovers⟩ := covers_of_toDefSite hsite
      exact ⟨n, hn, fun b hb => ⟨ds, (hmem ds).2 hds, hcovers b hb⟩⟩
    · rw [hunknown] at h
      cases h
    · obtain ⟨rfl, hstrong⟩ := (hover ds).1 hds
      -- a strong update has a single target, and with the premise a single pointer
      generalize htargets : targets B getUserData (pointsToSet pointsTo) = l at hforall
      cases hforall with
      | @cons ptr _ _ _ hsite hnil =>
          cases hnil
          obtain ⟨hvar, hsize⟩ := (strongUpdate_iff hsite).1 hstrong
          obtain ⟨n, hn, rfl⟩ := toDefSite_eq_some.1 hsite
          obtain ⟨n', hn', hlocal⟩ := hvar.2
          obtain rfl := Option.some.inj (hn.symm.trans hn')
          have hlen := hsingle ptr htargets hvar hsize
          have hptr : ptr ∈ targets B getUserData (pointsToSet pointsTo) := by
            rw [htargets]
            exact List.mem_singleton_self ptr
          exact ⟨ptr, n, isExactly_of_mem_targets hptr hlen, hvar.1, hn, rfl,
            not_isDynAlloc_of_local hlocal⟩

theorem mem_uses_foldl [DecidableEq R] {l : List (DefSite R)} (a : Annotations R)
    (ds : DefSite R) :
    ds ∈ (l.foldl (fun node ds => node.addUse ds) a).uses ↔ ds ∈ l ∨ ds ∈ a.uses := by
  induction l generalizing a with
  | nil => simp
  | cons d l ih =>
      rw [List.foldl_cons, ih, Annotations.mem_uses_addUse, List.mem_cons]
      tauto

/-- **When the node of a load is right**: all known memory is used, and the unknown pointer, which
would have to be, is not there. -/
theorem createLoad_right_iff [DecidableEq N] [DecidableEq R] {pointsTo : Option (PointsToSet N)}
    {typeSize : Offset} {node : Annotations R}
    (h : createLoad B getUserData pointsTo typeSize = some node) :
    (∀ ptr ∈ targets B getUserData (pointsToSet pointsTo), ∃ n, getOperand B ptr.value = some n ∧
        ∀ b, InRange ptr.offset (accessSize typeSize) b → node.Uses n b) ∧
      ((hasUnknown (pointsToSet pointsTo) = true → node.UsesUnknown) ↔
        hasUnknown (pointsToSet pointsTo) = false) := by
  obtain ⟨defSites, hmap, rfl⟩ := Option.map_eq_some_iff.1 h
  rw [mapPointers_eq] at hmap
  have hforall := forall₂_of_mapM hmap
  have hmem : ∀ ds, ds ∈ (defSites.foldl (fun (node : Annotations R) ds => node.addUse ds)
      Annotations.empty).uses ↔ ds ∈ defSites := fun ds => by
    rw [mem_uses_foldl]
    simp [Annotations.empty]
  refine ⟨fun ptr hptr => ?_, fun hunknown => ?_, fun hknown hunknown => ?_⟩
  · obtain ⟨ds, hds, hsite⟩ := exists_of_mem_left hforall hptr
    obtain ⟨n, hn, hcovers⟩ := covers_of_toDefSite hsite
    exact ⟨n, hn, fun b hb => ⟨ds, (hmem ds).2 hds, hcovers b hb⟩⟩
  · rw [← Bool.not_eq_true]
    intro hset
    obtain ⟨ds, hds, htarget⟩ := hunknown hset
    -- all def-sites are on nodes
    obtain ⟨ptr, -, hptr⟩ := exists_of_mem_right hforall ((hmem ds).1 hds)
    obtain ⟨n, -, rfl⟩ := toDefSite_eq_some.1 hptr
    cases htarget
  · rw [hknown] at hunknown
    cases hunknown

/-- **A store to a variable** is annotated right. -/
theorem createStore_right_variable :
    StoreRight oneVariable id (pointsToSet (some (.singleton ⟨.node (), 0⟩))) (accessSize 4)
      ⟨∅, {⟨.node (), 0, 4⟩}, ∅⟩ ↔
    hasUnknown (pointsToSet (some (PointsToSet.singleton ⟨PSNode.node (), 0⟩))) = false ∧
      ∀ ptr, targets oneVariable id (pointsToSet (some (.singleton ⟨.node (), 0⟩))) = [ptr] →
        IsVariable oneVariable ptr → accessSize 4 ≠ .unknown →
          (pointsToSet (some (PointsToSet.singleton ⟨PSNode.node (), 0⟩))).pointers.length = 1 :=
  createStore_right_iff oneVariable id (some (.singleton ⟨.node (), 0⟩)) 4
    ⟨∅, {⟨.node (), 0, 4⟩}, ∅⟩ (by decide)

/-- **A wrong strong update**: a store to the variable or anywhere overwrites the variable, and it
does not define unknown memory. -/
theorem overwrites_with_unknown :
    createStore oneVariable id
      (some ⟨[⟨.node (), 0⟩, .unknownPointer], by decide⟩ : Option (PointsToSet Unit)) 4 =
        some ⟨∅, {⟨.node (), 0, 4⟩}, ∅⟩ ∧
    ¬ StoreRight oneVariable id (pointsToSet (some ⟨[⟨.node (), 0⟩, .unknownPointer], by decide⟩))
      (accessSize 4) ⟨∅, {⟨.node (), 0, 4⟩}, ∅⟩ := by
  refine ⟨by decide, fun hright => ?_⟩
  obtain ⟨ptr, n, hexact, -⟩ := hright.overwrites ⟨.node (), 0, 4⟩ (Finset.mem_singleton_self _)
  exact absurd hexact.1 (by decide)

end Cape.LLVMReadWriteGraph
