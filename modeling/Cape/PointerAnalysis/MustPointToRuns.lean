import Cape.PointerAnalysis.MustPointTo

/-!
# Must-point-to over runs

Runs of additions, unions and removals over many sets of one class. `mustRight_reached_iff` says for
each class in which of the sets that are reached the answers are right.
-/

set_option autoImplicit false

namespace Cape.PointerAnalysis

open Cape.Library

universe u

variable {N K : Type u} [DecidableEq N]

/-- An operation on one of many sets. The query may give a number to its pointer. -/
inductive ChangeOp (N : Type u) where
  | add (i : Nat) (p : Pointer N)
  | union (i j : Nat)
  | remove (i : Nat) (p : Pointer N)
  | removeAny (i : Nat) (t : PSNode N)
  | pointsTo (i : Nat) (p : Pointer N)

/-- If there is exactly one pointer, then it is a known one. -/
def KnownIfOnly (C : Pointer N → Prop) : Prop := ∀ p, Only C p → p.IsKnown

/-! ## Plain sets -/

namespace SimplePointsToSet

def change (sets : Nat → PointsToSet N) : ChangeOp N → Nat → PointsToSet N
  | .add i p => Function.update sets i (add p (sets i)).1
  | .union i j => Function.update sets i (union (sets j) (sets i)).1
  | .remove i p => Function.update sets i (remove p (sets i)).1
  | .removeAny i t => Function.update sets i (removeAny t (sets i)).1
  | .pointsTo _ _ => sets

def changed (ops : List (ChangeOp N)) : Nat → PointsToSet N := ops.foldl change fun _ => .empty

/-- The answers of the set after the operations are right. -/
def RightAfter (ops : List (ChangeOp N)) (i : Nat) : Prop :=
  MustRight Pointer.Asserted (· ∈ changed ops i) (mustPointTo (changed ops i))
    (isSingleton (changed ops i))

end SimplePointsToSet

/-! ## Encoded sets -/

section Encoded

variable [DecidableEq K] (E : Encoding N K)

def Sets.change (s : Sets N K) : ChangeOp N → Sets N K
  | .add i p =>
      let r := E.add (s.sets i) p s.ids
      ⟨r.2, Function.update s.sets i r.1.1⟩
  | .union i j => ⟨s.ids, Function.update s.sets i (Encoding.union (s.sets i) (s.sets j)).1⟩
  | .remove i p =>
      let r := E.remove (s.sets i) p s.ids
      ⟨r.2, Function.update s.sets i r.1.1⟩
  | .removeAny i t =>
      let r := E.removeAny (s.sets i) t s.ids
      ⟨r.2, Function.update s.sets i r.1.1⟩
  | .pointsTo i p => ⟨(E.pointsTo (s.sets i) p s.ids).2, s.sets⟩

def Sets.changed (ops : List (ChangeOp N)) : Sets N K := ops.foldl (Sets.change E) .empty

/-- The pointers of a set after the operations. -/
def Encoding.HasAfter (ops : List (ChangeOp N)) (i : Nat) (p : Pointer N) : Prop :=
  (E.pointsTo ((Sets.changed E ops).sets i) p (Sets.changed E ops).ids).1 = true

def Encoding.RightAfter (isSingleton : EncodedSet N → Bool) (ops : List (ChangeOp N)) (i : Nat) :
    Prop :=
  MustRight Pointer.Asserted (E.HasAfter ops i)
    (fun p => (E.mustPointTo isSingleton ((Sets.changed E ops).sets i) p
      (Sets.changed E ops).ids).1)
    (isSingleton ((Sets.changed E ops).sets i))

variable {E}

/-- Each operation is one on plain sets. -/
theorem SetsEncode.change {s : Sets N K} {sets : Nat → PointsToSet N} (h : SetsEncode E s sets)
    (op : ChangeOp N) : ∃ sets', SetsEncode E (s.change E op) sets' := by
  cases op with
  | add i p =>
      rcases (h i).add p with ⟨hadd, -, hids⟩
      exact ⟨_, h.update hids hadd⟩
  | union i j => exact ⟨_, h.update (.refl s.ids) ((h i).union (h j))⟩
  | remove i p =>
      rcases (h i).remove p with ⟨hremove, hids⟩
      exact ⟨_, h.update hids hremove⟩
  | removeAny i t =>
      rcases (h i).removeAny t with ⟨hremove, hids⟩
      exact ⟨_, h.update hids hremove⟩
  | pointsTo i p => exact ⟨sets, fun j => (h j).preserves ((h i).pointsTo p).2⟩

variable (E) in
theorem setsEncode_changed (ops : List (ChangeOp N)) :
    ∃ sets, SetsEncode E (Sets.changed E ops) sets := by
  induction ops using List.reverseRecOn with
  | nil => exact ⟨_, fun i => .empty _⟩
  | append_singleton ops op ih =>
      rcases ih with ⟨sets, hsets⟩
      rw [Sets.changed, List.foldl_append]
      exact hsets.change op

variable (E) in
/-- The sets that count the pointers in both containers. -/
theorem rightAfter_iff (ops : List (ChangeOp N)) (i : Nat) :
    E.RightAfter EncodedSet.isSingleton ops i ↔ KnownIfOnly (E.HasAfter ops i) := by
  rcases setsEncode_changed E ops with ⟨sets, hsets⟩
  exact mustRight_encoded_iff (hsets i) (isSingleton_iff (hsets i))

/-- The sets that have a position for each pointer. -/
theorem rightAfter_vector_iff (hvalid : ∀ off, E.isOffsetValid off = true)
    (ops : List (ChangeOp N)) (i : Nat) :
    E.RightAfter EncodedSet.isSingletonVector ops i ↔ KnownIfOnly (E.HasAfter ops i) := by
  rcases setsEncode_changed E ops with ⟨sets, hsets⟩
  exact mustRight_encoded_iff (hsets i) (isSingletonVector_iff (hsets i) hvalid)

end Encoded

/-! ## Targets with offsets -/

namespace OffsetsSetPointsToSet

def change (sets : Nat → OffsetsSetPointsToSet N) : ChangeOp N → Nat → OffsetsSetPointsToSet N
  | .add i p => Function.update sets i ((sets i).add p).1
  | .union i j => Function.update sets i (union (sets j) (sets i)).1
  | .remove i p => Function.update sets i ((sets i).remove p).1
  | .removeAny i t => Function.update sets i ((sets i).removeAny t).1
  | .pointsTo _ _ => sets

def changed (ops : List (ChangeOp N)) : Nat → OffsetsSetPointsToSet N :=
  ops.foldl change fun _ => empty

def RightAfter (ops : List (ChangeOp N)) (i : Nat) : Prop :=
  MustRight Pointer.Asserted (fun p => (changed ops i).pointsTo p = true)
    (changed ops i).mustPointTo (changed ops i).isSingleton

theorem bounded_change {sets : Nat → OffsetsSetPointsToSet N} (h : ∀ i, (sets i).Bounded)
    (op : ChangeOp N) (i : Nat) : (change sets op i).Bounded := by
  -- one set is another one, and the others stay
  have hupdate : ∀ {j : Nat} {S : OffsetsSetPointsToSet N}, S.Bounded →
      (Function.update sets j S i).Bounded := by
    intro j S hS
    exact (Function.forall_update_iff sets fun _ S => S.Bounded).2 ⟨hS, fun k _ => h k⟩ i
  cases op with
  | add j p => exact hupdate ((h j).add p)
  | union j k => exact hupdate ((h j).union (h k))
  | remove j p => exact hupdate ((h j).remove p)
  | removeAny j t => exact hupdate ((h j).removeAny t)
  | pointsTo j p => exact h i

theorem bounded_changed (ops : List (ChangeOp N)) (i : Nat) : (changed ops i).Bounded := by
  induction ops using List.reverseRecOn generalizing i with
  | nil => exact .empty
  | append_singleton ops op ih =>
      rw [changed, List.foldl_append]
      exact bounded_change ih op i

end OffsetsSetPointsToSet

/-! ## Targets and offsets apart -/

/-- The sets of the class, and the numbers that they share. -/
structure SeparateSets (N : Type u) [DecidableEq N] where
  ids : Numbering (PSNode N)
  sets : Nat → SeparateOffsetsPointsToSet

namespace SeparateSets

/-- One operation. The removals are not implemented: they abort. -/
def change (s : SeparateSets N) : ChangeOp N → Option (SeparateSets N)
  | .add i p =>
      let r := (s.sets i).add p s.ids
      some ⟨r.2, Function.update s.sets i r.1.1⟩
  | .union i j => some ⟨s.ids, Function.update s.sets i
      (SeparateOffsetsPointsToSet.union (s.sets j) (s.sets i)).1⟩
  | .remove _ _ => none
  | .removeAny _ _ => none
  | .pointsTo i p => some ⟨((s.sets i).pointsTo p s.ids).2, s.sets⟩

def changed (ops : List (ChangeOp N)) : Option (SeparateSets N) :=
  ops.foldlM change ⟨.empty, fun _ => .empty⟩

/-- The answers of a set are right. -/
def RightAt (s : SeparateSets N) (i : Nat) : Prop :=
  MustRight (fun _ => True) (fun p => ((s.sets i).pointsTo p s.ids).1 = true)
    (fun p => ((s.sets i).mustPointTo p s.ids).1) (s.sets i).isSingleton

/-- The answers of the set after the operations are right, if none of them aborts. -/
def RightAfter (ops : List (ChangeOp N)) (i : Nat) : Prop := ∀ s, changed ops = some s → s.RightAt i

/-- What the vectors have is known. -/
def Known (s : SeparateSets N) : Prop :=
  ∀ i, SeparateOffsetsPointsToSet.Known s.ids (s.sets i)

theorem Known.update {s : SeparateSets N} (h : s.Known) {ids : Numbering (PSNode N)}
    (hids : s.ids.Preserves ids) {i : Nat} {S : SeparateOffsetsPointsToSet}
    (hS : SeparateOffsetsPointsToSet.Known ids S) :
    Known ⟨ids, Function.update s.sets i S⟩ :=
  (Function.forall_update_iff s.sets fun _ S => SeparateOffsetsPointsToSet.Known ids S).2
    ⟨hS, fun j _ => (h j).preserves hids⟩

theorem Known.change {s s' : SeparateSets N} (h : s.Known) {op : ChangeOp N}
    (hchange : s.change op = some s') : s'.Known := by
  cases op with
  | add i p =>
      obtain rfl := Option.some.inj hchange
      rcases (h i).add p with ⟨hadd, hids⟩
      exact h.update hids hadd
  | union i j =>
      obtain rfl := Option.some.inj hchange
      exact h.update (.refl s.ids) ((h i).union (h j))
  | remove i p => cases hchange
  | removeAny i t => cases hchange
  | pointsTo i p =>
      obtain rfl := Option.some.inj hchange
      have hids := (s.sets i).pointsTo_preserves p s.ids
      exact fun j => (h j).preserves hids

theorem known_changed {ops : List (ChangeOp N)} {s : SeparateSets N} (h : changed ops = some s) :
    s.Known := by
  induction ops using List.reverseRecOn generalizing s with
  | nil =>
      obtain rfl := Option.some.inj h
      exact fun _ => .empty _
  | append_singleton ops op ih =>
      rw [changed, List.foldlM_append, Option.bind_eq_bind, Option.bind_eq_some_iff] at h
      rcases h with ⟨s', hs', hlast⟩
      rw [List.foldlM_cons, Option.bind_eq_bind, Option.bind_eq_some_iff] at hlast
      rcases hlast with ⟨s'', hchange, hdone⟩
      obtain rfl := Option.some.inj hdone
      exact (ih hs').change hchange

theorem rightAfter_iff (ops : List (ChangeOp N)) (i : Nat) :
    RightAfter ops i ↔ ∀ s, changed ops = some s →
      SeparateOffsetsPointsToSet.MustFits s.ids (s.sets i) :=
  forall_congr' fun _ => imp_congr_right fun h =>
    SeparateOffsetsPointsToSet.mustRight_iff (known_changed h i)

end SeparateSets

/-- **Where the answers of the sets are right**, for each class and each set that is reached. -/
theorem mustRight_reached_iff (ops : List (ChangeOp N)) (i : Nat) :
    (SimplePointsToSet.RightAfter ops i ↔ KnownIfOnly (· ∈ SimplePointsToSet.changed ops i)) ∧
    (pointerIdPointsToSet.RightAfter EncodedSet.isSingletonVector ops i ↔
      KnownIfOnly (pointerIdPointsToSet.HasAfter ops i)) ∧
    (smallOffsetsPointsToSet.RightAfter EncodedSet.isSingleton ops i ↔
      KnownIfOnly (smallOffsetsPointsToSet.HasAfter ops i)) ∧
    (alignedSmallOffsetsPointsToSet.RightAfter EncodedSet.isSingleton ops i ↔
      KnownIfOnly (alignedSmallOffsetsPointsToSet.HasAfter ops i)) ∧
    (alignedPointerIdPointsToSet.RightAfter EncodedSet.isSingleton ops i ↔
      KnownIfOnly (alignedPointerIdPointsToSet.HasAfter ops i)) ∧
    (OffsetsSetPointsToSet.RightAfter ops i ↔ (OffsetsSetPointsToSet.changed ops i).MustFits) ∧
    (SeparateSets.RightAfter ops i ↔ ∀ s, SeparateSets.changed ops = some s →
      SeparateOffsetsPointsToSet.MustFits s.ids (s.sets i)) := by
  refine ⟨mustRight_simple_iff _, ?_, rightAfter_iff _ ops i, rightAfter_iff _ ops i,
    rightAfter_iff _ ops i, ?_, SeparateSets.rightAfter_iff ops i⟩
  · -- each offset is valid there
    apply rightAfter_vector_iff
    exact fun _ => rfl
  · apply OffsetsSetPointsToSet.mustRight_iff
    exact OffsetsSetPointsToSet.bounded_changed ops i

/-- Two offsets of one target look like one pointer, and so does an entry without offsets; with one
offset, each of two targets is said to be the only one. -/
theorem singleton_of_two : ¬ OffsetsSetPointsToSet.RightAfter
      ([.add 0 ⟨.node 1, 0⟩, .add 0 ⟨.node 1, 8⟩] : List (ChangeOp Nat)) 0 ∧
    ¬ OffsetsSetPointsToSet.RightAfter
      ([.add 0 ⟨.node 1, 0⟩, .remove 0 ⟨.node 1, 0⟩] : List (ChangeOp Nat)) 0 ∧
    ¬ SeparateSets.RightAfter
      ([.add 0 ⟨.node 1, 0⟩, .add 0 ⟨.node 2, 0⟩] : List (ChangeOp Nat)) 0 := by
  refine ⟨?_, ?_, ?_⟩
  · intro h
    rcases h.single (by decide) with ⟨p, honly, -⟩
    have hfirst := (honly ⟨.node 1, 0⟩).1 (by decide)
    have hsecond := (honly ⟨.node 1, 8⟩).1 (by decide)
    exact absurd (hfirst.trans hsecond.symm) (by decide)
  · intro h
    have hfits := (OffsetsSetPointsToSet.mustRight_iff
      (OffsetsSetPointsToSet.bounded_changed _ 0)).1 h
    -- the entry is still there
    rcases hfits ⟨.node 1, ((SparseBitvector.empty.set 0).1.unset 0).1⟩ rfl with ⟨-, off, -, hbits⟩
    have hget := (hbits off.toNat).2 rfl
    rw [SparseBitvector.get_unset, SparseBitvector.get_set] at hget
    split at hget
    · cases hget
    · cases hget
  · intro h
    have hmust := (h _ rfl).must ⟨.node 1, 0⟩ trivial (by decide)
    have hsecond := (hmust.1 ⟨.node 2, 0⟩).1 (by decide)
    exact absurd hsecond (by decide)

end Cape.PointerAnalysis
