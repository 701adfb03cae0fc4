import Cape.ADT.BitvectorRuns

/-!
# Sets of numbers

A small set of numbers is one word; the first number that the word has no place for lifts it to a
bitvector, which gets the numbers of the word. Before and after this the set has the numbers that were
inserted (`smallNumberSet_refines`).
-/

set_option autoImplicit false

namespace Cape

/-! ## One word -/

/-- `Bits`: the numbers up to 63. -/
structure Bits where
  bits : Word
deriving DecidableEq

namespace Bits

/-- `1 << i`. -/
def mask (i : Nat) : Word := 1#64 <<< i

def empty : Bits := ⟨0⟩

def isEmpty (b : Bits) : Bool := b.bits = 0

def mayContain (i : Nat) : Bool := i < 64

def get (b : Bits) (i : Nat) : Bool := if mayContain i then b.bits &&& mask i ≠ 0 else false

/-- `set`: the report is the previous value. -/
def set (b : Bits) (i : Nat) : Bits × Bool := (⟨b.bits ||| mask i⟩, b.get i)

/-- `size`: the loop over the places. -/
def size (b : Bits) : Nat :=
  (List.range 64).foldl (fun num i => if b.bits &&& mask i ≠ 0 then num + 1 else num) 0

/-- `const_iterator`. -/
structure Iterator where
  bits : Bits
  pos : Nat

namespace Iterator

def isEnd (it : Iterator) : Bool := it.pos = 64

/-- `_findNext`: the first place from `pos` on with a bit, or the end. -/
def findNext (it : Iterator) : Iterator :=
  ⟨it.bits, SparseBitvector.findClosestBit it.bits.bits (64 - it.pos) it.pos⟩

/-- `operator++`. -/
def next (it : Iterator) : Iterator :=
  let it' : Iterator := ⟨it.bits, it.pos + 1⟩
  if it'.isEnd then it' else it'.findNext

/-- The constructor of `begin`: the first element is at the first place, or is searched for. -/
def start (b : Bits) : Iterator :=
  let it : Iterator := ⟨b, 0⟩
  if b.bits &&& 1 = 0 then it.next else it

/-- What an iteration gives until it comes to the end. -/
def collect : Nat → Iterator → List Nat
  | 0, _ => []
  | fuel + 1, it => if it.isEnd then [] else it.pos :: collect fuel it.next

end Iterator

/-- The numbers from `begin` to `end`. -/
def elements (b : Bits) : List Nat := (Iterator.start b).collect 64

theorem mask_and_ne_zero_iff {w : Word} {i : Nat} (hi : i < 64) :
    w &&& mask i ≠ 0 ↔ w.getLsbD i = true := by
  have hmod : i % 64 = i := Nat.mod_eq_of_lt hi
  have hbit : SparseBitvector.bit i = mask i := by
    rw [SparseBitvector.bit, SparseBitvector.sub_shift, hmod]
    rfl
  rw [← hbit, SparseBitvector.and_bit_ne_zero_iff, hmod]

theorem getLsbD_mask {i k : Nat} (hi : i < 64) : (mask i).getLsbD k = decide (i = k) := by
  rw [← Nat.mod_eq_of_lt hi, mask, ← BitVec.twoPow_eq, BitVec.getLsbD_twoPow]
  simp [Nat.mod_lt]

theorem get_eq (b : Bits) (i : Nat) : b.get i = b.bits.getLsbD i := by
  rw [get, mayContain]
  by_cases hi : i < 64
  · rw [if_pos (decide_eq_true hi), Bool.eq_iff_iff, decide_eq_true_eq]
    exact mask_and_ne_zero_iff hi
  · rw [if_neg fun h => hi (of_decide_eq_true h), BitVec.getLsbD_of_ge _ _ (not_lt.1 hi)]

theorem get_set (b : Bits) {i : Nat} (hi : i < 64) (j : Nat) :
    (b.set i).1.get j = if j = i then true else b.get j := by
  rw [get_eq, get_eq, set, BitVec.getLsbD_or, getLsbD_mask hi]
  by_cases hj : j = i
  · simp [hj]
  · simp [hj, Ne.symm hj]

theorem isEmpty_iff (b : Bits) : b.isEmpty = true ↔ ∀ i, b.get i = false := by
  rw [isEmpty, decide_eq_true_eq]
  constructor
  · intro h i
    rw [get_eq, h]
    simp
  · intro h
    apply BitVec.eq_of_getLsbD_eq
    intro i _
    rw [← get_eq, h i]
    simp

open SparseBitvector in
/-- An iteration from a place with a bit, or from the end, gives the places that are left. The
induction is on their number. -/
theorem collect_eq (b : Bits) (fuel : Nat) : ∀ pos, (pos = 64 ∨ pos < 64 ∧ b.bits.getLsbD pos = true) →
    64 - pos ≤ fuel → (Iterator.mk b pos).collect fuel = places b.bits pos := by
  induction fuel with
  | zero =>
      rintro pos (rfl | ⟨hlt, -⟩) hfuel
      · rfl
      · omega
  | succ fuel ih =>
      rintro pos (rfl | ⟨hlt, hbit⟩) hfuel
      · rfl
      · have hend : ¬ pos = 64 := by omega
        rw [Iterator.collect, Iterator.isEnd, if_neg (by simpa using hend), places_of_bit hlt hbit]
        congr 1
        rw [Iterator.next]
        by_cases hlast : pos + 1 = 64
        · -- the last place: the iterator is at the end
          rw [Iterator.isEnd, if_pos (decide_eq_true hlast)]
          exact ih (pos + 1) (Or.inl hlast) (by omega)
        · rw [Iterator.isEnd, if_neg (by simpa using hlast), Iterator.findNext]
          rcases findClosestBit_spec b.bits (64 - (pos + 1)) (pos + 1) (by omega) with
            ⟨hle, hplaces, hfound⟩
          rw [hplaces]
          exact ih _ hfound (by dsimp only; omega)

/-- **An iteration over a word gives its places.** -/
theorem elements_eq (b : Bits) : b.elements = SparseBitvector.places b.bits 0 := by
  have hfirst : b.bits &&& 1 ≠ 0 ↔ b.bits.getLsbD 0 = true :=
    mask_and_ne_zero_iff (i := 0) (by decide)
  rw [elements, Iterator.start]
  split
  · next h =>
      -- the first place has no bit
      have hnot : ¬ b.bits.getLsbD 0 = true := fun hbit => hfirst.2 hbit h
      rcases SparseBitvector.findClosestBit_spec b.bits 63 1 rfl with ⟨-, hplaces, hfound⟩
      rw [SparseBitvector.places_of_not (by decide) hnot, hplaces]
      exact collect_eq b 64 _ hfound (Nat.sub_le _ _)
  · next h => exact collect_eq b 64 0 (Or.inr ⟨by decide, hfirst.1 h⟩) (le_refl _)

theorem mem_elements {b : Bits} {i : Nat} : i ∈ b.elements ↔ b.get i = true := by
  rw [elements_eq, SparseBitvector.mem_places, get_eq]

theorem pairwise_elements (b : Bits) : b.elements.Pairwise (· < ·) := by
  rw [elements_eq]
  exact List.Pairwise.filter _ List.pairwise_lt_range'

theorem size_eq (b : Bits) : b.size = b.elements.length := by
  -- the loop counts the places that have a bit
  have hloop : ∀ (is : List Nat) (num : Nat), (∀ i ∈ is, i < 64) →
      is.foldl (fun num i => if b.bits &&& mask i ≠ 0 then num + 1 else num) num =
        num + (is.filter fun i => b.bits.getLsbD i).length := by
    intro is
    induction is with
    | nil => intro num _; rfl
    | cons i is ih =>
        intro num his
        have hi := mask_and_ne_zero_iff (w := b.bits) (his i List.mem_cons_self)
        rw [List.foldl_cons, ih _ fun j hj => his j (List.mem_cons_of_mem i hj)]
        by_cases hbit : b.bits.getLsbD i = true
        · rw [if_pos (hi.2 hbit), List.filter_cons_of_pos (p := fun i => b.bits.getLsbD i) hbit,
            List.length_cons, Nat.add_assoc, Nat.add_comm 1]
        · rw [if_neg fun h => hbit (hi.1 h),
            List.filter_cons_of_neg (p := fun i => b.bits.getLsbD i) hbit]
  rw [size, hloop _ 0 fun i hi => List.mem_range.1 hi, elements_eq, SparseBitvector.places,
    List.range_eq_range', Nat.zero_add, Nat.sub_zero]

end Bits

/-! ## A bitvector -/

/-- `BitvectorNumberSet`. -/
structure BitvectorNumberSet where
  bitvector : SparseBitvector

namespace BitvectorNumberSet

/-- The constructor for one number. -/
def singleton (n : Nat) : BitvectorNumberSet := ⟨(SparseBitvector.empty.set n).1⟩

def add (S : BitvectorNumberSet) (n : Nat) : BitvectorNumberSet × Bool :=
  let r := S.bitvector.set n
  (⟨r.1⟩, !r.2)

def has (S : BitvectorNumberSet) (n : Nat) : Bool := S.bitvector.get n

def isEmpty (S : BitvectorNumberSet) : Bool := S.bitvector.isEmpty

def size (S : BitvectorNumberSet) : Nat := S.bitvector.size

def elements (S : BitvectorNumberSet) : List Nat := S.bitvector.elements

theorem has_add (S : BitvectorNumberSet) (n i : Nat) :
    (S.add n).1.has i = true ↔ i = n ∨ S.has i = true := by
  show (S.bitvector.set n).1.get i = true ↔ i = n ∨ S.bitvector.get i = true
  rw [SparseBitvector.get_set]
  by_cases hi : i = n
  · simp [hi]
  · simp [hi]

theorem has_singleton (n i : Nat) : (singleton n).has i = true ↔ i = n := by
  show (SparseBitvector.empty.set n).1.get i = true ↔ i = n
  rw [SparseBitvector.get_set]
  by_cases hi : i = n
  · simp [hi]
  · simp [hi]

/-- The numbers that are added one after the other. -/
theorem has_foldl_add (xs : List Nat) (S : BitvectorNumberSet) (i : Nat) :
    (xs.foldl (fun S x => (S.add x).1) S).has i = true ↔ i ∈ xs ∨ S.has i = true := by
  induction xs generalizing S with
  | nil => simp
  | cons x xs ih => rw [List.foldl_cons, ih, has_add, List.mem_cons, or_left_comm, or_assoc]

end BitvectorNumberSet

/-! ## The small set and its lifting -/

/-- `SmallNumberSet`: the tag and the union of the two sets. -/
inductive SmallNumberSet where
  | small (set : Bits)
  | big (set : BitvectorNumberSet)

namespace SmallNumberSet

def empty : SmallNumberSet := .small .empty

/-- `_lift`: a big set with the new number, to which the numbers of the word are added. -/
def lift (set : Bits) (n : Nat) : SmallNumberSet :=
  .big (set.elements.foldl (fun S x => (S.add x).1) (.singleton n))

def add (S : SmallNumberSet) (n : Nat) : SmallNumberSet × Bool :=
  match S with
  | small set =>
      if Bits.mayContain n then
        let r := set.set n
        (.small r.1, !r.2)
      else (lift set n, true)
  | big set =>
      let r := set.add n
      (.big r.1, r.2)

def has (S : SmallNumberSet) (n : Nat) : Bool :=
  match S with
  | small set => set.get n
  | big set => set.has n

def isEmpty (S : SmallNumberSet) : Bool :=
  match S with
  | small set => set.isEmpty
  | big set => set.isEmpty

def size (S : SmallNumberSet) : Nat :=
  match S with
  | small set => set.size
  | big set => set.size

/-- The numbers from `begin` to `end`, by the iterator of the set that is used. -/
def elements (S : SmallNumberSet) : List Nat :=
  match S with
  | small set => set.elements
  | big set => set.elements

/-- The set after insertions. -/
def run (ns : List Nat) : SmallNumberSet := ns.foldl (fun S n => (S.add n).1) empty

@[simp] theorem has_empty (i : Nat) : empty.has i = false := by
  show Bits.empty.get i = false
  rw [Bits.get_eq]
  exact BitVec.getLsbD_zero

/-- The lifted set has the new number and those of the word. -/
theorem has_lift (set : Bits) (n i : Nat) :
    (lift set n).has i = true ↔ i = n ∨ set.get i = true := by
  rw [lift, has, BitvectorNumberSet.has_foldl_add, Bits.mem_elements,
    BitvectorNumberSet.has_singleton]
  exact or_comm

/-- **One insertion**, with or without the lifting. -/
theorem has_add (S : SmallNumberSet) (n i : Nat) :
    (S.add n).1.has i = true ↔ i = n ∨ S.has i = true := by
  cases S with
  | small set =>
      rw [add]
      split
      · next hsmall =>
          have hset := set.get_set (of_decide_eq_true hsmall) i
          show (set.set n).1.get i = true ↔ i = n ∨ set.get i = true
          rw [hset]
          by_cases hi : i = n
          · simp [hi]
          · simp [hi]
      · exact has_lift set n i
  | big set => exact set.has_add n i

/-- An insertion reports that the number is new. -/
theorem add_report (S : SmallNumberSet) (n : Nat) : (S.add n).2 = !S.has n := by
  cases S with
  | small set =>
      rw [add]
      split
      · rfl
      · next hbig =>
          -- the word has no place for the number
          have hget : set.get n = false := if_neg hbig
          show true = !set.get n
          rw [hget]
          rfl
  | big set =>
      show (!(set.bitvector.set n).2) = !set.bitvector.get n
      rw [SparseBitvector.set_report]

theorem mem_elements {S : SmallNumberSet} {i : Nat} : i ∈ S.elements ↔ S.has i = true := by
  cases S with
  | small set => exact Bits.mem_elements
  | big set => exact SparseBitvector.mem_elements

theorem pairwise_elements (S : SmallNumberSet) : S.elements.Pairwise (· < ·) := by
  cases S with
  | small set => exact set.pairwise_elements
  | big set => exact set.bitvector.pairwise_elements

theorem size_eq (S : SmallNumberSet) : S.size = S.elements.length := by
  cases S with
  | small set => exact set.size_eq
  | big set => exact set.bitvector.size_eq

theorem isEmpty_iff (S : SmallNumberSet) : S.isEmpty = true ↔ ∀ i, S.has i = false := by
  cases S with
  | small set => exact set.isEmpty_iff
  | big set => exact set.bitvector.isEmpty_iff

theorem has_run (ns : List Nat) (i : Nat) : (run ns).has i = true ↔ i ∈ ns := by
  induction ns using List.reverseRecOn with
  | nil => simp [run]
  | append_singleton ns n ih =>
      have hlast : run (ns ++ [n]) = ((run ns).add n).1 := by
        rw [run, List.foldl_append]
        rfl
      rw [hlast, has_add, ih, List.mem_append, List.mem_singleton]
      exact or_comm

/-- **A small set of numbers refines the set of the numbers inserted**, before and after the lifting. -/
theorem smallNumberSet_refines (ns : List Nat) :
    (∀ i, (run ns).has i = true ↔ i ∈ ns.toFinset) ∧
    (run ns).size = ns.toFinset.card ∧
    ((run ns).isEmpty = true ↔ ns.toFinset = ∅) ∧
    (∀ i, i ∈ (run ns).elements ↔ i ∈ ns.toFinset) ∧ (run ns).elements.Nodup ∧
    ∀ n, ((run ns).add n).2 = true ↔ n ∉ ns.toFinset := by
  have hhas : ∀ i, (run ns).has i = true ↔ i ∈ ns.toFinset := fun i => by
    rw [has_run, List.mem_toFinset]
  have helements : ∀ i, i ∈ (run ns).elements ↔ i ∈ ns.toFinset := fun i =>
    mem_elements.trans (hhas i)
  have honce : (run ns).elements.Nodup := (run ns).pairwise_elements.imp fun h => Nat.ne_of_lt h
  refine ⟨hhas, ?_, ?_, helements, honce, fun n => ?_⟩
  · have hset : (run ns).elements.toFinset = ns.toFinset := by
      ext i
      rw [List.mem_toFinset, helements]
    rw [size_eq, ← hset, List.toFinset_card_of_nodup honce]
  · rw [isEmpty_iff, Finset.eq_empty_iff_forall_notMem]
    refine forall_congr' fun i => ?_
    rw [← Bool.not_eq_true, hhas]
  · rw [add_report, Bool.not_eq_true', ← Bool.not_eq_true, hhas]

/-- The last number of the word, then one that lifts the set, and one that is there already. -/
example : (run [63, 0]).elements = [0, 63] ∧ (run [63, 0, 64, 63]).elements = [0, 63, 64] ∧
    ((run [63, 0, 64]).add 63).2 = false := by
  decide

end SmallNumberSet

end Cape
