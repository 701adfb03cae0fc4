import Cape.Library.OrderedMap
import Mathlib.Tactic

/-!
# Sparse bitvectors

A set of numbers as a map from multiples of 64 to words, in which no word is zero. `get_set`,
`get_unset` and `get_union` say what the operations do to the set; an iterator goes through the bits of
one word after the other (`elements_eq`).
-/

set_option autoImplicit false

namespace Cape

open Library

abbrev Word := BitVec 64

/-- `SparseBitvector`. -/
structure SparseBitvector where
  bits : List (Nat × Word)
  sorted : OrderedMap.Sorted bits
  aligned : ∀ e ∈ bits, 64 ∣ e.1
  nonzero : ∀ e ∈ bits, e.2 ≠ 0
deriving DecidableEq

namespace SparseBitvector

/-- `_shift`. -/
def shift (i : Nat) : Nat := i - i % 64

/-- `1UL << (i - sft)`. -/
def bit (i : Nat) : Word := 1#64 <<< (i - shift i)

/-- `_countBits`: how often the lowest bit is one, until the word is zero. -/
def countBits (fuel : Nat) (bits : Word) : Nat :=
  match fuel with
  | 0 => 0
  | fuel + 1 =>
      if bits = 0 then 0
      else (if bits &&& 1 ≠ 0 then 1 else 0) + countBits fuel (bits >>> 1)

theorem dvd_shift (i : Nat) : 64 ∣ shift i := Nat.dvd_sub_mod i

theorem sub_shift (i : Nat) : i - shift i = i % 64 := by
  have := Nat.mod_le i 64
  rw [shift]
  omega

theorem shift_add_mod (i : Nat) : shift i + i % 64 = i := by
  have := Nat.mod_le i 64
  rw [shift]
  omega

/-- Two numbers are the same if they are in one word at one place. -/
theorem eq_iff_shift {i j : Nat} : i = j ↔ shift i = shift j ∧ i % 64 = j % 64 := by
  constructor
  · rintro rfl
    exact ⟨rfl, rfl⟩
  · rintro ⟨hshift, hmod⟩
    rw [← shift_add_mod i, ← shift_add_mod j, hshift, hmod]

theorem bit_eq (i : Nat) : bit i = BitVec.twoPow 64 (i % 64) := by
  rw [bit, sub_shift]
  rfl

theorem getLsbD_bit (i k : Nat) : (bit i).getLsbD k = decide (i % 64 = k) := by
  have := Nat.mod_lt i (by decide : 64 > 0)
  rw [bit_eq, BitVec.getLsbD_twoPow, decide_eq_true this, Bool.true_and]

theorem bit_ne_zero (i : Nat) : bit i ≠ 0 := by
  intro h
  have hbit := getLsbD_bit i (i % 64)
  rw [h] at hbit
  simp at hbit

/-- The test of a bit. -/
theorem and_bit_ne_zero_iff {w : Word} {i : Nat} :
    w &&& bit i ≠ 0 ↔ w.getLsbD (i % 64) = true := by
  have hlt := Nat.mod_lt i (by decide : 64 > 0)
  rw [bit_eq, BitVec.and_twoPow]
  split
  · next h =>
      rw [← bit_eq]
      exact iff_of_true (bit_ne_zero i) h
  · next h => exact iff_of_false (fun hne => hne rfl) h

/-! ## Operations -/

/-- The empty vector, and `reset`. -/
def empty : SparseBitvector := ⟨[], .nil, nofun, nofun⟩

/-- `empty`. -/
def isEmpty (v : SparseBitvector) : Bool := v.bits.isEmpty

/-- A word is put into the map. -/
def store (v : SparseBitvector) (sft : Nat) (hsft : 64 ∣ sft) (w : Word) (hw : w ≠ 0) :
    SparseBitvector where
  bits := OrderedMap.store sft w v.bits
  sorted := v.sorted.store _ _
  aligned := by
    intro e he
    rcases OrderedMap.mem_store he with rfl | he
    · exact hsft
    · exact v.aligned e he
  nonzero := by
    intro e he
    rcases OrderedMap.mem_store he with rfl | he
    · exact hw
    · exact v.nonzero e he

/-- A word is taken out of the map. -/
def erase (v : SparseBitvector) (sft : Nat) : SparseBitvector where
  bits := OrderedMap.erase sft v.bits
  sorted := v.sorted.erase _
  aligned := fun e he => v.aligned e (OrderedMap.mem_of_mem_erase he)
  nonzero := fun e he => v.nonzero e (OrderedMap.mem_of_mem_erase he)

/-- `get`. -/
def get (v : SparseBitvector) (i : Nat) : Bool :=
  match OrderedMap.find (shift i) v.bits with
  | none => false
  | some w => w &&& bit i ≠ 0

theorem or_ne_zero {w w' : Word} (h : w' ≠ 0) : w ||| w' ≠ 0 := by
  intro hor
  apply h
  have hle := congrArg BitVec.toNat hor
  rw [BitVec.toNat_or] at hle
  exact BitVec.eq_of_toNat_eq (Nat.or_eq_zero_iff.1 hle).2

/-- `set`: the report is the bit as it was. -/
def set (v : SparseBitvector) (i : Nat) : SparseBitvector × Bool :=
  match OrderedMap.find (shift i) v.bits with
  | none => (v.store (shift i) (dvd_shift i) (bit i) (bit_ne_zero i), false)
  | some w =>
      (v.store (shift i) (dvd_shift i) (w ||| bit i) (or_ne_zero (bit_ne_zero i)), w &&& bit i ≠ 0)

/-- `unset`: a word that becomes zero is taken out. The report is that there was a word. -/
def unset (v : SparseBitvector) (i : Nat) : SparseBitvector × Bool :=
  match OrderedMap.find (shift i) v.bits with
  | none => (v, false)
  | some w =>
      (if h : w &&& ~~~bit i = 0 then v.erase (shift i)
        else v.store (shift i) (dvd_shift i) (w &&& ~~~bit i) h, true)

/-- One word of the other vector. -/
def unionWord (v : SparseBitvector) (e : Nat × Word) (he : 64 ∣ e.1 ∧ e.2 ≠ 0) :
    SparseBitvector × Bool :=
  let old := (OrderedMap.find e.1 v.bits).getD 0
  (v.store e.1 he.1 (old ||| e.2) (or_ne_zero he.2), old ≠ old ||| e.2)

/-- The words of the other vector, one after the other. -/
def unionWords (v : SparseBitvector) (es : List (Nat × Word))
    (hes : ∀ e ∈ es, 64 ∣ e.1 ∧ e.2 ≠ 0) : SparseBitvector × Bool :=
  match es with
  | [] => (v, false)
  | e :: es =>
      let r := v.unionWord e (hes e List.mem_cons_self)
      let r' := r.1.unionWords es fun e' he' => hes e' (List.mem_cons_of_mem e he')
      (r'.1, r.2 || r'.2)

/-- `set` with another vector: the report is that a word has changed. -/
def union (v rhs : SparseBitvector) : SparseBitvector × Bool :=
  v.unionWords rhs.bits fun e he => ⟨rhs.aligned e he, rhs.nonzero e he⟩

/-- `size`. -/
def size (v : SparseBitvector) : Nat := (v.bits.map fun e => countBits 64 e.2).sum

/-! ## What they do to the set -/

/-- The word of a key, zero without an entry. -/
def word (v : SparseBitvector) (sft : Nat) : Word := (OrderedMap.find sft v.bits).getD 0

theorem get_eq (v : SparseBitvector) (i : Nat) : v.get i = (v.word (shift i)).getLsbD (i % 64) := by
  rw [get, word]
  cases OrderedMap.find (shift i) v.bits with
  | none => simp
  | some w =>
      rw [Bool.eq_iff_iff, decide_eq_true_eq]
      exact and_bit_ne_zero_iff

theorem word_store (v : SparseBitvector) (sft sft' : Nat) (hsft : 64 ∣ sft) (w : Word) (hw : w ≠ 0) :
    (v.store sft hsft w hw).word sft' = if sft' = sft then w else v.word sft' := by
  rw [word, store, OrderedMap.find_store]
  split
  · rfl
  · rfl

theorem word_erase (v : SparseBitvector) (sft sft' : Nat) :
    (v.erase sft).word sft' = if sft' = sft then 0 else v.word sft' := by
  rw [word, erase, OrderedMap.find_erase]
  split
  · rfl
  · rfl

@[simp] theorem get_empty (i : Nat) : empty.get i = false := rfl

/-- A word that changes in one bit only. -/
theorem get_of_word {v v' : SparseBitvector} {i : Nat} {b : Bool}
    (hword : ∀ sft, v'.word sft = if sft = shift i then v'.word (shift i) else v.word sft)
    (hbits : ∀ k, (v'.word (shift i)).getLsbD k =
      if i % 64 = k then b else (v.word (shift i)).getLsbD k) (j : Nat) :
    v'.get j = if j = i then b else v.get j := by
  rw [get_eq, get_eq, hword (shift j)]
  -- is `j` in the word that changes, and is it the bit?
  split
  · next hshift =>
      rw [hbits (j % 64)]
      by_cases hmod : i % 64 = j % 64
      · rw [if_pos hmod, if_pos (eq_iff_shift.2 ⟨hshift, hmod.symm⟩)]
      · rw [if_neg hmod, if_neg fun heq => hmod (by rw [heq]), hshift]
  · next hshift => rw [if_neg fun heq => hshift (by rw [heq])]

theorem get_set (v : SparseBitvector) (i j : Nat) :
    (v.set i).1.get j = if j = i then true else v.get j := by
  apply get_of_word
  · intro sft
    rw [set]
    split
    · rw [word_store, word_store, if_pos rfl]
    · rw [word_store, word_store, if_pos rfl]
  · intro k
    rw [set]
    split
    · next h =>
        rw [word_store, if_pos rfl, getLsbD_bit, word, h]
        by_cases hk : i % 64 = k
        · simp [hk]
        · simp [hk]
    · next w h =>
        rw [word_store, if_pos rfl, BitVec.getLsbD_or, getLsbD_bit, word, h]
        by_cases hk : i % 64 = k
        · simp [hk]
        · simp [hk]

@[simp] theorem set_report (v : SparseBitvector) (i : Nat) : (v.set i).2 = v.get i := by
  rw [set, get]
  split
  · rfl
  · rfl

theorem get_unset (v : SparseBitvector) (i j : Nat) :
    (v.unset i).1.get j = if j = i then false else v.get j := by
  -- the word without the bit, or no word at all
  have hnew : ∀ w, OrderedMap.find (shift i) v.bits = some w → ∀ sft,
      (v.unset i).1.word sft = if sft = shift i then w &&& ~~~bit i else v.word sft := by
    intro w hw sft
    rw [unset, hw]
    dsimp only
    split
    · next h => rw [word_erase, h]
    · rw [word_store]
  cases hfind : OrderedMap.find (shift i) v.bits with
  | none =>
      have hsame : (v.unset i).1 = v := by
        rw [unset, hfind]
      rw [hsame]
      split
      · next heq => rw [heq, get, hfind]
      · rfl
  | some w =>
      apply get_of_word
      · intro sft
        rw [hnew w hfind, hnew w hfind, if_pos rfl]
      · intro k
        rw [hnew w hfind, if_pos rfl, BitVec.getLsbD_and, BitVec.getLsbD_not, getLsbD_bit, word,
          hfind]
        by_cases hk : i % 64 = k
        · simp [hk]
        · by_cases hlt : k < 64
          · simp [hk, hlt]
          · have hge : w.getLsbD k = false := BitVec.getLsbD_of_ge w k (not_lt.1 hlt)
            simp [hk, hge]

/-- A word of the vector has the bits of the vector. -/
theorem get_of_mem {v : SparseBitvector} {e : Nat × Word} (he : e ∈ v.bits) {k : Nat} (hk : k < 64) :
    v.get (e.1 + k) = e.2.getLsbD k := by
  have hdvd := v.aligned e he
  have hmod : (e.1 + k) % 64 = k := by omega
  have hshift : shift (e.1 + k) = e.1 := by
    have := shift_add_mod (e.1 + k)
    omega
  rw [get_eq, hmod, hshift, word, (v.sorted.find_eq_some_iff).2 he, Option.getD_some]

theorem exists_mem_of_get {v : SparseBitvector} {i : Nat} (h : v.get i = true) :
    ∃ e ∈ v.bits, e.1 = shift i ∧ e.2.getLsbD (i % 64) = true := by
  rw [get_eq, word] at h
  cases hfind : OrderedMap.find (shift i) v.bits with
  | none =>
      rw [hfind] at h
      simp at h
  | some w =>
      rw [hfind, Option.getD_some] at h
      exact ⟨(shift i, w), (v.sorted.find_eq_some_iff).1 hfind, rfl, h⟩

theorem get_unionWord (v : SparseBitvector) {e : Nat × Word} (he : 64 ∣ e.1 ∧ e.2 ≠ 0) (j : Nat) :
    (v.unionWord e he).1.get j = (v.get j || (e.1 = shift j && e.2.getLsbD (j % 64))) := by
  rw [get_eq, get_eq, unionWord, word_store]
  by_cases hshift : shift j = e.1
  · rw [if_pos hshift, BitVec.getLsbD_or, word, hshift]
    simp
  · rw [if_neg hshift]
    simp [Ne.symm hshift]

theorem get_unionWords {es : List (Nat × Word)} (v : SparseBitvector)
    (hes : ∀ e ∈ es, 64 ∣ e.1 ∧ e.2 ≠ 0) (j : Nat) :
    (v.unionWords es hes).1.get j =
      (v.get j || es.any fun e => e.1 = shift j && e.2.getLsbD (j % 64)) := by
  induction es generalizing v with
  | nil => simp [unionWords]
  | cons e es ih =>
      rw [unionWords]
      dsimp only
      rw [ih, get_unionWord, List.any_cons, Bool.or_assoc]

theorem get_union (v rhs : SparseBitvector) (j : Nat) :
    (v.union rhs).1.get j = (v.get j || rhs.get j) := by
  rw [union, get_unionWords]
  congr 1
  rw [Bool.eq_iff_iff, List.any_eq_true]
  constructor
  · rintro ⟨e, he, h⟩
    rw [Bool.and_eq_true, decide_eq_true_eq] at h
    -- the word of the other vector has the bit at the place of `j`
    have hget := get_of_mem he (Nat.mod_lt j (by decide : 64 > 0))
    rw [h.1, shift_add_mod, h.2] at hget
    exact hget
  · intro h
    rcases exists_mem_of_get h with ⟨e, he, hshift, hbit⟩
    refine ⟨e, he, ?_⟩
    rw [hbit, hshift]
    simp

/-- A word changes if a bit comes in. -/
theorem unionWord_report (v : SparseBitvector) {e : Nat × Word} (he : 64 ∣ e.1 ∧ e.2 ≠ 0) :
    (v.unionWord e he).2 = true ↔
      ∃ j, e.1 = shift j ∧ e.2.getLsbD (j % 64) = true ∧ v.get j = false := by
  have hbit : ∀ k < 64, v.get (e.1 + k) = (v.word e.1).getLsbD k := by
    intro k hk
    have hmod : (e.1 + k) % 64 = k := by omega
    have hshift : shift (e.1 + k) = e.1 := by
      have := shift_add_mod (e.1 + k)
      omega
    rw [get_eq, hmod, hshift]
  show decide (v.word e.1 ≠ v.word e.1 ||| e.2) = true ↔ _
  rw [decide_eq_true_eq, Ne, BitVec.eq_of_getLsbD_eq_iff]
  simp only [BitVec.getLsbD_or, not_forall]
  constructor
  · rintro ⟨k, hk, hne⟩
    -- the words differ where the old one has no bit
    have hmod : (e.1 + k) % 64 = k := by omega
    refine ⟨e.1 + k, ?_, ?_⟩
    · have := shift_add_mod (e.1 + k)
      omega
    · rw [hmod, hbit k hk]
      revert hne
      cases (v.word e.1).getLsbD k <;> cases e.2.getLsbD k <;> simp
  · rintro ⟨j, hshift, hj, hnot⟩
    refine ⟨j % 64, Nat.mod_lt j (by decide : 64 > 0), ?_⟩
    rw [get_eq, ← hshift] at hnot
    rw [hj, hnot]
    simp

theorem unionWords_report {es : List (Nat × Word)} (v : SparseBitvector)
    (hes : ∀ e ∈ es, 64 ∣ e.1 ∧ e.2 ≠ 0) : (v.unionWords es hes).2 = true ↔
      ∃ e ∈ es, ∃ j, e.1 = shift j ∧ e.2.getLsbD (j % 64) = true ∧ v.get j = false := by
  induction es generalizing v with
  | nil => simp [unionWords]
  | cons e es ih =>
      rw [unionWords, List.exists_mem_cons_iff]
      dsimp only
      rw [Bool.or_eq_true, unionWord_report, ih]
      constructor
      · rintro (h | ⟨e', he', j, hshift, hj, hnot⟩)
        · exact Or.inl h
        · rw [get_unionWord, Bool.or_eq_false_iff] at hnot
          exact Or.inr ⟨e', he', j, hshift, hj, hnot.1⟩
      · rintro (h | ⟨e', he', j, hshift, hj, hnot⟩)
        · exact Or.inl h
        · -- the bit may come in with the first word already
          by_cases hfirst : e.1 = shift j ∧ e.2.getLsbD (j % 64) = true
          · exact Or.inl ⟨j, hfirst.1, hfirst.2, hnot⟩
          · right
            refine ⟨e', he', j, hshift, hj, ?_⟩
            rw [get_unionWord, hnot, Bool.false_or, Bool.and_eq_false_iff, decide_eq_false_iff_not,
              ← Bool.not_eq_true, ← not_and_or]
            exact hfirst

/-- The union reports a change if the other vector has a new bit. -/
theorem union_report (v rhs : SparseBitvector) :
    (v.union rhs).2 = true ↔ ∃ j, rhs.get j = true ∧ v.get j = false := by
  rw [union, unionWords_report]
  constructor
  · rintro ⟨e, he, j, hshift, hj, hnot⟩
    have hget := get_of_mem he (Nat.mod_lt j (by decide : 64 > 0))
    rw [hshift, shift_add_mod, hj] at hget
    exact ⟨j, hget, hnot⟩
  · rintro ⟨j, hj, hnot⟩
    rcases exists_mem_of_get hj with ⟨e, he, hshift, hbit⟩
    exact ⟨e, he, j, hshift, hbit, hnot⟩

/-! ## Iteration -/

/-- `const_iterator`: the words from the current one on, and the place of the bit. -/
structure Iterator where
  container : List (Nat × Word)
  pos : Nat

/-- `_findClosestBit`: the first place from `pos` on with a bit, or 64. -/
def findClosestBit (w : Word) : Nat → Nat → Nat
  | 0, pos => pos
  | fuel + 1, pos =>
      if w &&& (1#64 <<< pos) ≠ 0 then pos else findClosestBit w fuel (pos + 1)

namespace Iterator

/-- The first bit of the words. -/
def start (container : List (Nat × Word)) : Iterator :=
  match container with
  | [] => ⟨[], 0⟩
  | e :: es => ⟨e :: es, findClosestBit e.2 64 0⟩

/-- From this place on: the first bit of the word, or the first one of the words behind it. -/
def seek (e : Nat × Word) (es : List (Nat × Word)) (pos : Nat) : Iterator :=
  let pos := findClosestBit e.2 (64 - pos) pos
  if pos = 64 then start es else ⟨e :: es, pos⟩

/-- `operator++`. -/
def next (it : Iterator) : Iterator :=
  match it.container with
  | [] => it
  | e :: es => seek e es (it.pos + 1)

/-- What an iteration gives until it comes to the end. -/
def collect : Nat → Iterator → List Nat
  | 0, _ => []
  | fuel + 1, it =>
      match it.container with
      | [] => []
      | e :: _ => (e.1 + it.pos) :: collect fuel it.next

end Iterator

/-- The numbers from `begin` to `end`. -/
def elements (v : SparseBitvector) : List Nat :=
  Iterator.collect (64 * v.bits.length) (Iterator.start v.bits)

/-- The places of a word that have a bit, from `pos` on. -/
def places (w : Word) (pos : Nat) : List Nat :=
  (List.range' pos (64 - pos)).filter fun k => w.getLsbD k

/-- The numbers of a word, from a place on, and of the words behind it. -/
def rest (e : Nat × Word) (es : List (Nat × Word)) (pos : Nat) : List Nat :=
  (places e.2 pos).map (e.1 + ·) ++ es.flatMap fun e => (places e.2 0).map (e.1 + ·)

theorem places_of_bit {w : Word} {pos : Nat} (hpos : pos < 64) (h : w.getLsbD pos = true) :
    places w pos = pos :: places w (pos + 1) := by
  have hlen : 64 - pos = (64 - (pos + 1)) + 1 := by omega
  rw [places, hlen, List.range'_succ, List.filter_cons_of_pos h]
  rfl

theorem places_of_not {w : Word} {pos : Nat} (hpos : pos < 64) (h : ¬ w.getLsbD pos = true) :
    places w pos = places w (pos + 1) := by
  have hlen : 64 - pos = (64 - (pos + 1)) + 1 := by omega
  rw [places, hlen, List.range'_succ, List.filter_cons_of_neg h]
  rfl

theorem places_end (w : Word) : places w 64 = [] := rfl

theorem mem_places {w : Word} {k : Nat} : k ∈ places w 0 ↔ w.getLsbD k = true := by
  rw [places, List.mem_filter, List.mem_range'_1]
  refine and_iff_right_of_imp fun h => ?_
  have := BitVec.lt_of_getLsbD h
  omega

/-- The search ends at a bit, and there is none before it. -/
theorem findClosestBit_spec (w : Word) (fuel pos : Nat) (h : pos + fuel = 64) :
    pos ≤ findClosestBit w fuel pos ∧ places w pos = places w (findClosestBit w fuel pos) ∧
      (findClosestBit w fuel pos = 64 ∨ (findClosestBit w fuel pos < 64 ∧
        w.getLsbD (findClosestBit w fuel pos) = true)) := by
  induction fuel generalizing pos with
  | zero => exact ⟨le_refl _, rfl, Or.inl h⟩
  | succ fuel ih =>
      have hpos : pos < 64 := by omega
      have hmod : pos % 64 = pos := Nat.mod_eq_of_lt hpos
      have htest : w &&& (1#64 <<< pos) ≠ 0 ↔ w.getLsbD pos = true := by
        have hbit : bit pos = 1#64 <<< pos := by
          rw [bit, sub_shift, hmod]
        rw [← hbit, and_bit_ne_zero_iff, hmod]
      rw [findClosestBit]
      split
      · next hbit => exact ⟨le_refl _, rfl, Or.inr ⟨hpos, htest.1 hbit⟩⟩
      · next hbit =>
          rcases ih (pos + 1) (by omega) with ⟨hle, hplaces, hend⟩
          refine ⟨by omega, ?_, hend⟩
          rw [places_of_not hpos fun h => hbit (htest.2 h), hplaces]

theorem places_ne_nil {w : Word} (h : w ≠ 0) : places w 0 ≠ [] := by
  intro hnil
  apply h
  apply BitVec.eq_of_getLsbD_eq
  intro k _
  have hnot : k ∉ places w 0 := by
    rw [hnil]
    exact List.not_mem_nil
  rw [mem_places, Bool.not_eq_true] at hnot
  rw [hnot]
  simp

/-- The iteration over one word, when the one over the words behind it is right. The induction is on
the places that are left. -/
theorem collect_seek {es : List (Nat × Word)}
    (hbehind : ∀ fuel, (es.flatMap fun e => (places e.2 0).map (e.1 + ·)).length ≤ fuel →
      (Iterator.start es).collect fuel = es.flatMap fun e => (places e.2 0).map (e.1 + ·))
    (e : Nat × Word) (left : Nat) : ∀ pos fuel, pos + left = 64 → (rest e es pos).length ≤ fuel →
      (Iterator.seek e es pos).collect fuel = rest e es pos := by
  induction left using Nat.strong_induction_on with
  | _ left ih =>
      intro pos fuel hpos hfuel
      have hleft : 64 - pos = left := by omega
      rcases findClosestBit_spec e.2 left pos hpos with ⟨hle, hplaces, hend | ⟨hlt, hbit⟩⟩
      · have hnone : rest e es pos = es.flatMap fun e => (places e.2 0).map (e.1 + ·) := by
          rw [rest, hplaces, hend, places_end]
          rfl
        rw [hnone] at hfuel
        rw [hnone, Iterator.seek, hleft, hend, if_pos rfl]
        exact hbehind fuel hfuel
      · -- the bit that is found, and then the rest of the word
        generalize hp : findClosestBit e.2 left pos = p at hle hplaces hlt hbit
        have hcons : rest e es pos = (e.1 + p) :: rest e es (p + 1) := by
          rw [rest, hplaces, places_of_bit hlt hbit]
          rfl
        rw [hcons, List.length_cons] at hfuel
        rw [hcons, Iterator.seek, hleft, hp, if_neg (by omega)]
        cases fuel with
        | zero => omega
        | succ fuel =>
            show (e.1 + p) :: (Iterator.seek e es (p + 1)).collect fuel = _
            rw [ih (64 - (p + 1)) (by omega) (p + 1) fuel (by omega) (by omega)]

theorem collect_start (es : List (Nat × Word)) : (∀ e ∈ es, e.2 ≠ 0) → ∀ fuel,
    (es.flatMap fun e => (places e.2 0).map (e.1 + ·)).length ≤ fuel →
      (Iterator.start es).collect fuel = es.flatMap fun e => (places e.2 0).map (e.1 + ·) := by
  induction es with
  | nil =>
      intro _ fuel _
      cases fuel with
      | zero => rfl
      | succ fuel => rfl
  | cons e es ih =>
      intro hes fuel hfuel
      have hbehind := ih fun e' he' => hes e' (List.mem_cons_of_mem e he')
      -- the first word has a bit
      have hstart : Iterator.start (e :: es) = Iterator.seek e es 0 := by
        rcases findClosestBit_spec e.2 64 0 rfl with ⟨-, hplaces, hend | ⟨hlt, -⟩⟩
        · rw [hend, places_end] at hplaces
          exact absurd hplaces (places_ne_nil (hes e List.mem_cons_self))
        · rw [Iterator.seek, Nat.sub_zero, if_neg (by omega)]
          rfl
      rw [hstart]
      exact collect_seek hbehind e 64 0 fuel rfl hfuel

/-- **An iteration gives the bits** of one word after the other. -/
theorem elements_eq (v : SparseBitvector) :
    v.elements = v.bits.flatMap fun e => (places e.2 0).map (e.1 + ·) := by
  apply collect_start v.bits v.nonzero
  have hword : ∀ w, (places w 0).length ≤ 64 := fun w => by
    have h := List.length_filter_le (fun k => w.getLsbD k) (List.range' 0 64)
    rw [List.length_range'] at h
    exact h
  induction v.bits with
  | nil => exact le_refl _
  | cons e es ih =>
      have := hword e.2
      rw [List.flatMap_cons, List.length_append, List.length_map, List.length_cons]
      omega

theorem mem_elements {v : SparseBitvector} {i : Nat} : i ∈ v.elements ↔ v.get i = true := by
  rw [elements_eq, List.mem_flatMap]
  constructor
  · rintro ⟨e, he, hi⟩
    rcases List.mem_map.1 hi with ⟨k, hk, rfl⟩
    rw [mem_places] at hk
    rw [get_of_mem he (BitVec.lt_of_getLsbD hk), hk]
  · intro h
    rcases exists_mem_of_get h with ⟨e, he, hshift, hbit⟩
    refine ⟨e, he, List.mem_map.2 ⟨i % 64, mem_places.2 hbit, ?_⟩⟩
    rw [hshift, shift_add_mod]

/-- Each number comes once, in the order of the numbers. -/
theorem pairwise_elements (v : SparseBitvector) : v.elements.Pairwise (· < ·) := by
  rw [elements_eq, List.pairwise_flatMap]
  constructor
  · intro e _
    rw [List.pairwise_map]
    have hrange : (places e.2 0).Pairwise (· < ·) := List.Pairwise.filter _ List.pairwise_lt_range'
    exact hrange.imp fun h => Nat.add_lt_add_left h e.1
  · have haligned := v.aligned
    refine v.sorted.imp_of_mem fun {e e'} he he' hlt => ?_
    intro i hi i' hi'
    rcases List.mem_map.1 hi with ⟨k, hk, rfl⟩
    rcases List.mem_map.1 hi' with ⟨k', hk', rfl⟩
    have hk := BitVec.lt_of_getLsbD (mem_places.1 hk)
    have hdvd := haligned e he
    have hdvd' := haligned e' he'
    omega

theorem nodup_elements (v : SparseBitvector) : v.elements.Nodup :=
  v.pairwise_elements.imp fun h => Nat.ne_of_lt h

/-- The bits that are counted are those of the first places. -/
theorem countBits_eq (fuel : Nat) (w : Word) :
    countBits fuel w = ((List.range' 0 fuel).filter fun k => w.getLsbD k).length := by
  induction fuel generalizing w with
  | zero => rfl
  | succ fuel ih =>
      rw [countBits]
      split
      · next h => simp [h]
      · have hfirst : w &&& 1 ≠ 0 ↔ w.getLsbD 0 = true := and_bit_ne_zero_iff (i := 0)
        have hrest : ((List.range' 1 fuel).filter fun k => w.getLsbD k).length =
            countBits fuel (w >>> 1) := by
          rw [ih, ← List.map_add_range' (a := 1) 0 fuel, List.filter_map, List.length_map]
          simp [Function.comp_def]
        have hrest : ((List.range' (0 + 1) fuel).filter fun k => w.getLsbD k).length =
            countBits fuel (w >>> 1) := hrest
        rw [List.range'_succ]
        by_cases hbit : w.getLsbD 0 = true
        · rw [if_pos (hfirst.2 hbit), List.filter_cons_of_pos hbit, List.length_cons, hrest]
          omega
        · rw [if_neg fun h => hbit (hfirst.1 h), List.filter_cons_of_neg hbit, hrest]
          omega

/-- **`size`** is the number of elements. -/
theorem size_eq (v : SparseBitvector) : v.size = v.elements.length := by
  rw [size, elements_eq, List.length_flatMap]
  congr 1
  refine List.map_congr_left fun e _ => ?_
  rw [countBits_eq, List.length_map]
  rfl

theorem isEmpty_iff (v : SparseBitvector) : v.isEmpty = true ↔ ∀ i, v.get i = false := by
  rw [isEmpty, List.isEmpty_iff]
  constructor
  · intro h i
    rw [get, h]
    rfl
  · intro h
    rw [List.eq_nil_iff_forall_not_mem]
    intro e he
    rcases List.exists_mem_of_ne_nil _ (places_ne_nil (v.nonzero e he)) with ⟨k, hk⟩
    rw [mem_places] at hk
    have hget := get_of_mem he (BitVec.lt_of_getLsbD hk)
    rw [h, hk] at hget
    cases hget

/-- The report of `unset` is that the word of the bit has a bit. -/
theorem unset_report (v : SparseBitvector) (i : Nat) :
    (v.unset i).2 = true ↔ ∃ j, shift j = shift i ∧ v.get j = true := by
  rw [unset]
  cases hfind : OrderedMap.find (shift i) v.bits with
  | none =>
      refine iff_of_false Bool.false_ne_true ?_
      rintro ⟨j, hshift, hget⟩
      rw [get, hshift, hfind] at hget
      cases hget
  | some w =>
      refine iff_of_true rfl ?_
      have he : (shift i, w) ∈ v.bits := (v.sorted.find_eq_some_iff).1 hfind
      rcases List.exists_mem_of_ne_nil _ (places_ne_nil (v.nonzero _ he)) with ⟨k, hk⟩
      rw [mem_places] at hk
      have hlt := BitVec.lt_of_getLsbD hk
      have hget := get_of_mem he hlt
      refine ⟨shift i + k, ?_, hget.trans hk⟩
      have := dvd_shift i
      rw [shift]
      omega

/-- Where the word has no bit, nothing is done. -/
theorem unset_of_not_report {v : SparseBitvector} {i : Nat} (h : (v.unset i).2 = false) :
    (v.unset i).1 = v := by
  revert h
  rw [unset]
  cases OrderedMap.find (shift i) v.bits with
  | none => exact fun _ => rfl
  | some w => exact fun h => absurd h (by simp)

end SparseBitvector

end Cape
