import Mathlib.Logic.Function.Basic
import Mathlib.Data.List.Basic
import Mathlib.Data.Int.Basic
import Mathlib.Tactic

/-!
# The allocation stacks of the Cape runtime

`samples/common.h` keeps, for every buffer id, the stack of the buffers that are live under the
id (`allocMap`). The instrumentation calls `pushAllocStack` after an allocation, `popAllocStack`
before the return, and `iterateAllocStack` at the start of a transaction, where one word of every
64-byte line of every live buffer is to be read.

The stack holds one pointer per buffer, but the size is a single field that every push overwrites.
`preloadsLive_iff_sizesAgree` says for which call sequences the reads are still the lines of the
live buffers; `not_preloadsLive_varSizes` is a sequence for which they are not.
-/

set_option autoImplicit false

namespace Cape.Runtime.AllocStack

/-! ## The runtime -/

/-- `struct allocInst`: one size and the stack of pointers pushed under an id. -/
structure AllocInst where
  size : Int
  stack : List Nat

/-- `std::map<int, allocInst> allocMap`; an id that was never used maps to the
value-initialised entry. -/
abbrev AllocMap := Int → AllocInst

/-- The map at program start. -/
def allocMap : AllocMap := fun _ => ⟨0, []⟩

/-- Conversion of a `long` to `int`: the low 32 bits, read as a signed number. -/
def toInt (x : Int) : Int := Int.bmod x (2 ^ 32)

/-- `pushAllocStack`: the size field is overwritten, the pointer is pushed. -/
def pushAllocStack (m : AllocMap) (idx a_size e_size : Int) (pt : Nat) : AllocMap :=
  Function.update m idx ⟨toInt (e_size * a_size), (m idx).stack ++ [pt]⟩

/-- `popAllocStack`: nothing happens on an empty stack. -/
def popAllocStack (m : AllocMap) (idx : Int) : AllocMap :=
  Function.update m idx { m idx with stack := (m idx).stack.dropLast }

/-- `uend = (uintptr_t)(*i) + E->size`: the size is sign-extended and the sum wraps. -/
def uend (size : Int) (pt : Nat) : Nat := (((pt : Int) + size) % 2 ^ 64).toNat

/-- `ustart = (uintptr_t)(*i) & ~lineOffMask`. -/
def ustart (pt : Nat) : Nat := pt / 64 * 64

/-- The loop `for (; ustart < uend; ustart += 64) sum = *(int *)(ustart);`, cut off after `fuel`
evaluations of its condition. The result lists the addresses read. -/
def readLines : Nat → Nat → Nat → Option (List Nat)
  | 0, _, _ => none
  | fuel + 1, u, e =>
      if u < e then (readLines fuel ((u + 64) % 2 ^ 64) e).map (u :: ·) else some []

/-- The loop over the stack entries: every entry is read with the one size of the id. -/
def readStack (fuel : Nat) (size : Int) : List Nat → Option (List Nat)
  | [] => some []
  | pt :: pts =>
      (readLines fuel (ustart pt) (uend size pt)).bind fun rs =>
        (readStack fuel size pts).map (rs ++ ·)

/-- `iterateAllocStack`: the addresses it reads. -/
def iterateAllocStack (fuel : Nat) (m : AllocMap) (idx : Int) : Option (List Nat) :=
  readStack fuel (m idx).size (m idx).stack

/-! ## Call sequences and live buffers -/

/-- A buffer as it is announced by a push: `pt`, `a_size` elements of `e_size` bytes. It lies in
the 64-bit address space. -/
structure Buffer where
  ptr : Nat
  count : Nat
  elem : Nat
  ptr_lt : ptr < 2 ^ 64
  fits : ptr + count * elem ≤ 2 ^ 64

/-- The size in bytes that the buffer is pushed with. -/
def Buffer.bytes (b : Buffer) : Nat := b.count * b.elem

/-- The line with number `l` holds a byte of the buffer. -/
def Buffer.HasLine (b : Buffer) (l : Nat) : Prop :=
  ∃ x, b.ptr ≤ x ∧ x < b.ptr + b.bytes ∧ x / 64 = l

/-- A runtime call of the instrumentation that changes the stacks. -/
inductive Op where
  | push (idx : Int) (b : Buffer)
  | pop (idx : Int)

/-- The effect of one call. -/
def Op.exec (m : AllocMap) : Op → AllocMap
  | .push idx b => pushAllocStack m idx b.count b.elem b.ptr
  | .pop idx => popAllocStack m idx

/-- The map after a sequence of calls. -/
def run (ops : List Op) : AllocMap := ops.foldl Op.exec allocMap

/-- The buffers live under `idx` after one more call. -/
def Op.live (idx : Int) (bs : List Buffer) : Op → List Buffer
  | .push i b => if i = idx then bs ++ [b] else bs
  | .pop i => if i = idx then bs.dropLast else bs

/-- The buffers live under `idx`: pushed and not yet popped, oldest first. -/
def live (ops : List Op) (idx : Int) : List Buffer := ops.foldl (Op.live idx) []

/-- The byte count of the last push under `idx`, whether or not it was popped since. -/
def Op.lastBytes (idx : Int) (n : Nat) : Op → Nat
  | .push i b => if i = idx then b.bytes else n
  | .pop _ => n

/-- The byte count of the last push under `idx` in a sequence; `0` when there is none. -/
def lastBytes (ops : List Op) (idx : Int) : Nat := ops.foldl (Op.lastBytes idx) 0

/-- What the instrumentation relies on: the call returns, it reads a byte of every line of every
live buffer, and the four bytes of each read lie in lines of live buffers. -/
def PreloadsLive (ops : List Op) (idx : Int) : Prop :=
  ∃ fuel reads, iterateAllocStack fuel (run ops) idx = some reads ∧
    (∀ b ∈ live ops idx, ∀ l, b.HasLine l → ∃ a ∈ reads, ∃ k < 4, (a + k) / 64 = l) ∧
    ∀ a ∈ reads, ∀ k < 4, ∃ b ∈ live ops idx, b.HasLine ((a + k) / 64)

/-! ## The map after a sequence -/

/-- The stack under an id holds the pointers of its live buffers. -/
theorem run_stack (ops : List Op) (idx : Int) :
    (run ops idx).stack = (live ops idx).map Buffer.ptr := by
  induction ops using List.reverseRecOn with
  | nil => rfl
  | append_singleton ops op ih =>
      simp only [run, live, List.foldl_append, List.foldl_cons, List.foldl_nil] at ih ⊢
      cases op with
      | push i b =>
          by_cases hi : i = idx
          · subst hi
            simp [Op.exec, pushAllocStack, Op.live, ih]
          · simp [Op.exec, pushAllocStack, Op.live, hi, Function.update_of_ne (Ne.symm hi), ih]
      | pop i =>
          by_cases hi : i = idx
          · subst hi
            simp [Op.exec, popAllocStack, Op.live, ih]
          · simp [Op.exec, popAllocStack, Op.live, hi, Function.update_of_ne (Ne.symm hi), ih]

/-- The size under an id is that of the last push. -/
theorem run_size (ops : List Op) (idx : Int) :
    (run ops idx).size = toInt (lastBytes ops idx) := by
  induction ops using List.reverseRecOn with
  | nil => simp [run, allocMap, lastBytes, toInt]
  | append_singleton ops op ih =>
      simp only [run, lastBytes, List.foldl_append, List.foldl_cons, List.foldl_nil] at ih ⊢
      cases op with
      | push i b =>
          by_cases hi : i = idx
          · subst hi
            simp [Op.exec, pushAllocStack, Op.lastBytes, Buffer.bytes, mul_comm]
          · simp [Op.exec, pushAllocStack, Op.lastBytes, hi, Function.update_of_ne (Ne.symm hi), ih]
      | pop i =>
          by_cases hi : i = idx
          · subst hi
            simp [Op.exec, popAllocStack, Op.lastBytes, ih]
          · simp [Op.exec, popAllocStack, Op.lastBytes, Function.update_of_ne (Ne.symm hi), ih]

/-! ## The read loop -/

/-- Line `l` is one of those the loop visits for an entry: not before the pointer's own line and
starting below the computed end. -/
def InSpan (size : Int) (pt l : Nat) : Prop := pt / 64 ≤ l ∧ 64 * l < uend size pt

theorem ustart_mod (pt : Nat) : ustart pt % 64 = 0 := by
  simp [ustart]

/-- An end in the last line of the address space is never passed: the start wraps to `0` first. -/
theorem readLines_diverges {e : Nat} (he : 2 ^ 64 - 64 < e) :
    ∀ fuel u, u % 64 = 0 → u < 2 ^ 64 → readLines fuel u e = none := by
  intro fuel
  induction fuel with
  | zero => intro u _ _; rfl
  | succ fuel ih =>
      intro u hmod hu
      have hlt : u < e := by omega
      have hnext : readLines fuel ((u + 64) % 2 ^ 64) e = none :=
        ih _ (by omega) (Nat.mod_lt _ (by norm_num))
      simp only [readLines, hlt, if_true, hnext, Option.map_none]

/-- Whenever the loop returns, it has read the line starts from `u` up to the end. -/
theorem mem_of_readLines {e : Nat} (he : e ≤ 2 ^ 64 - 64) :
    ∀ fuel u l, readLines fuel u e = some l →
      ∀ a, a ∈ l ↔ u ≤ a ∧ a < e ∧ (a - u) % 64 = 0 := by
  intro fuel
  induction fuel with
  | zero => intro u l h; simp [readLines] at h
  | succ fuel ih =>
      intro u l h a
      by_cases hu : u < e
      · simp only [readLines, hu, if_true, Option.map_eq_some_iff] at h
        obtain ⟨l', hl', rfl⟩ := h
        have hstep : (u + 64) % 2 ^ 64 = u + 64 := Nat.mod_eq_of_lt (by omega)
        rw [hstep] at hl'
        rw [List.mem_cons, ih _ _ hl' a]
        omega
      · simp only [readLines, hu, if_false, Option.some.injEq] at h
        subst h
        simp only [List.not_mem_nil, false_iff]
        omega

/-- Below the last line of the address space the loop returns. -/
theorem readLines_isSome {e : Nat} (he : e ≤ 2 ^ 64 - 64) :
    ∀ fuel u, e < u + 64 * fuel → (readLines (fuel + 1) u e).isSome := by
  intro fuel
  induction fuel with
  | zero =>
      intro u h
      have hu : ¬ u < e := by omega
      simp [readLines, hu]
  | succ fuel ih =>
      intro u h
      rw [readLines]
      by_cases hu : u < e
      · have hstep : (u + 64) % 2 ^ 64 = u + 64 := Nat.mod_eq_of_lt (by omega)
        rw [if_pos hu, hstep, Option.isSome_map]
        exact ih _ (by omega)
      · rw [if_neg hu]
        rfl

/-- An address below the end that a returned loop has read starts a line of the entry's span, and
every line of the span is read. -/
theorem line_of_readLines {size : Int} {pt fuel : Nat} {l : List Nat}
    (hw : uend size pt ≤ 2 ^ 64 - 64)
    (h : readLines fuel (ustart pt) (uend size pt) = some l) (n : Nat) :
    64 * n ∈ l ↔ InSpan size pt n := by
  rw [mem_of_readLines hw fuel _ l h]
  unfold InSpan ustart
  omega

/-- The reads of a returned loop start lines. -/
theorem dvd_of_readLines {size : Int} {pt fuel : Nat} {l : List Nat}
    (hw : uend size pt ≤ 2 ^ 64 - 64)
    (h : readLines fuel (ustart pt) (uend size pt) = some l) {a : Nat} (ha : a ∈ l) :
    64 * (a / 64) = a := by
  have hmem := (mem_of_readLines hw fuel _ l h a).1 ha
  have hmod := ustart_mod pt
  omega

/-! ## The whole iteration -/

/-- A returned iteration has passed no end in the last line of the address space. -/
theorem uend_le_of_readStack {fuel : Nat} {size : Int} :
    ∀ {pts reads : List Nat}, readStack fuel size pts = some reads → (∀ pt ∈ pts, pt < 2 ^ 64) →
      ∀ pt ∈ pts, uend size pt ≤ 2 ^ 64 - 64 := by
  intro pts
  induction pts with
  | nil => intro reads _ _ pt hpt; simp at hpt
  | cons q pts ih =>
      intro reads h hlt pt hpt
      simp only [readStack, Option.bind_eq_some_iff, Option.map_eq_some_iff] at h
      obtain ⟨rs, hq, rest, hrest, -⟩ := h
      rcases List.mem_cons.1 hpt with rfl | hpt
      · by_contra hw
        have hu : ustart pt < 2 ^ 64 :=
          lt_of_le_of_lt (Nat.div_mul_le_self pt 64) (hlt pt List.mem_cons_self)
        rw [readLines_diverges (by omega) fuel _ (ustart_mod pt) hu] at hq
        simp at hq
      · exact ih hrest (fun q hq => hlt q (List.mem_cons_of_mem _ hq)) pt hpt

/-- When no end lies in the last line of the address space, the iteration returns. -/
theorem readStack_isSome {size : Int} :
    ∀ {pts : List Nat}, (∀ pt ∈ pts, uend size pt ≤ 2 ^ 64 - 64) →
      (readStack (2 ^ 58 + 1) size pts).isSome := by
  intro pts
  induction pts with
  | nil => intro _; rfl
  | cons q pts ih =>
      intro h
      have hq := h q List.mem_cons_self
      obtain ⟨rs, hrs⟩ := Option.isSome_iff_exists.1
        (readLines_isSome hq (2 ^ 58) (ustart q) (by omega))
      obtain ⟨rest, hrest⟩ := Option.isSome_iff_exists.1
        (ih fun pt hpt => h pt (List.mem_cons_of_mem _ hpt))
      simp only [readStack, hrs, hrest, Option.bind_some, Option.map_some, Option.isSome_some]

/-- The addresses a returned iteration has read: the line starts of the entries' spans. -/
theorem mem_of_readStack {fuel : Nat} {size : Int} :
    ∀ {pts reads : List Nat}, readStack fuel size pts = some reads →
      (∀ pt ∈ pts, uend size pt ≤ 2 ^ 64 - 64) →
      ∀ a, a ∈ reads ↔ ∃ pt ∈ pts, ∃ l, InSpan size pt l ∧ a = 64 * l := by
  intro pts
  induction pts with
  | nil =>
      intro reads h _ a
      simp only [readStack, Option.some.injEq] at h
      subst h
      simp
  | cons q pts ih =>
      intro reads h hw a
      simp only [readStack, Option.bind_eq_some_iff, Option.map_eq_some_iff] at h
      obtain ⟨rs, hq, rest, hrest, rfl⟩ := h
      have hwq := hw q List.mem_cons_self
      have hhead : a ∈ rs ↔ ∃ l, InSpan size q l ∧ a = 64 * l := by
        constructor
        · intro ha
          have hdvd := dvd_of_readLines hwq hq ha
          exact ⟨a / 64, (line_of_readLines hwq hq _).1 (hdvd.symm ▸ ha), hdvd.symm⟩
        · rintro ⟨l, hl, rfl⟩
          exact (line_of_readLines hwq hq l).2 hl
      rw [List.mem_append, hhead, ih hrest fun pt hpt => hw pt (List.mem_cons_of_mem _ hpt)]
      simp only [List.mem_cons, exists_eq_or_imp]

/-! ## When the reads are the lines of the live buffers -/

/-- The buffers live under an id agree with the size of the last push: every loop ends below the
last line of the address space, and where a buffer's own size and that size give different lines,
the lines left out are read for another live buffer and the lines added hold a byte of another
live buffer. -/
structure SizesAgree (size : Int) (bs : List Buffer) : Prop where
  stops : ∀ b ∈ bs, uend size b.ptr ≤ 2 ^ 64 - 64
  leftOut : ∀ b ∈ bs, ∀ l, b.HasLine l → ¬ InSpan size b.ptr l → ∃ c ∈ bs, InSpan size c.ptr l
  added : ∀ b ∈ bs, ∀ l, InSpan size b.ptr l → ¬ b.HasLine l → ∃ c ∈ bs, c.HasLine l

theorem ptr_lt_of_mem_stack {ops : List Op} {idx : Int} :
    ∀ pt ∈ (run ops idx).stack, pt < 2 ^ 64 := by
  intro pt hpt
  rw [run_stack, List.mem_map] at hpt
  obtain ⟨b, -, rfl⟩ := hpt
  exact b.ptr_lt

/-- What a returned iteration has read, in terms of the live buffers. -/
theorem mem_of_iterateAllocStack {fuel : Nat} {ops : List Op} {idx : Int} {reads : List Nat}
    (h : iterateAllocStack fuel (run ops) idx = some reads) (a : Nat) :
    a ∈ reads ↔ ∃ b ∈ live ops idx, ∃ l,
      InSpan (toInt (lastBytes ops idx)) b.ptr l ∧ a = 64 * l := by
  unfold iterateAllocStack at h
  rw [mem_of_readStack h (uend_le_of_readStack h ptr_lt_of_mem_stack), run_stack, run_size]
  simp only [List.mem_map, exists_exists_and_eq_and]

/-- **Preloading and sizes.** After any sequence of pushes and pops, iterating an id reads exactly
the lines of its live buffers if and only if these agree with the size of the last push. -/
theorem preloadsLive_iff_sizesAgree (ops : List Op) (idx : Int) :
    PreloadsLive ops idx ↔ SizesAgree (toInt (lastBytes ops idx)) (live ops idx) := by
  constructor
  · rintro ⟨fuel, reads, h, hall, honly⟩
    have hmem := mem_of_iterateAllocStack h
    refine ⟨?_, ?_, ?_⟩
    · intro b hb
      have hstop := uend_le_of_readStack h ptr_lt_of_mem_stack b.ptr
        (by rw [run_stack]; exact List.mem_map_of_mem hb)
      rwa [run_size] at hstop
    · intro b hb l hl _
      obtain ⟨a, ha, k, hk, hline⟩ := hall b hb l hl
      obtain ⟨c, hc, n, hn, rfl⟩ := (hmem a).1 ha
      have hnl : n = l := by omega
      exact ⟨c, hc, hnl ▸ hn⟩
    · intro b hb l hl _
      have ha : 64 * l ∈ reads := (hmem _).2 ⟨b, hb, l, hl, rfl⟩
      obtain ⟨c, hc, hline⟩ := honly _ ha 0 (by norm_num)
      have hl' : (64 * l + 0) / 64 = l := by omega
      exact ⟨c, hc, hl' ▸ hline⟩
  · rintro ⟨hstop, hleft, hadd⟩
    have hstack : ∀ pt ∈ (run ops idx).stack, uend (run ops idx).size pt ≤ 2 ^ 64 - 64 := by
      intro pt hpt
      rw [run_stack, List.mem_map] at hpt
      obtain ⟨b, hb, rfl⟩ := hpt
      rw [run_size]
      exact hstop b hb
    obtain ⟨reads, h⟩ := Option.isSome_iff_exists.1 (readStack_isSome hstack)
    have hmem := @mem_of_iterateAllocStack _ ops idx _ h
    refine ⟨_, reads, h, ?_, ?_⟩
    · intro b hb l hl
      -- a line that the last size leaves out of its buffer is in the span of another one
      have hspan : ∃ c ∈ live ops idx, InSpan (toInt (lastBytes ops idx)) c.ptr l := by
        by_cases hb' : InSpan (toInt (lastBytes ops idx)) b.ptr l
        · exact ⟨b, hb, hb'⟩
        · exact hleft b hb l hl hb'
      obtain ⟨c, hc, hcl⟩ := hspan
      exact ⟨64 * l, (hmem _).2 ⟨c, hc, l, hcl, rfl⟩, 0, by norm_num, by omega⟩
    · intro a ha k hk
      obtain ⟨b, hb, l, hl, rfl⟩ := (hmem a).1 ha
      have hline : (64 * l + k) / 64 = l := by omega
      rw [hline]
      by_cases hb' : b.HasLine l
      · exact ⟨b, hb, hb'⟩
      · exact hadd b hb l hl hb'

/-- Two buffers of one id with different sizes, as two activations of a function with a
variable-length array push them: 128 bytes at 4096, then 64 bytes at 8192. -/
def varSizes : List Op :=
  [.push 0 ⟨4096, 16, 8, by norm_num, by norm_num⟩, .push 0 ⟨8192, 8, 8, by norm_num, by norm_num⟩]

/-- The second line of the older buffer, line 65, is not read. -/
theorem not_preloadsLive_varSizes : ¬ PreloadsLive varSizes 0 := by
  rintro ⟨fuel, reads, h, hall, -⟩
  obtain ⟨a, ha, k, hk, hline⟩ := hall ⟨4096, 16, 8, by norm_num, by norm_num⟩
    List.mem_cons_self 65 ⟨4160, by norm_num [Buffer.bytes]⟩
  obtain ⟨b, hb, l, hl, rfl⟩ := (mem_of_iterateAllocStack h a).1 ha
  have hl65 : l = 65 := by omega
  subst hl65
  have hptr : b.ptr = 4096 ∨ b.ptr = 8192 := by
    simp only [live, varSizes, List.foldl_cons, List.foldl_nil, Op.live, if_true,
      List.nil_append, List.cons_append, List.mem_cons, List.not_mem_nil, or_false] at hb
    rcases hb with rfl | rfl
    · exact Or.inl rfl
    · exact Or.inr rfl
  have hsize : toInt (lastBytes varSizes 0) = 64 := by decide
  rw [hsize] at hl
  obtain ⟨h1, h2⟩ := hl
  rcases hptr with hp | hp <;> rw [hp] at h1 h2 <;> simp [uend] at h1 h2

/-- Live buffers of one positive size below `2 ^ 31`, as a fixed-size allocation pushes them, agree
with the size of the last push. -/
theorem sizesAgree_of_uniform {n : Nat} {bs : List Buffer} (hn : 0 < n) (hn' : n < 2 ^ 31)
    (hbytes : ∀ b ∈ bs, b.bytes = n) (htop : ∀ b ∈ bs, b.ptr + n ≤ 2 ^ 64 - 64) :
    SizesAgree (toInt n) bs := by
  have hint : toInt n = n := by
    unfold toInt
    exact Int.bmod_eq_of_le (by omega) (by omega)
  have hend : ∀ b ∈ bs, uend (toInt n) b.ptr = b.ptr + n := by
    intro b hb
    have := htop b hb
    rw [hint, uend]
    omega
  have hlines : ∀ b ∈ bs, ∀ l, InSpan (toInt n) b.ptr l ↔ b.HasLine l := by
    intro b hb l
    rw [InSpan, hend b hb, Buffer.HasLine, hbytes b hb]
    constructor
    · rintro ⟨h1, h2⟩
      refine ⟨max b.ptr (64 * l), le_max_left _ _, max_lt (by omega) h2, ?_⟩
      rcases le_total b.ptr (64 * l) with h | h
      · rw [max_eq_right h]
        omega
      · rw [max_eq_left h]
        omega
    · rintro ⟨x, h1, h2, rfl⟩
      omega
  refine ⟨fun b hb => (hend b hb).symm ▸ htop b hb, ?_, ?_⟩
  · intro b hb l hl hns
    exact absurd ((hlines b hb l).2 hl) hns
  · intro b hb l hl hnl
    exact absurd ((hlines b hb l).1 hl) hnl

end Cape.Runtime.AllocStack
