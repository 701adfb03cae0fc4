import Cape.Library.FallibleLoop
import Mathlib.Data.Finset.Card
import Mathlib.Data.List.TakeWhile
import Mathlib.Logic.Relation
import Mathlib.Tactic

/-!
# Strongly connected components in one search

Tarjan's search from a vertex: numbers in the order of the first visit, the stack of the vertices
whose component is not complete, and for every vertex a number of a vertex on the stack that it
reaches. `Invariant` says what holds between calls, `Grows` what no call changes.

`exists_components`: with fuel for every vertex the search ends, and then `Components` holds: every
vertex reachable from the start is in a component, the vertices of a component reach one another, and
edges lead to the same component or to one that was complete before.
-/

set_option autoImplicit false

namespace Cape.Library.Tarjan

universe u

variable {α : Type u}

/-- The state of the search. A component is known by its place among the components. -/
structure State (α : Type u) where
  index : Nat
  dfsId : α → Nat
  lowLink : α → Nat
  onStack : α → Bool
  /-- The top first. -/
  stack : List α
  component : α → Option Nat
  /-- In the order in which they were complete, each in the order in which it left the stack. -/
  components : List (List α)

/-- Nothing is visited. -/
def State.init : State α :=
  ⟨0, fun _ => 0, fun _ => 0, fun _ => false, [], fun _ => none, []⟩

section Search

variable [DecidableEq α]

namespace State

/-- A vertex is visited. -/
def push (s : State α) (n : α) : State α :=
  { s with
    index := s.index + 1
    dfsId := Function.update s.dfsId n (s.index + 1)
    lowLink := Function.update s.lowLink n (s.index + 1)
    onStack := Function.update s.onStack n true
    stack := n :: s.stack }

def lower (s : State α) (n : α) (l : Nat) : State α :=
  { s with lowLink := Function.update s.lowLink n (min (s.lowLink n) l) }

/-- Off the stack, down to the vertex, into a new component. -/
def pop (s : State α) (n : α) : State α :=
  let nodes := s.stack.takeWhile fun x => s.dfsId n ≤ s.dfsId x
  { s with
    onStack := fun x => if x ∈ nodes then false else s.onStack x
    stack := s.stack.dropWhile fun x => s.dfsId n ≤ s.dfsId x
    component := fun x => if x ∈ nodes then some s.components.length else s.component x
    components := s.components ++ [nodes] }

end State

/-- A successor of `n`: visited if it was not, and the low link of `n` lowered. -/
def visitSuccessor (compute : State α → α → Option (State α)) (n : α) (s : State α) (succ : α) :
    Option (State α) :=
  if s.dfsId succ = 0 then do
    let s ← compute s succ
    some (s.lower n (s.lowLink succ))
  else if s.onStack succ then some (s.lower n (s.dfsId succ))
  else some s

variable (next : α → List α)

/-- The search from a vertex; `none` when the fuel is spent. -/
def compute : Nat → State α → α → Option (State α)
  | 0, _, _ => none
  | fuel + 1, s, n => do
      let s ← (next n).foldlM (visitSuccessor (compute fuel) n) (s.push n)
      some (if s.lowLink n = s.dfsId n then s.pop n else s)

end Search

/-! ## The invariant -/

variable (next : α → List α)

/-- Along edges. -/
abbrev Reach : α → α → Prop := Relation.ReflTransGen fun x y => y ∈ next x

/-- What holds between calls; the calls for `A` are not over. -/
structure Invariant (A : α → Prop) (s : State α) : Prop where
  id_le : ∀ x, s.dfsId x ≤ s.index
  sorted : s.stack.Pairwise fun x y => s.dfsId y < s.dfsId x
  onStack : ∀ x, s.onStack x = true ↔ x ∈ s.stack
  visited : ∀ x, 0 < s.dfsId x ↔ x ∈ s.stack ∨ ∃ i, s.component x = some i
  component_none : ∀ x ∈ s.stack, s.component x = none
  members : ∀ x i, s.component x = some i ↔ ∃ C, s.components[i]? = some C ∧ x ∈ C
  closed : ∀ x i, s.component x = some i → ∀ y ∈ next x, ∃ j ≤ i, s.component y = some j
  strong : ∀ C ∈ s.components, ∃ r, C.getLast? = some r ∧
    ∀ x ∈ C, Reach next x r ∧ Reach next r x
  nodup : ∀ C ∈ s.components, C.Nodup
  finished : ∀ x ∈ s.stack, ¬ A x → (∀ y ∈ next x, 0 < s.dfsId y) ∧
    ∃ y ∈ s.stack, s.dfsId y < s.dfsId x ∧ Reach next x y

/-- What a call leaves as it was. -/
structure Grows (s s' : State α) : Prop where
  index_le : s.index ≤ s'.index
  dfsId : ∀ x, 0 < s.dfsId x → s'.dfsId x = s.dfsId x
  lowLink : ∀ x, 0 < s.dfsId x → s'.lowLink x = s.lowLink x
  component : ∀ x i, s.component x = some i → s'.component x = some i
  fresh : ∀ x, s.dfsId x = 0 → 0 < s'.dfsId x → s.index < s'.dfsId x

theorem Grows.refl (s : State α) : Grows s s :=
  ⟨le_refl _, fun _ _ => rfl, fun _ _ => rfl, fun _ _ => id, fun _ h h' => by omega⟩

theorem Grows.visited {s s' : State α} (h : Grows s s') {x : α} (hx : 0 < s.dfsId x) :
    0 < s'.dfsId x := by
  rw [h.dfsId x hx]
  exact hx

theorem Grows.trans {s t u : State α} (h : Grows s t) (h' : Grows t u) : Grows s u where
  index_le := h.index_le.trans h'.index_le
  dfsId x hx := (h'.dfsId x (h.visited hx)).trans (h.dfsId x hx)
  lowLink x hx := (h'.lowLink x (h.visited hx)).trans (h.lowLink x hx)
  component x i hx := h'.component x i (h.component x i hx)
  fresh x hx hu := by
    by_cases ht : t.dfsId x = 0
    · exact h.index_le.trans_lt (h'.fresh x ht hu)
    · have hpos := Nat.pos_of_ne_zero ht
      rw [h'.dfsId x hpos]
      exact h.fresh x hx hpos

section

variable [DecidableEq α]

theorem Grows.push (s : State α) {n : α} (hn : s.dfsId n = 0) : Grows s (s.push n) where
  index_le := Nat.le_succ _
  dfsId x hx := Function.update_of_ne (by rintro rfl; omega) _ _
  lowLink x hx := Function.update_of_ne (by rintro rfl; omega) _ _
  component _ _ := id
  fresh x hx hx' := by
    show s.index < Function.update s.dfsId n (s.index + 1) x
    have hx' : 0 < Function.update s.dfsId n (s.index + 1) x := hx'
    by_cases hxn : x = n
    · subst hxn
      rw [Function.update_self]
      omega
    · rw [Function.update_of_ne hxn] at hx'
      omega

theorem Grows.lower {s t : State α} {n : α} (h : Grows s t) (hn : s.dfsId n = 0) (l : Nat) :
    Grows s (t.lower n l) where
  index_le := h.index_le
  dfsId := h.dfsId
  lowLink x hx := (Function.update_of_ne (by rintro rfl; omega) _ _).trans (h.lowLink x hx)
  component := h.component
  fresh := h.fresh

theorem Grows.pop {s t : State α} {n : α} (h : Grows s t)
    (hn : ∀ x i, s.component x = some i →
      x ∉ t.stack.takeWhile fun x => t.dfsId n ≤ t.dfsId x) : Grows s (t.pop n) where
  index_le := h.index_le
  dfsId := h.dfsId
  lowLink := h.lowLink
  component x i hx := (if_neg (hn x i hx)).trans (h.component x i hx)
  fresh := h.fresh

omit [DecidableEq α] in
theorem Invariant.init : Invariant next (fun _ => False) (State.init : State α) where
  id_le _ := le_refl _
  sorted := List.Pairwise.nil
  onStack x := by simp [State.init]
  visited x := by simp [State.init]
  component_none x hx := rfl
  members x i := by simp [State.init]
  closed x i hx := by cases hx
  strong C hC := absurd hC List.not_mem_nil
  nodup C hC := absurd hC List.not_mem_nil
  finished x hx := absurd hx List.not_mem_nil

variable {next}

theorem Invariant.lower {A : α → Prop} {s : State α} (h : Invariant next A s) (n : α) (l : Nat) :
    Invariant next A (s.lower n l) :=
  ⟨h.id_le, h.sorted, h.onStack, h.visited, h.component_none, h.members, h.closed, h.strong,
    h.nodup, h.finished⟩

theorem Invariant.push {A : α → Prop} {s : State α} (h : Invariant next A s) {n : α}
    (hn : s.dfsId n = 0) : Invariant next (fun x => x = n ∨ A x) (s.push n) := by
  have hgrows := Grows.push s hn
  have hstack : n ∉ s.stack := fun hmem => by
    have := (h.visited n).2 (Or.inl hmem)
    omega
  -- the other nodes on the stack keep their numbers, which are below the new one
  have hid : ∀ x ∈ s.stack, (s.push n).dfsId x = s.dfsId x :=
    fun x hx => hgrows.dfsId x ((h.visited x).2 (Or.inl hx))
  have hself : (s.push n).dfsId n = s.index + 1 := Function.update_self _ _ _
  refine ⟨fun x => ?_, ?_, fun x => ?_, fun x => ?_, fun x hx => ?_, h.members, h.closed,
    h.strong, h.nodup, fun x hx hA => ?_⟩
  · show Function.update s.dfsId n (s.index + 1) x ≤ s.index + 1
    by_cases hxn : x = n
    · subst hxn
      rw [Function.update_self]
    · rw [Function.update_of_ne hxn]
      exact (h.id_le x).trans (Nat.le_succ _)
  · refine List.pairwise_cons.2 ⟨fun y hy => ?_, ?_⟩
    · rw [hid y hy, hself]
      exact Nat.lt_succ_of_le (h.id_le y)
    · refine h.sorted.imp_of_mem fun {x y} hx hy hlt => ?_
      rw [hid x hx, hid y hy]
      exact hlt
  · show Function.update s.onStack n true x = true ↔ x ∈ n :: s.stack
    by_cases hxn : x = n
    · subst hxn
      simp
    · simp [hxn, h.onStack]
  · show 0 < Function.update s.dfsId n (s.index + 1) x ↔
      x ∈ n :: s.stack ∨ ∃ i, s.component x = some i
    by_cases hxn : x = n
    · subst hxn
      simp
    · rw [Function.update_of_ne hxn, List.mem_cons]
      simpa [hxn] using h.visited x
  · obtain rfl | hx := List.mem_cons.1 hx
    · cases hc : s.component x with
      | none => exact hc
      | some i =>
          have := (h.visited x).2 (Or.inr ⟨i, hc⟩)
          omega
    · exact h.component_none x hx
  · obtain ⟨hxn, hA⟩ := not_or.1 hA
    obtain hx | hx := List.mem_cons.1 hx
    · exact absurd hx hxn
    · obtain ⟨hnext, y, hy, hlt, hreach⟩ := h.finished x hx hA
      refine ⟨fun y hy => hgrows.visited (hnext y hy), y, List.mem_cons_of_mem _ hy, ?_, hreach⟩
      rw [hid x hx, hid y hy]
      exact hlt

/-! ## One call -/

/-- Inside the call for `n`, which began in the state `s₀`: on top of `n`, the stack has `new`, and the
successors in `l` are done. -/
structure Scanning (next : α → List α) (A : α → Prop) (s₀ : State α) (n : α) (l new : List α)
    (s : State α) : Prop where
  invariant : Invariant next (fun x => x = n ∨ A x) s
  grows : Grows s₀ s
  stack : s.stack = new ++ n :: s₀.stack
  dfsId : s.dfsId n = s₀.index + 1
  fresh : ∀ x ∈ new, s₀.dfsId x = 0
  visits : ∀ x, s₀.dfsId x = 0 → 0 < s.dfsId x → Reach next n x
  low : s.lowLink n = s₀.index + 1 ∨
    ∃ y ∈ s₀.stack, s₀.dfsId y = s.lowLink n ∧ Reach next n y
  back : ∀ x ∈ new, ∀ y ∈ next x, y ∈ s₀.stack → s.lowLink n ≤ s₀.dfsId y
  done : ∀ y ∈ l, 0 < s.dfsId y ∧ (y ∈ s₀.stack → s.lowLink n ≤ s₀.dfsId y)

/-- What a call for `n` brings about: `new` comes on the stack. -/
structure Called (next : α → List α) (s s' : State α) (n : α) (new : List α) : Prop where
  grows : Grows s s'
  stack : s'.stack = new ++ s.stack
  visited : 0 < s'.dfsId n
  fresh : ∀ x ∈ new, s.dfsId x = 0
  visits : ∀ x, s.dfsId x = 0 → 0 < s'.dfsId x → Reach next n x
  low : s.index < s'.lowLink n ∨ ∃ y ∈ s.stack, s.dfsId y = s'.lowLink n ∧ Reach next n y
  back : ∀ x ∈ new, ∀ y ∈ next x, y ∈ s.stack → s'.lowLink n ≤ s.dfsId y

section

variable {A : α → Prop} {s₀ s : State α} {n : α} {l new : List α}

omit [DecidableEq α] in
theorem Scanning.low_le (h : Scanning next A s₀ n l new s) (hA : Invariant next A s₀) :
    s.lowLink n ≤ s₀.index + 1 := by
  obtain hlow | ⟨y, -, hy, -⟩ := h.low
  · exact hlow.le
  · rw [← hy]
    exact (hA.id_le y).trans (Nat.le_succ _)

omit [DecidableEq α] in
theorem Scanning.stack_id (h : Scanning next A s₀ n l new s) (hA : Invariant next A s₀) {y : α}
    (hy : y ∈ s₀.stack) : s.dfsId y = s₀.dfsId y :=
  h.grows.dfsId y ((hA.visited y).2 (Or.inl hy))

omit [DecidableEq α] in
/-- What is above `n` has a larger number. -/
theorem Scanning.lt_of_mem_new (h : Scanning next A s₀ n l new s) {x : α} (hx : x ∈ new) :
    s.dfsId n < s.dfsId x := by
  have hsorted := h.invariant.sorted
  rw [h.stack] at hsorted
  exact (List.pairwise_append.1 hsorted).2.2 x hx n List.mem_cons_self

theorem Scanning.start (hA : Invariant next A s) (hn : s.dfsId n = 0) :
    Scanning next A s n [] [] (s.push n) where
  invariant := hA.push hn
  grows := .push s hn
  stack := rfl
  dfsId := Function.update_self _ _ _
  fresh _ hx := absurd hx List.not_mem_nil
  visits x hx hpos := by
    by_cases hxn : x = n
    · subst hxn
      exact .refl
    · have hpos : 0 < Function.update s.dfsId n (s.index + 1) x := hpos
      rw [Function.update_of_ne hxn] at hpos
      omega
  low := Or.inl (Function.update_self _ _ _)
  back _ hx := absurd hx List.not_mem_nil
  done _ hy := absurd hy List.not_mem_nil

/-- The low link is lowered to `m`: to the number of a vertex on the old stack, or not at all. -/
theorem Scanning.lower (h : Scanning next A s₀ n l new s) (hn : s₀.dfsId n = 0) {m : Nat}
    (hm : s.lowLink n ≤ m ∨ ∃ y ∈ s₀.stack, s₀.dfsId y = m ∧ Reach next n y) :
    Scanning next A s₀ n l new (s.lower n m) := by
  have hlow : (s.lower n m).lowLink n = min (s.lowLink n) m := Function.update_self _ _ _
  have hle : (s.lower n m).lowLink n ≤ s.lowLink n := hlow ▸ min_le_left _ _
  refine ⟨h.invariant.lower n m, h.grows.lower hn m, h.stack, h.dfsId, h.fresh, h.visits, ?_,
    fun x hx y hy hys => hle.trans (h.back x hx y hy hys),
    fun y hy => ⟨(h.done y hy).1, fun hys => hle.trans ((h.done y hy).2 hys)⟩⟩
  rw [hlow]
  by_cases hlt : s.lowLink n ≤ m
  · rw [min_eq_left hlt]
    exact h.low
  · obtain hm | hm := hm
    · exact absurd hm hlt
    · rw [min_eq_right (by omega)]
      exact Or.inr hm

omit [DecidableEq α] in
theorem Scanning.snoc (h : Scanning next A s₀ n l new s) {y : α} (hy : 0 < s.dfsId y)
    (hlow : y ∈ s₀.stack → s.lowLink n ≤ s₀.dfsId y) :
    Scanning next A s₀ n (l ++ [y]) new s :=
  { h with
    done := by
      intro x hx
      obtain hx | hx := List.mem_append.1 hx
      · exact h.done x hx
      · obtain rfl := List.mem_singleton.1 hx
        exact ⟨hy, hlow⟩ }

/-- A successor that was visited before. -/
theorem Scanning.visited_successor (h : Scanning next A s₀ n l new s) (hA : Invariant next A s₀)
    (hn : s₀.dfsId n = 0) {y : α} (hy : y ∈ next n) (hpos : 0 < s.dfsId y) :
    Scanning next A s₀ n (l ++ [y]) new
      (if s.onStack y then s.lower n (s.dfsId y) else s) := by
  split
  · next hon =>
      have hmem := (h.invariant.onStack y).1 hon
      rw [h.stack, List.mem_append, List.mem_cons] at hmem
      refine (h.lower hn ?_).snoc hpos fun hys => ?_
      · -- above `n`, `n` itself, or below it, where the low link may go
        obtain hmem | rfl | hmem := hmem
        · have := h.lt_of_mem_new hmem
          have := h.low_le hA
          have := h.dfsId
          exact Or.inl (by omega)
        · have := h.low_le hA
          have := h.dfsId
          exact Or.inl (by omega)
        · exact Or.inr ⟨y, hmem, (h.stack_id hA hmem).symm, .single hy⟩
      · show Function.update s.lowLink n _ n ≤ _
        rw [Function.update_self, ← h.stack_id hA hys]
        exact min_le_right _ _
  · next hon =>
      -- it has a component already
      refine h.snoc hpos fun hys => absurd ?_ hon
      rw [h.invariant.onStack, h.stack]
      exact List.mem_append_right _ (List.mem_cons_of_mem _ hys)

/-- A successor that is visited now. -/
theorem Scanning.new_successor (h : Scanning next A s₀ n l new s) (hA : Invariant next A s₀)
    (hn : s₀.dfsId n = 0) {y : α} (hy : y ∈ next n) (hzero : s.dfsId y = 0) {s' : State α}
    {new' : List α} (hinv : Invariant next (fun x => x = n ∨ A x) s')
    (hcall : Called next s s' y new') :
    Scanning next A s₀ n (l ++ [y]) (new' ++ new) (s'.lower n (s'.lowLink y)) := by
  have hnpos : 0 < s.dfsId n := by
    have := h.dfsId
    omega
  have hlown : s'.lowLink n = s.lowLink n := hcall.grows.lowLink n hnpos
  have hstack : s.stack = new ++ n :: s₀.stack := h.stack
  have hold : ∀ x ∈ s₀.stack, x ∈ s.stack := fun x hx => by
    rw [hstack]
    exact List.mem_append_right _ (List.mem_cons_of_mem _ hx)
  have hlow : (s'.lower n (s'.lowLink y)).lowLink n = min (s.lowLink n) (s'.lowLink y) := by
    rw [← hlown]
    exact Function.update_self _ _ _
  have hle : min (s.lowLink n) (s'.lowLink y) ≤ s.lowLink n := min_le_left _ _
  refine ⟨hinv.lower n _, (h.grows.trans hcall.grows).lower hn _, ?_, ?_, fun x hx => ?_,
    fun x hx hpos => ?_, ?_,
    fun x hx z hz hzs => ?_, fun z hz => ?_⟩
  · show s'.stack = _
    rw [hcall.stack, hstack, List.append_assoc]
  · exact (hcall.grows.dfsId n hnpos).trans h.dfsId
  · obtain hx | hx := List.mem_append.1 hx
    · have := hcall.fresh x hx
      by_contra hne
      have := h.grows.visited (Nat.pos_of_ne_zero hne)
      omega
    · exact h.fresh x hx
  · by_cases hvisited : s.dfsId x = 0
    · exact .head hy (hcall.visits x hvisited hpos)
    · exact h.visits x hx (Nat.pos_of_ne_zero hvisited)
  · rw [hlow]
    by_cases hlt : s.lowLink n ≤ s'.lowLink y
    · rw [min_eq_left hlt]
      exact h.low
    · -- the low link of the successor is the number of a vertex below `n`
      rw [min_eq_right (by omega)]
      have hnlow := h.low_le hA
      have hnid := h.dfsId
      obtain hidx | ⟨z, hz, hzid, hreach⟩ := hcall.low
      · have := h.invariant.id_le n
        omega
      · rw [hstack, List.mem_append, List.mem_cons] at hz
        obtain hz | rfl | hz := hz
        · have := h.lt_of_mem_new hz
          omega
        · omega
        · exact Or.inr ⟨z, hz, (h.stack_id hA hz) ▸ hzid, .head hy hreach⟩
  · rw [hlow]
    obtain hx | hx := List.mem_append.1 hx
    · refine (min_le_right _ _).trans ?_
      rw [← h.stack_id hA hzs]
      exact hcall.back x hx z hz (hold z hzs)
    · exact hle.trans (h.back x hx z hz hzs)
  · rw [hlow]
    obtain hz | hz := List.mem_append.1 hz
    · obtain ⟨hpos, hback⟩ := h.done z hz
      exact ⟨hcall.grows.visited hpos, fun hzs => hle.trans (hback hzs)⟩
    · obtain rfl := List.mem_singleton.1 hz
      refine ⟨hcall.visited, fun hzs => ?_⟩
      have := (hA.visited z).2 (Or.inl hzs)
      have := h.grows.visited this
      omega

/-! ## The end of a call -/

omit [DecidableEq α] in
/-- Above the old stack are `new` and `n`. -/
theorem Scanning.pop_nodes (h : Scanning next A s₀ n l new s) (hA : Invariant next A s₀) :
    s.stack.takeWhile (fun x => s.dfsId n ≤ s.dfsId x) = new ++ [n] ∧
      s.stack.dropWhile (fun x => s.dfsId n ≤ s.dfsId x) = s₀.stack := by
  have hstack : s.stack = (new ++ [n]) ++ s₀.stack := by
    rw [h.stack, List.append_assoc]
    rfl
  -- ids grow along the stack, and `n` has the least one above the old stack
  have habove : ∀ x ∈ new ++ [n], decide (s.dfsId n ≤ s.dfsId x) = true := by
    intro x hx
    obtain hx | hx := List.mem_append.1 hx
    · exact decide_eq_true (h.lt_of_mem_new hx).le
    · obtain rfl := List.mem_singleton.1 hx
      exact decide_eq_true (le_refl _)
  have hbelow : ∀ x ∈ s₀.stack, ¬ decide (s.dfsId n ≤ s.dfsId x) = true := by
    intro x hx
    have := hA.id_le x
    rw [decide_eq_true_eq, h.dfsId, h.stack_id hA hx]
    omega
  rw [hstack]
  constructor
  · rw [List.takeWhile_append_of_pos habove]
    cases hs : s₀.stack with
    | nil => simp
    | cons y l => simp [hbelow y (hs ▸ List.mem_cons_self)]
  · rw [List.dropWhile_append_of_pos habove]
    cases hs : s₀.stack with
    | nil => simp
    | cons y l => simp [hbelow y (hs ▸ List.mem_cons_self)]

omit [DecidableEq α] in
theorem Scanning.mem_stack (h : Scanning next A s₀ n l new s) {x : α} :
    x ∈ s.stack ↔ x ∈ new ++ [n] ∨ x ∈ s₀.stack := by
  rw [h.stack]
  simp [or_assoc]

omit [DecidableEq α] in
/-- What is on the stack from `n` on was not visited before the call, and `n` reaches it. -/
theorem Scanning.not_visited (h : Scanning next A s₀ n l new s) (hn : s₀.dfsId n = 0) {x : α}
    (hx : x ∈ new ++ [n]) : s₀.dfsId x = 0 ∧ Reach next n x := by
  have hpos := (h.invariant.visited x).2 (Or.inl (h.mem_stack.2 (Or.inl hx)))
  have hzero : s₀.dfsId x = 0 := by
    obtain hx | hx := List.mem_append.1 hx
    · exact h.fresh x hx
    · obtain rfl := List.mem_singleton.1 hx
      exact hn
  exact ⟨hzero, h.visits x hzero hpos⟩

omit [DecidableEq α] in
theorem Scanning.ne_of_mem_new (h : Scanning next A s₀ n l new s) {x : α} (hx : x ∈ new) :
    x ≠ n := by
  rintro rfl
  exact absurd (h.lt_of_mem_new hx) (lt_irrefl _)

omit [DecidableEq α] in
/-- All successors of what is on the stack from `n` on are visited, and the low link of `n` is not
above those on the old stack. -/
theorem Scanning.successors (h : Scanning next A s₀ n (next n) new s) (hn : s₀.dfsId n = 0)
    (hactive : ∀ a, A a → 0 < s₀.dfsId a) {x y : α} (hx : x ∈ new ++ [n]) (hy : y ∈ next x) :
    0 < s.dfsId y ∧ (y ∈ s₀.stack → s.lowLink n ≤ s₀.dfsId y) := by
  obtain hx | hx := List.mem_append.1 hx
  · have hAx : ¬ A x := fun hAx => by
      have := hactive x hAx
      have := h.fresh x hx
      omega
    have hmem : x ∈ s.stack := h.mem_stack.2 (Or.inl (List.mem_append_left _ hx))
    have hfin := h.invariant.finished x hmem (not_or.2 ⟨h.ne_of_mem_new hx, hAx⟩)
    exact ⟨hfin.1 y hy, h.back x hx y hy⟩
  · obtain rfl := List.mem_singleton.1 hx
    exact h.done y hy

/-- The vertex stays on the stack. -/
theorem Scanning.keep (h : Scanning next A s₀ n (next n) new s) (hA : Invariant next A s₀)
    (hn : s₀.dfsId n = 0) (hactive : ∀ a, A a → 0 < s₀.dfsId a) (hlow : s.lowLink n ≠ s.dfsId n) :
    Invariant next A s ∧ Called next s₀ s n (new ++ [n]) := by
  have hlink : ∃ y ∈ s₀.stack, s₀.dfsId y = s.lowLink n ∧ Reach next n y := by
    obtain hidx | hlink := h.low
    · exact absurd (hidx.trans h.dfsId.symm) hlow
    · exact hlink
  refine ⟨{ h.invariant with finished := fun x hx hAx => ?_ }, ⟨h.grows, ?_, ?_,
    fun x hx => (h.not_visited hn hx).1, h.visits, Or.inr hlink,
    fun x hx y hy => (h.successors hn hactive hx hy).2⟩⟩
  · by_cases hxn : x = n
    · -- its low link leads below it
      subst hxn
      obtain ⟨y, hy, hid, hreach⟩ := hlink
      refine ⟨fun z hz => (h.done z hz).1, y, h.mem_stack.2 (Or.inr hy), ?_, hreach⟩
      have := hA.id_le y
      rw [h.stack_id hA hy, h.dfsId]
      omega
    · exact h.invariant.finished x hx (not_or.2 ⟨hxn, hAx⟩)
  · rw [h.stack, List.append_assoc]
    rfl
  · have := h.dfsId
    omega

section Root

variable (h : Scanning next A s₀ n (next n) new s) (hA : Invariant next A s₀)
  (hn : s₀.dfsId n = 0) (hactive : ∀ a, A a → 0 < s₀.dfsId a) (hlow : s.lowLink n = s.dfsId n)
include h hA hn hactive hlow

omit [DecidableEq α] in
/-- From the new component edges lead to it, or to complete ones. -/
theorem Scanning.no_escape {x y : α} (hx : x ∈ new ++ [n]) (hxy : Reach next x y) :
    y ∈ new ++ [n] ∨ ∃ j, s.component y = some j := by
  induction hxy with
  | refl => exact Or.inl hx
  | @tail y z _ hyz ih =>
      obtain hy | ⟨j, hj⟩ := ih
      · obtain ⟨hpos, hback⟩ := h.successors hn hactive hy hyz
        obtain hz | hz := (h.invariant.visited z).1 hpos
        · obtain hz | hz := h.mem_stack.1 hz
          · exact Or.inl hz
          · have := hback hz
            have := hA.id_le z
            have := h.dfsId
            omega
        · exact Or.inr hz
      · obtain ⟨i, -, hi⟩ := h.invariant.closed y j hj z hyz
        exact Or.inr ⟨i, hi⟩

omit [DecidableEq α] in
/-- All of the new component reaches its root. -/
theorem Scanning.reach_root : ∀ (k : Nat) {x : α}, x ∈ new ++ [n] → s.dfsId x ≤ k →
    Reach next x n := by
  intro k
  induction k with
  | zero =>
      intro x hx hk
      have := (h.invariant.visited x).2 (Or.inl (h.mem_stack.2 (Or.inl hx)))
      omega
  | succ k ih =>
      intro x hx hk
      obtain hnew | hxn := List.mem_append.1 hx
      · have hAx : ¬ A x := fun hAx => by
          have := hactive x hAx
          have := h.fresh x hnew
          omega
        obtain ⟨-, y, hy, hlt, hreach⟩ := h.invariant.finished x (h.mem_stack.2 (Or.inl hx))
          (not_or.2 ⟨h.ne_of_mem_new hnew, hAx⟩)
        -- the vertex below that it reaches is in the component as well
        obtain hy' | ⟨j, hj⟩ := h.no_escape hA hn hactive hlow hx hreach
        · exact hreach.trans (ih hy' (by omega))
        · rw [h.invariant.component_none y hy] at hj
          cases hj
      · obtain rfl := List.mem_singleton.1 hxn
        exact .refl

/-- The component of the vertex is complete. -/
theorem Scanning.pop : Invariant next A (s.pop n) ∧ Called next s₀ (s.pop n) n [] := by
  obtain ⟨htake, hdrop⟩ := h.pop_nodes hA
  have hnot : ∀ x ∈ s₀.stack, x ∉ new ++ [n] := fun x hx hmem => by
    have := (hA.visited x).2 (Or.inl hx)
    have := (h.not_visited hn hmem).1
    omega
  have hnone : ∀ x ∈ new ++ [n], s.component x = none :=
    fun x hx => h.invariant.component_none x (h.mem_stack.2 (Or.inl hx))
  have hcomp : ∀ x, (s.pop n).component x =
      if x ∈ new ++ [n] then some s.components.length else s.component x := by
    intro x
    show (if x ∈ s.stack.takeWhile _ then _ else _) = _
    rw [htake]
  have hcomps : (s.pop n).components = s.components ++ [new ++ [n]] := by
    show s.components ++ [s.stack.takeWhile _] = _
    rw [htake]
  have hstack : (s.pop n).stack = s₀.stack := hdrop
  have hlt : ∀ x i, s.component x = some i → i < s.components.length := by
    intro x i hi
    obtain ⟨C, hC, -⟩ := (h.invariant.members x i).1 hi
    exact (List.getElem?_eq_some_iff.1 hC).1
  constructor
  · refine ⟨h.invariant.id_le, ?_, fun x => ?_, fun x => ?_, fun x hx => ?_, fun x i => ?_,
      fun x i hx y hy => ?_, fun C hC => ?_, fun C hC => ?_, fun x hx hAx => ?_⟩
    · rw [hstack]
      have hsorted := h.invariant.sorted
      rw [h.stack] at hsorted
      exact (List.pairwise_cons.1 (List.pairwise_append.1 hsorted).2.1).2
    · show (if x ∈ s.stack.takeWhile _ then false else s.onStack x) = true ↔ x ∈ (s.pop n).stack
      rw [htake, hstack]
      split
      · next hx => simpa using fun hmem => hnot x hmem hx
      · next hx =>
          rw [h.invariant.onStack, h.mem_stack]
          exact or_iff_right hx
    · rw [hstack, hcomp]
      show 0 < s.dfsId x ↔ _
      rw [h.invariant.visited, h.mem_stack]
      by_cases hx : x ∈ new ++ [n]
      · simp [hx]
      · simp [hx]
    · rw [hstack] at hx
      rw [hcomp, if_neg (hnot x hx)]
      exact h.invariant.component_none x (h.mem_stack.2 (Or.inr hx))
    · rw [hcomp, hcomps]
      by_cases hx : x ∈ new ++ [n]
      · rw [if_pos hx]
        constructor
        · intro hi
          obtain rfl := Option.some.inj hi
          exact ⟨new ++ [n], by simp, hx⟩
        · rintro ⟨C, hC, hxC⟩
          obtain hi | hi := Nat.lt_or_ge i s.components.length
          · rw [List.getElem?_append_left hi] at hC
            have := (h.invariant.members x i).2 ⟨C, hC, hxC⟩
            rw [hnone x hx] at this
            cases this
          · have hlast := (List.getElem?_eq_some_iff.1 hC).1
            rw [List.length_append, List.length_singleton] at hlast
            exact congrArg some (by omega)
      · rw [if_neg hx, h.invariant.members]
        constructor
        · rintro ⟨C, hC, hxC⟩
          have hi := (List.getElem?_eq_some_iff.1 hC).1
          exact ⟨C, by rw [List.getElem?_append_left hi, hC], hxC⟩
        · rintro ⟨C, hC, hxC⟩
          obtain hi | hi := Nat.lt_or_ge i s.components.length
          · rw [List.getElem?_append_left hi] at hC
            exact ⟨C, hC, hxC⟩
          · rw [List.getElem?_append_right hi] at hC
            exact absurd (List.mem_singleton.1 (List.mem_of_getElem? hC) ▸ hxC) hx
    · rw [hcomp] at hx
      rw [hcomp]
      by_cases hxs : x ∈ new ++ [n]
      · rw [if_pos hxs] at hx
        obtain rfl := Option.some.inj hx
        by_cases hys : y ∈ new ++ [n]
        · exact ⟨_, le_refl _, if_pos hys⟩
        · obtain hys' | ⟨j, hj⟩ := h.no_escape hA hn hactive hlow hxs (.single hy)
          · exact absurd hys' hys
          · exact ⟨j, (hlt y j hj).le, by rw [if_neg hys, hj]⟩
      · rw [if_neg hxs] at hx
        obtain ⟨j, hji, hj⟩ := h.invariant.closed x i hx y hy
        refine ⟨j, hji, ?_⟩
        rw [if_neg fun hys => ?_, hj]
        rw [hnone y hys] at hj
        cases hj
    · rw [hcomps] at hC
      obtain hC | hC := List.mem_append.1 hC
      · exact h.invariant.strong C hC
      · obtain rfl := List.mem_singleton.1 hC
        exact ⟨n, List.getLast?_concat, fun x hx =>
          ⟨h.reach_root hA hn hactive hlow _ hx (le_refl _), (h.not_visited hn hx).2⟩⟩
    · rw [hcomps] at hC
      obtain hC | hC := List.mem_append.1 hC
      · exact h.invariant.nodup C hC
      · obtain rfl := List.mem_singleton.1 hC
        -- the numbers on the stack are different
        have hnodup : s.stack.Nodup := h.invariant.sorted.imp fun hlt heq => by
          subst heq
          exact lt_irrefl _ hlt
        have hstack : s.stack = (new ++ [n]) ++ s₀.stack := by
          rw [h.stack, List.append_assoc]
          rfl
        rw [hstack] at hnodup
        exact (List.nodup_append.1 hnodup).1
    · rw [hstack] at hx ⊢
      obtain ⟨hnext, y, hy, hlt, hreach⟩ := hA.finished x hx hAx
      refine ⟨fun y hy => h.grows.visited (hnext y hy), y, hy, ?_, hreach⟩
      show s.dfsId y < s.dfsId x
      rw [h.stack_id hA hx, h.stack_id hA hy]
      exact hlt
  · refine ⟨h.grows.pop fun x i hx => ?_, hstack, ?_, fun x hx => absurd hx List.not_mem_nil,
      h.visits, Or.inl ?_, fun x hx => absurd hx List.not_mem_nil⟩
    · rw [htake]
      intro hmem
      have := (hA.visited x).2 (Or.inr ⟨i, hx⟩)
      have := (h.not_visited hn hmem).1
      omega
    · show 0 < s.dfsId n
      rw [h.dfsId]
      exact Nat.succ_pos _
    · show s₀.index < s.lowLink n
      rw [hlow, h.dfsId]
      exact Nat.lt_succ_self _

end Root

/-! ## The run -/

/-- How many vertices of a set are not visited. -/
def unvisited (V : Finset α) (s : State α) : Nat := (V.filter fun x => s.dfsId x = 0).card

omit [DecidableEq α] in
theorem Grows.unvisited_lt {V : Finset α} {s s' : State α} (h : Grows s s') (hV : n ∈ V)
    (hn : s.dfsId n = 0) (hn' : 0 < s'.dfsId n) : unvisited V s' < unvisited V s := by
  refine Finset.card_lt_card ⟨fun x hx => ?_, fun hsub => ?_⟩
  · rw [Finset.mem_filter] at hx ⊢
    refine ⟨hx.1, ?_⟩
    by_contra hne
    have := h.visited (Nat.pos_of_ne_zero hne)
    omega
  · have hmem := hsub (Finset.mem_filter.2 ⟨hV, hn⟩)
    have := (Finset.mem_filter.1 hmem).2
    omega

/-- **One call ends**, keeps the invariant, and brings about what it should. -/
theorem exists_compute {V : Finset α} (hV : ∀ x ∈ V, ∀ y ∈ next x, y ∈ V) :
    ∀ (fuel : Nat) {A : α → Prop} {s : State α} {n : α}, Invariant next A s →
      (∀ a, A a → 0 < s.dfsId a) → n ∈ V → s.dfsId n = 0 → unvisited V s ≤ fuel →
      ∃ s' new, compute next fuel s n = some s' ∧ Invariant next A s' ∧ Called next s s' n new := by
  intro fuel
  induction fuel with
  | zero =>
      intro A s n _ _ hnV hn hfuel
      have hmem : n ∈ V.filter fun x => s.dfsId x = 0 := Finset.mem_filter.2 ⟨hnV, hn⟩
      exact absurd (Finset.card_pos.2 ⟨n, hmem⟩) (Nat.not_lt.2 hfuel)
  | succ fuel ih =>
      intro A s n hA hactive hnV hn hfuel
      obtain ⟨s₁, hs₁, new, hscan⟩ := FallibleLoop.exists_prefix
        (f := visitSuccessor (compute next fuel) n) (l := next n)
        (I := fun l t => ∃ new, Scanning next A s n l new t) (s := s.push n)
        (by
          rintro l₁ y l₂ hl t ⟨new, hscan⟩
          have hy : y ∈ next n := hl ▸ List.mem_append_right l₁ List.mem_cons_self
          by_cases hzero : t.dfsId y = 0
          · -- the successor was not visited: a call for it
            have hactive' : ∀ a, (a = n ∨ A a) → 0 < t.dfsId a := by
              rintro a (rfl | ha)
              · rw [hscan.dfsId]
                exact Nat.succ_pos _
              · exact hscan.grows.visited (hactive a ha)
            have hle : unvisited V t ≤ fuel := by
              have := hscan.grows.unvisited_lt hnV hn (hactive' n (Or.inl rfl))
              omega
            obtain ⟨t', new', ht', hinv, hcall⟩ := ih hscan.invariant hactive' (hV n hnV y hy) hzero hle
            refine ⟨_, ?_, new' ++ new, hscan.new_successor hA hn hy hzero hinv hcall⟩
            rw [visitSuccessor, if_pos hzero, ht']
            rfl
          · refine ⟨_, ?_, new, hscan.visited_successor hA hn hy (Nat.pos_of_ne_zero hzero)⟩
            rw [visitSuccessor, if_neg hzero]
            split <;> rfl)
        ⟨[], .start hA hn⟩
      have hcompute : compute next (fuel + 1) s n =
          some (if s₁.lowLink n = s₁.dfsId n then s₁.pop n else s₁) := by
        rw [compute, hs₁]
        rfl
      by_cases hlow : s₁.lowLink n = s₁.dfsId n
      · rw [if_pos hlow] at hcompute
        obtain ⟨hinv, hcall⟩ := hscan.pop hA hn hactive hlow
        exact ⟨_, _, hcompute, hinv, hcall⟩
      · rw [if_neg hlow] at hcompute
        obtain ⟨hinv, hcall⟩ := hscan.keep hA hn hactive hlow
        exact ⟨_, _, hcompute, hinv, hcall⟩

end

/-! ## The components -/

/-- What a finished search from `start` has found. -/
structure Components (next : α → List α) (start : α) (s : State α) : Prop where
  invariant : Invariant next (fun _ => False) s
  stack : s.stack = []
  reachable : ∀ x, (∃ i, s.component x = some i) ↔ Reach next start x

/-- **The search ends with the components of what the start reaches.** -/
theorem exists_components {V : Finset α} (hV : ∀ x ∈ V, ∀ y ∈ next x, y ∈ V) {start : α}
    (hstart : start ∈ V) {fuel : Nat} (hfuel : V.card ≤ fuel) :
    ∃ s, compute next fuel State.init start = some s ∧ Components next start s := by
  have hunvisited : unvisited V (State.init : State α) ≤ fuel :=
    (Finset.card_le_card (Finset.filter_subset _ _)).trans hfuel
  obtain ⟨s, new, hs, hinv, hcall⟩ := exists_compute hV fuel (Invariant.init next)
    (fun _ h => h.elim) hstart (show (State.init : State α).dfsId start = 0 from rfl) hunvisited
  -- on the stack everything reaches something lower, so there is nothing
  have hnone : ∀ (k : Nat) (x : α), x ∈ s.stack → ¬ s.dfsId x ≤ k := by
    intro k
    induction k with
    | zero =>
        intro x hx hk
        have := (hinv.visited x).2 (Or.inl hx)
        omega
    | succ k ih =>
        intro x hx hk
        obtain ⟨-, y, hy, hlt, -⟩ := hinv.finished x hx id
        exact ih y hy (by omega)
  have hstack : s.stack = [] :=
    List.eq_nil_iff_forall_not_mem.2 fun x hx => hnone _ x hx (le_refl _)
  have hvisited : ∀ x, 0 < s.dfsId x ↔ ∃ i, s.component x = some i := by
    intro x
    rw [hinv.visited, hstack]
    exact or_iff_right List.not_mem_nil
  refine ⟨s, hs, hinv, hstack, fun x => ⟨fun hx => ?_, fun hx => ?_⟩⟩
  · exact hcall.visits x rfl ((hvisited x).2 hx)
  · induction hx with
    | refl => exact (hvisited start).1 hcall.visited
    | tail _ hyz ih =>
        obtain ⟨i, hi⟩ := ih
        obtain ⟨j, -, hj⟩ := hinv.closed _ i hi _ hyz
        exact ⟨j, hj⟩

end

end Cape.Library.Tarjan
