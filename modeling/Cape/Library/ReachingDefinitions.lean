import Cape.Library.Walk

/-!
# Definitions that reach a place

The nodes of a graph are in blocks, and the blocks have predecessors. Some nodes kill. A node is alive
behind a list of nodes when none of those behind it kills, and at the end of a block when it is alive
behind the nodes of the block, or at the end of a predecessor and no node of the block kills.

`atEnd_iff_walk`: this is what paths of blocks say.
-/

set_option autoImplicit false

namespace Cape.Library.ReachingDefinitions

universe u v

variable {α : Type u} {β : Type v} (kill : α → Prop)

/-- No node of the list kills. -/
def Passes (l : List α) : Prop := ∀ q ∈ l, ¬ kill q

/-- The node is in the list, and no node behind it kills. -/
def Survives (a : α) (l : List α) : Prop := ∃ pre post, l = pre ++ a :: post ∧ Passes kill post

variable (nodes : β → List α) (predecessors : β → List β)

/-- The node is alive at the end of a block. -/
inductive AtEnd (a : α) : β → Prop
  | here {b : β} : Survives kill a (nodes b) → AtEnd a b
  | through {p b : β} : p ∈ predecessors b → Passes kill (nodes b) → AtEnd a p → AtEnd a b

/-- The node is alive in a block, behind the nodes `l` that are first in it. -/
def Reaches (a : α) (b : β) (l : List α) : Prop :=
  Survives kill a l ∨ (Passes kill l ∧ ∃ p ∈ predecessors b, AtEnd kill nodes predecessors a p)

variable {kill} {nodes} {predecessors}

theorem Survives.mem {a : α} {l : List α} (h : Survives kill a l) : a ∈ l := by
  obtain ⟨pre, post, rfl, -⟩ := h
  exact List.mem_append_right pre List.mem_cons_self

theorem Survives.append_left {a : α} {l : List α} (h : Survives kill a l) (l' : List α) :
    Survives kill a (l' ++ l) := by
  obtain ⟨pre, post, rfl, hpost⟩ := h
  exact ⟨l' ++ pre, post, by simp, hpost⟩

theorem Survives.congr {kill' : α → Prop} {a : α} {l : List α} (h : Survives kill a l)
    (hkill : ∀ q ∈ l, kill q ↔ kill' q) : Survives kill' a l := by
  obtain ⟨pre, post, rfl, hpost⟩ := h
  refine ⟨pre, post, rfl, fun q hq => ?_⟩
  rw [← hkill q (List.mem_append_right pre (List.mem_cons_of_mem a hq))]
  exact hpost q hq

theorem Passes.survives {a : α} {l : List α} (h : Passes kill l) (ha : a ∈ l) : Survives kill a l := by
  obtain ⟨pre, post, rfl⟩ := List.append_of_mem ha
  exact ⟨pre, post, rfl, fun q hq => h q (List.mem_append_right pre (List.mem_cons_of_mem a hq))⟩

/-- A list is passed, or some node of it kills and nothing behind does. -/
theorem passes_or_survives (l : List α) : Passes kill l ∨ ∃ a, kill a ∧ Survives kill a l := by
  induction l with
  | nil => exact Or.inl nofun
  | cons a l ih =>
      obtain hpass | ⟨b, hb, pre, post, rfl, hpost⟩ := ih
      · by_cases ha : kill a
        · exact Or.inr ⟨a, ha, [], l, rfl, hpass⟩
        · left
          intro q hq
          obtain rfl | hq := List.mem_cons.1 hq
          · exact ha
          · exact hpass q hq
      · exact Or.inr ⟨b, hb, a :: pre, post, rfl, hpost⟩

/-- Nodes that do not kill may be left out. -/
theorem passes_filter {p : α → Bool} {l : List α} (h : ∀ x ∈ l, p x = false → ¬ kill x) :
    Passes kill (l.filter p) ↔ Passes kill l := by
  constructor
  · intro hpass q hq
    cases hp : p q with
    | true => exact hpass q (List.mem_filter.2 ⟨hq, hp⟩)
    | false => exact h q hq hp
  · exact fun hpass q hq => hpass q (List.mem_of_mem_filter hq)

theorem survives_filter {p : α → Bool} {l : List α} (h : ∀ x ∈ l, p x = false → ¬ kill x) {a : α}
    (ha : p a = true) : Survives kill a (l.filter p) ↔ Survives kill a l := by
  constructor
  · rintro ⟨pre, post, heq, hpost⟩
    -- the list is cut where the filtered list is
    obtain ⟨pre', rest, rfl, -, hrest⟩ := List.filter_eq_append_iff.1 heq
    obtain ⟨skip, post', rfl, hskip, -, rfl⟩ := List.filter_eq_cons_iff.1 hrest
    refine ⟨pre' ++ skip, post', by simp, ?_⟩
    refine (passes_filter fun x hx => h x ?_).1 hpost
    exact List.mem_append_right _ (List.mem_append_right _ (List.mem_cons_of_mem _ hx))
  · rintro ⟨pre, post, rfl, hpost⟩
    refine ⟨pre.filter p, post.filter p, by simp [ha], fun q hq => ?_⟩
    exact hpost q (List.mem_of_mem_filter hq)

theorem Passes.congr {kill' : α → Prop} {l : List α} (h : Passes kill l)
    (hkill : ∀ q ∈ l, kill q ↔ kill' q) : Passes kill' l := by
  intro q hq
  rw [← hkill q hq]
  exact h q hq

theorem AtEnd.congr {kill' : α → Prop} {a : α} {b : β} (h : AtEnd kill nodes predecessors a b)
    (hkill : ∀ b, ∀ q ∈ nodes b, kill q ↔ kill' q) : AtEnd kill' nodes predecessors a b := by
  induction h with
  | here hsurvives => exact .here (hsurvives.congr (hkill _))
  | through hp hpass _ ih => exact .through hp (hpass.congr (hkill _)) ih

theorem Reaches.congr {kill' : α → Prop} {a : α} {b : β} {l : List α}
    (h : Reaches kill nodes predecessors a b l) (hkill : ∀ b, ∀ q ∈ nodes b, kill q ↔ kill' q)
    (hl : l ⊆ nodes b) : Reaches kill' nodes predecessors a b l := by
  obtain hsurvives | ⟨hpass, p, hp, hend⟩ := h
  · exact Or.inl (hsurvives.congr fun q hq => hkill b q (hl hq))
  · exact Or.inr ⟨hpass.congr fun q hq => hkill b q (hl hq), p, hp, hend.congr hkill⟩

/-- **Paths of blocks.** The node survives its block, and none of the blocks behind it on the path
kills. -/
theorem atEnd_iff_walk {a : α} {b : β} : AtEnd kill nodes predecessors a b ↔
    ∃ b₀ π, Walk (fun p b => p ∈ predecessors b) b₀ (b₀ :: π) b ∧ Survives kill a (nodes b₀) ∧
      ∀ b' ∈ π, Passes kill (nodes b') := by
  constructor
  · intro h
    induction h with
    | here h => exact ⟨_, [], .single _, h, nofun⟩
    | @through p b hp hpass _ ih =>
        obtain ⟨b₀, π, hwalk, hb₀, hπ⟩ := ih
        refine ⟨b₀, π ++ [b], hwalk.snoc hp, hb₀, fun b' hb' => ?_⟩
        obtain hb' | hb' := List.mem_append.1 hb'
        · exact hπ b' hb'
        · rw [List.mem_singleton.1 hb']
          exact hpass
  · rintro ⟨b₀, π, hwalk, hb₀, hπ⟩
    -- along the path, block after block
    have hkey : ∀ {c σ b}, Walk (fun p b => p ∈ predecessors b) c σ b →
        (∀ b' ∈ σ.tail, Passes kill (nodes b')) → AtEnd kill nodes predecessors a c →
          AtEnd kill nodes predecessors a b := by
      intro c σ b hwalk
      induction hwalk with
      | single c => exact fun _ hc => hc
      | @cons c d b σ hcd hrest ih =>
          intro hpass hc
          have hd : d ∈ σ := hrest.start_mem
          refine ih (fun b' hb' => hpass b' (List.mem_of_mem_tail hb')) ?_
          exact .through hcd (hpass d hd) hc
    exact hkey hwalk hπ (.here hb₀)

end Cape.Library.ReachingDefinitions
