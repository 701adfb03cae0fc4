import Cape.Slicing.Preloading
import Cape.Library.IdCounter

/-!
# Buffer ids over a whole run

The driver marks every start node in three passes and hands the counter of buffer ids from one pass
to the next (`main`, `Slicer::mark`, `WalkAndMark::mark`). The counter has 32 bits while a pass runs
and 16 bits in between, and pass 0 of every start begins again at 0.

`uniqueIds_iff` says for which runs the ids are unique all the same; `twoStarts` is a run with a
clash.
-/

set_option autoImplicit false
set_option linter.unusedSectionVars false

namespace Cape.Slicing

open Cape.Library

/-- A call of `handlePreloadingForSensitiveAccesses`: the access and its `opIdx`. -/
structure Access (N : Type) where
  node : N
  opIdx : Nat

/-- What passes 1 and 2 of a start hand to `handlePreloadingForSensitiveAccesses`, in order. Pass 0
hands it nothing. -/
structure StartRun (N : Type) where
  pass1 : List (Access N)
  pass2 : List (Access N)

/-- The ids of the nodes of the pointer graph: `getNewNodeId` counts an `unsigned` from 1. -/
structure NodeIds (T : Type) where
  id : T → Nat
  pos : ∀ t, 0 < id t
  lt : ∀ t, id t < 2 ^ 32
  injective : Function.Injective id

theorem NodeIds.card_lt {T : Type} (ids : NodeIds T) (objects : Finset T) :
    objects.card < 2 ^ 32 := by
  have hsub : objects.image ids.id ⊆ Finset.Ico 1 (2 ^ 32) := by
    intro i hi
    obtain ⟨t, -, rfl⟩ := Finset.mem_image.1 hi
    exact Finset.mem_Ico.2 ⟨ids.pos t, ids.lt t⟩
  have hcard := Finset.card_le_card hsub
  rw [Finset.card_image_of_injective _ ids.injective, Nat.card_Ico] at hcard
  omega

/-- The objects for which a buffer id was looked up, each with the id. -/
def uses {T : Type} (log : List (Preload T)) : List (T × Nat) :=
  log.filterMap fun p =>
    match p with
    | .alloc t bid => some (t, bid)
    | .malloc t bid => some (t, bid)
    | .global _ => none

/-- The ids given so far and the counter. -/
def State.ids {N B T : Type} (s : State N B T) : IdCounter T := ⟨s.bufferId, s.allocId⟩

namespace DependenceGraph

variable {N B F T : Type} [DecidableEq N] [DecidableEq T] (G : DependenceGraph N B F T)

/-! ## The code -/

/-- The accesses of one pass. -/
def handleAll (sliceId : Nat) : List (Access N) → State N B T → State N B T × List (Preload T)
  | [], s => (s, [])
  | a :: rest, s =>
      let r := G.handlePreloading a.node sliceId a.opIdx (G.pointsTo a.node) s
      let r' := handleAll sliceId rest r.1
      (r'.1, r.2 ++ r'.2)

/-- `WalkAndMark::mark`: the counter starts at the parameter `buff_id`; the result has 16 bits. -/
def mark (sliceId : Nat) (accesses : List (Access N)) (buffId : Nat) (s : State N B T) :
    Nat × State N B T × List (Preload T) :=
  let r := G.handleAll sliceId accesses { s with allocId := buffId }
  (r.1.allocId % 2 ^ 16, r)

/-- `handleFreeFunc`, one target of a call of `free`. -/
def handleFreeTarget (ci : N) (s : State N B T) (target : T) : State N B T :=
  match G.userData target with
  | .instruction v =>
      if G.key v = .instruction (.call (some "malloc")) ∧ 0 < s.bufferId target then
        s.insertBefore (.node ci) (.eraseMallocSet (s.bufferId target))
      else s
  | _ => s

/-- `handleFreeFunc`. -/
def handleFreeFunc (frees : List N) (s : State N B T) : State N B T :=
  (frees.filter fun ci => decide (G.key ci = .instruction (.call (some "free")))).foldl
    (fun s ci => (G.pointsTo ci 0).foldl (G.handleFreeTarget ci) s) s

/-- The three passes of `main` for one start. -/
def markStart (sliceId : Nat) (frees : List N) (run : StartRun N) (s : State N B T) :
    State N B T × List (Preload T) :=
  -- pass 0 is called with the default `buff_id` 0
  let (buffId, s, _) := G.mark sliceId [] 0 s
  let (buffId, s, log1) := G.mark sliceId run.pass1 buffId s
  let (_, s, log2) := G.mark sliceId run.pass2 buffId s
  (G.handleFreeFunc frees s, log1 ++ log2)

/-- All starts. -/
def markAll (sliceId : Nat) (frees : List N) : List (StartRun N) → State N B T →
    State N B T × List (Preload T)
  | [], s => (s, [])
  | run :: rest, s =>
      let r := G.markStart sliceId frees run s
      let r' := markAll sliceId frees rest r.1
      (r'.1, r.2 ++ r'.2)

/-! ## Unique ids -/

/-- An inserted call that passes a buffer id passes the whole id of an object, and of its own object
where it also passes the address. -/
def Carries (bufferId : T → Nat) : RuntimeCall N → Prop
  | .pushAllocStack id ai => id ≠ 0 ∧ ∃ t, G.userData t = .instruction ai ∧ bufferId t = id
  | .insertMallocSet id ci => id ≠ 0 ∧ ∃ t, G.userData t = .instruction ci ∧ bufferId t = id
  | .popAllocStack id => id ≠ 0 ∧ ∃ t, bufferId t = id
  | .eraseMallocSet id => id ≠ 0 ∧ ∃ t, bufferId t = id
  | _ => True

/-- Every inserted call carries an id. -/
def CodeCarries (s : State N B T) : Prop :=
  ∀ b uid call, .inserted uid call ∈ s.code b → G.Carries s.bufferId call

/-- Over a run: objects and ids correspond one to one, and the ids reach the inserted calls. -/
structure UniqueIds (r : State N B T × List (Preload T)) : Prop where
  id_iff : ∀ t i t' i', (t, i) ∈ uses r.2 → (t', i') ∈ uses r.2 → (i = i' ↔ t = t')
  carried : G.CodeCarries r.1

/-- The target gets a buffer id when it is handled: an `alloca` of another function or a `malloc`. -/
def needsId (access : N) (target : T) : Bool :=
  match G.userData target with
  | .instruction v =>
      if G.key v = .instruction .alloca then (G.localNode access v).isNone
      else decide (G.key v = .instruction (.call (some "malloc")))
  | _ => false

/-- The objects that need an id, in the order in which an access comes to them. -/
def requests (a : Access N) : List T :=
  (((operands a.opIdx).flatMap (G.pointsTo a.node)).takeWhile fun t => !G.stops t).filter
    (G.needsId a.node)

/-- The objects that need an id in one pass. -/
def objects (accesses : List (Access N)) : List T := accesses.flatMap G.requests

/-- The objects that need an id in the passes of a start. -/
def startObjects (run : StartRun N) : List T := G.objects run.pass1 ++ G.objects run.pass2

/-- Pass 1 meets less than `2 ^ 16` objects, or pass 2 meets no others. -/
def Fits (run : StartRun N) : Prop :=
  (G.objects run.pass1).toFinset.card < 2 ^ 16 ∨ G.objects run.pass2 ⊆ G.objects run.pass1

/-- The first start that meets an object that needs an id meets all of them, and they fit. -/
def MetByOneStart : List (StartRun N) → Prop
  | [] => True
  | run :: rest =>
      (G.startObjects run = [] ∧ MetByOneStart rest) ∨
        (G.startObjects run ≠ [] ∧ G.Fits run ∧
          ∀ run' ∈ rest, G.startObjects run' ⊆ G.startObjects run)

/-! ## The ids that handling gives -/

section Ids

variable {G}

variable (G) in
theorem ids_bufferAlloca (s : State N B T) (target : T) (ai : N) :
    (G.bufferAlloca s target ai).ids = IdCounter.give (2 ^ 32) s.ids target := by
  rw [bufferAlloca]
  split
  · next hbuffered => exact (IdCounter.give_of_pos hbuffered).symm
  · next hnew =>
      have hgive : IdCounter.give (2 ^ 32) s.ids target =
          ⟨Function.update s.bufferId target (nextId s), nextId s⟩ := if_neg hnew
      rw [hgive]
      simp only
      split
      · rfl
      · rfl

theorem ids_bufferMalloc (s : State N B T) (target : T) (ci : N) :
    (bufferMalloc s target ci).ids = IdCounter.give (2 ^ 32) s.ids target := by
  rw [bufferMalloc]
  split
  · next hbuffered => exact (IdCounter.give_of_pos hbuffered).symm
  · next hnew => exact (if_neg hnew).symm

theorem ids_markLocal (access : N) (sliceId : Nat) (s : State N B T) (v : N) :
    (G.markLocal access sliceId s v).ids = s.ids := by
  rw [markLocal]
  split
  · rfl
  · rfl

/-- Handling a target asks for its id if it needs one, and changes no other id. -/
theorem ids_handleTarget (access : N) (sliceId : Nat) (s : State N B T) (target : T) :
    (G.handleTarget access sliceId s target).1.ids =
        (if G.needsId access target then IdCounter.give (2 ^ 32) s.ids target else s.ids) ∧
      uses (G.handleTarget access sliceId s target).2 =
        (if G.needsId access target then
          [(target, (IdCounter.give (2 ^ 32) s.ids target).id target)] else []) := by
  rw [handleTarget, needsId]
  cases G.userData target with
  | null => exact ⟨rfl, rfl⟩
  | other => exact ⟨rfl, rfl⟩
  | globalVariable gv =>
      simp only
      split
      · exact ⟨rfl, rfl⟩
      · exact ⟨rfl, rfl⟩
  | instruction v =>
      simp only
      split
      · cases hlocal : G.localNode access v with
        | some g => exact ⟨rfl, rfl⟩
        | none =>
            have hids := ids_bufferAlloca G s target v
            refine ⟨hids, ?_⟩
            show [(target, (G.bufferAlloca s target v).ids.id target)] = _
            rw [hids]
            rfl
      · split
        · next hkey =>
            have hids := ids_bufferMalloc (G.markLocal access sliceId s v) target v
            rw [ids_markLocal] at hids
            rw [if_pos (decide_eq_true hkey), if_pos (decide_eq_true hkey)]
            refine ⟨hids, ?_⟩
            show [(target, (bufferMalloc _ target v).ids.id target)] = _
            rw [hids]
        · next hkey => simp [hkey, uses]

/-! ## The ids in the inserted calls -/

theorem Carries.mono {bufferId bufferId' : T → Nat}
    (hkept : ∀ t, bufferId t ≠ 0 → bufferId' t = bufferId t) {call : RuntimeCall N}
    (h : G.Carries bufferId call) : G.Carries bufferId' call := by
  cases call with
  | pushAllocStack id ai =>
      obtain ⟨hid, t, hdata, rfl⟩ := h
      exact ⟨hid, t, hdata, hkept t hid⟩
  | insertMallocSet id ci =>
      obtain ⟨hid, t, hdata, rfl⟩ := h
      exact ⟨hid, t, hdata, hkept t hid⟩
  | popAllocStack id =>
      obtain ⟨hid, t, rfl⟩ := h
      exact ⟨hid, t, hkept t hid⟩
  | eraseMallocSet id =>
      obtain ⟨hid, t, rfl⟩ := h
      exact ⟨hid, t, hkept t hid⟩
  | _ => exact trivial

/-- Inserting a call that carries an id. -/
theorem CodeCarries.insertBefore {s : State N B T} (h : G.CodeCarries s) (at_ : Inst N)
    {call : RuntimeCall N} (hcall : G.Carries s.bufferId call) :
    G.CodeCarries (s.insertBefore at_ call) := by
  intro b uid c hc
  rcases State.mem_insertBefore hc with hc | hc
  · exact h b uid c hc
  · cases hc
    exact hcall

theorem CodeCarries.insertAfter {s : State N B T} (h : G.CodeCarries s) (at_ : Inst N)
    {call : RuntimeCall N} (hcall : G.Carries s.bufferId call) :
    G.CodeCarries (s.insertAfter at_ call) := by
  intro b uid c hc
  rcases State.mem_insertAfter hc with hc | hc
  · exact h b uid c hc
  · cases hc
    exact hcall

theorem CodeCarries.of_kept {s s' : State N B T} (h : G.CodeCarries s) (hcode : s'.code = s.code)
    (hkept : ∀ t, s.bufferId t ≠ 0 → s'.bufferId t = s.bufferId t) : G.CodeCarries s' := by
  intro b uid c hc
  rw [hcode] at hc
  exact (h b uid c hc).mono hkept

theorem CodeCarries.newId {s : State N B T} (h : G.CodeCarries s) {target : T}
    (htarget : s.bufferId target = 0) (bid : Nat) : G.CodeCarries
      { s with allocId := bid, bufferId := Function.update s.bufferId target bid } := by
  intro b uid c hc
  apply (h b uid c hc).mono
  intro t ht
  apply Function.update_of_ne
  rintro rfl
  exact ht htarget

theorem CodeCarries.bufferAlloca {s : State N B T} (h : G.CodeCarries s) {target : T} {ai : N}
    (hdata : G.userData target = .instruction ai)
    (hid : (IdCounter.give (2 ^ 32) s.ids target).id target ≠ 0) :
    G.CodeCarries (G.bufferAlloca s target ai) := by
  rw [DependenceGraph.bufferAlloca]
  split
  · exact h
  · next hnew =>
      have htarget : s.bufferId target = 0 := Nat.eq_zero_of_not_pos hnew
      have hgive : IdCounter.give (2 ^ 32) s.ids target =
          ⟨Function.update s.bufferId target (nextId s), nextId s⟩ := if_neg hnew
      rw [hgive] at hid
      simp only [Function.update_self] at hid
      have hpush : G.CodeCarries (State.insertAfter _ (.node ai) (.pushAllocStack (nextId s) ai)) :=
        (h.newId htarget (nextId s)).insertAfter _ ⟨hid, target, hdata, Function.update_self _ _ _⟩
      simp only
      split
      · exact hpush
      · exact hpush.insertBefore _ ⟨hid, target, Function.update_self _ _ _⟩

theorem CodeCarries.bufferMalloc {s : State N B T} (h : G.CodeCarries s) {target : T} {ci : N}
    (hdata : G.userData target = .instruction ci)
    (hid : (IdCounter.give (2 ^ 32) s.ids target).id target ≠ 0) :
    G.CodeCarries (bufferMalloc s target ci) := by
  rw [DependenceGraph.bufferMalloc]
  split
  · exact h
  · next hnew =>
      have htarget : s.bufferId target = 0 := Nat.eq_zero_of_not_pos hnew
      have hgive : IdCounter.give (2 ^ 32) s.ids target =
          ⟨Function.update s.bufferId target (nextId s), nextId s⟩ := if_neg hnew
      rw [hgive] at hid
      simp only [Function.update_self] at hid
      exact (h.newId htarget (nextId s)).insertAfter _
        ⟨hid, target, hdata, Function.update_self _ _ _⟩

theorem CodeCarries.handleTarget {s : State N B T} (h : G.CodeCarries s) {access : N}
    {sliceId : Nat} {target : T} (hid : G.needsId access target = true →
      (IdCounter.give (2 ^ 32) s.ids target).id target ≠ 0) :
    G.CodeCarries (G.handleTarget access sliceId s target).1 := by
  rw [needsId] at hid
  rw [DependenceGraph.handleTarget]
  cases hdata : G.userData target with
  | null => exact h
  | other => exact h
  | globalVariable gv =>
      simp only
      split
      · exact h
      · exact h
  | instruction v =>
      simp only [hdata] at hid ⊢
      split
      · next hkey =>
          rw [if_pos hkey] at hid
          cases hlocal : G.localNode access v with
          | some g => exact h.of_kept rfl fun _ _ => rfl
          | none => exact h.bufferAlloca hdata (hid (by rw [hlocal]; rfl))
      · next hkey =>
          rw [if_neg hkey] at hid
          split
          · next hmalloc =>
              have hlocal : G.CodeCarries (G.markLocal access sliceId s v) := by
                rw [markLocal]
                split
                · exact h.of_kept rfl fun _ _ => rfl
                · exact h
              apply hlocal.bufferMalloc hdata
              rw [ids_markLocal]
              exact hid (decide_eq_true hmalloc)
          · exact h

/-! ## Passes -/

/-- A part of a run that asks for the ids of the objects `l` in this order. -/
structure Asks (G : DependenceGraph N B F T) (s : State N B T) (l : List T)
    (r : State N B T × List (Preload T)) : Prop where
  ids : r.1.ids = IdCounter.giveAll (2 ^ 32) s.ids l
  uses : uses r.2 = IdCounter.uses (2 ^ 32) s.ids l
  carries : s.allocId + (s.ids.new l).card < 2 ^ 32 → G.CodeCarries s → G.CodeCarries r.1

theorem Asks.nil (s : State N B T) : Asks G s [] (s, []) := ⟨rfl, rfl, fun _ h => h⟩

theorem Asks.append {s : State N B T} {l l' : List T} {r r' : State N B T × List (Preload T)}
    (h : Asks G s l r) (h' : Asks G r.1 l' r') : Asks G s (l ++ l') (r'.1, r.2 ++ r'.2) := by
  refine ⟨?_, ?_, fun hM hs => ?_⟩
  · rw [IdCounter.giveAll_append, ← h.ids, h'.ids]
  · show Cape.Slicing.uses (r.2 ++ r'.2) = _
    rw [IdCounter.uses_append, ← h.ids, ← h.uses, ← h'.uses]
    exact List.filterMap_append
  · have hcard := IdCounter.counter_giveAll (M := 2 ^ 32) l l' s.ids hM
    rw [← h.ids] at hcard
    have hle := Finset.card_le_card (IdCounter.new_append_subset s.ids l l')
    apply h'.carries
    · show r.1.ids.counter + _ < _
      rw [hcard]
      exact hM
    · exact h.carries (by omega) hs

theorem asks_handleTarget (access : N) (sliceId : Nat) (s : State N B T) (target : T) :
    Asks G s (if G.needsId access target then [target] else [])
      (G.handleTarget access sliceId s target) := by
  obtain ⟨hids, huses⟩ := ids_handleTarget (G := G) access sliceId s target
  by_cases hneeds : G.needsId access target = true
  · rw [if_pos hneeds] at hids huses ⊢
    refine ⟨hids, huses, fun hM hs => hs.handleTarget fun _ => ?_⟩
    exact (IdCounter.counter_give hM).2
  · rw [if_neg hneeds] at hids huses ⊢
    exact ⟨hids, huses, fun _ hs => hs.handleTarget fun h => absurd h hneeds⟩

theorem asks_handleTargets (access : N) (sliceId : Nat) (l : List T) : ∀ s : State N B T,
    Asks G s ((l.takeWhile fun t => !G.stops t).filter (G.needsId access))
      (G.handleTargets access sliceId l s) := by
  induction l with
  | nil => exact fun s => Asks.nil s
  | cons target rest ih =>
      intro s
      rw [handleTargets]
      cases hstop : G.stops target with
      | true => simpa [hstop] using Asks.nil s
      | false =>
          have happ := (asks_handleTarget (G := G) access sliceId s target).append (ih _)
          rw [List.takeWhile_cons, hstop]
          simp only [Bool.not_false, if_true, Bool.false_eq_true, if_false]
          rw [List.filter_cons]
          split
          · next hneeds => rwa [if_pos hneeds] at happ
          · next hneeds => rwa [if_neg hneeds] at happ

theorem asks_handleAll (sliceId : Nat) (accesses : List (Access N)) : ∀ s : State N B T,
    Asks G s (G.objects accesses) (G.handleAll sliceId accesses s) := by
  induction accesses with
  | nil => exact fun s => Asks.nil s
  | cons a rest ih =>
      intro s
      exact (asks_handleTargets a.node sliceId _ s).append (ih _)

/-- Over a start, as over a whole run: ids that were given stay, every object that is asked for has
an id at the end, the one it is used with. -/
structure Settles (G : DependenceGraph N B F T) (s : State N B T) (l : List T)
    (r : State N B T × List (Preload T)) : Prop where
  kept : ∀ t, s.bufferId t ≠ 0 → r.1.bufferId t = s.bufferId t
  other : ∀ t, t ∉ l → r.1.bufferId t = s.bufferId t
  id_ne_zero : ∀ t ∈ l, r.1.bufferId t ≠ 0
  uses : ∀ t i, (t, i) ∈ uses r.2 ↔ t ∈ l ∧ i = r.1.bufferId t
  carries : G.CodeCarries s → G.CodeCarries r.1

theorem Asks.settles {s : State N B T} {l : List T} {r : State N B T × List (Preload T)}
    (h : Asks G s l r) (hM : s.allocId + (s.ids.new l).card < 2 ^ 32) : Settles G s l r := by
  have hgives := IdCounter.gives l s.ids hM
  rw [← h.ids] at hgives
  refine ⟨hgives.kept, hgives.other, fun t ht => hgives.id_ne_zero ht, fun t i => ?_, h.carries hM⟩
  rw [h.uses, IdCounter.mem_uses l s.ids hM, ← h.ids]
  rfl

theorem Settles.append {s : State N B T} {l l' : List T} {r r' : State N B T × List (Preload T)}
    (h : Settles G s l r) (h' : Settles G r.1 l' r') :
    Settles G s (l ++ l') (r'.1, r.2 ++ r'.2) := by
  have hkept : ∀ t, r.1.bufferId t ≠ 0 → r'.1.bufferId t = r.1.bufferId t := h'.kept
  constructor
  · intro t ht
    have hr := h.kept t ht
    exact (hkept t (hr ▸ ht)).trans hr
  · intro t ht
    rw [List.mem_append, not_or] at ht
    exact (h'.other t ht.2).trans (h.other t ht.1)
  · intro t ht
    by_cases hl : t ∈ l
    · have hne := h.id_ne_zero t hl
      show r'.1.bufferId t ≠ 0
      rwa [hkept t hne]
    · exact h'.id_ne_zero t ((List.mem_append.1 ht).resolve_left hl)
  · intro t i
    show (t, i) ∈ Cape.Slicing.uses (r.2 ++ r'.2) ↔ _
    rw [Cape.Slicing.uses, List.filterMap_append, List.mem_append, List.mem_append]
    have huses := h.uses t i
    have huses' := h'.uses t i
    rw [Cape.Slicing.uses] at huses huses'
    rw [huses, huses']
    constructor
    · rintro (⟨ht, rfl⟩ | ⟨ht, rfl⟩)
      · exact ⟨Or.inl ht, (hkept t (h.id_ne_zero t ht)).symm⟩
      · exact ⟨Or.inr ht, rfl⟩
    · rintro ⟨ht | ht, rfl⟩
      · exact Or.inl ⟨ht, hkept t (h.id_ne_zero t ht)⟩
      · exact Or.inr ⟨ht, rfl⟩
  · exact fun hs => h'.carries (h.carries hs)

/-! ## Starts -/

variable (G) in
theorem handleFreeFunc_spec (frees : List N) (s : State N B T) :
    (G.handleFreeFunc frees s).bufferId = s.bufferId ∧
      (G.CodeCarries s → G.CodeCarries (G.handleFreeFunc frees s)) := by
  have htarget : ∀ ci (s : State N B T) target,
      (G.handleFreeTarget ci s target).bufferId = s.bufferId ∧
        (G.CodeCarries s → G.CodeCarries (G.handleFreeTarget ci s target)) := by
    intro ci s target
    rw [handleFreeTarget]
    split
    · split
      · next hbuffered =>
          exact ⟨rfl, fun hs => hs.insertBefore _ ⟨hbuffered.2.ne', target, rfl⟩⟩
      · exact ⟨rfl, id⟩
    · exact ⟨rfl, id⟩
  -- a fold of steps that keep the ids and the invariant
  have hfold : ∀ {ι : Type} (f : State N B T → ι → State N B T),
      (∀ s i, (f s i).bufferId = s.bufferId ∧ (G.CodeCarries s → G.CodeCarries (f s i))) →
      ∀ (l : List ι) (s : State N B T), (l.foldl f s).bufferId = s.bufferId ∧
        (G.CodeCarries s → G.CodeCarries (l.foldl f s)) := by
    intro ι f hf l
    induction l with
    | nil => exact fun s => ⟨rfl, id⟩
    | cons i l ih =>
        intro s
        exact ⟨(ih _).1.trans (hf s i).1, fun hs => (ih _).2 ((hf s i).2 hs)⟩
  exact hfold _ (fun s ci => hfold _ (htarget ci) _ s) _ s

variable (G) (ids : NodeIds T) (sliceId : Nat) (frees : List N)
include ids

/-- The two passes of a start, each from its own value of the counter. -/
theorem gives_markStart (s : State N B T) (run : StartRun N) :
    ∃ m e : IdCounter T, IdCounter.Gives ⟨s.bufferId, 0⟩ (G.objects run.pass1) m ∧
      IdCounter.Gives ⟨m.id, m.counter % 2 ^ 16⟩ (G.objects run.pass2) e ∧
      (G.markStart sliceId frees run s).1.bufferId = e.id ∧
      Settles G s (G.startObjects run) (G.markStart sliceId frees run s) := by
  let s₀ : State N B T := { s with allocId := 0 }
  let r₁ := G.handleAll sliceId run.pass1 s₀
  let s₁ : State N B T := { r₁.1 with allocId := r₁.1.allocId % 2 ^ 16 }
  let r₂ := G.handleAll sliceId run.pass2 s₁
  have hasks₁ : Asks G s₀ (G.objects run.pass1) r₁ := asks_handleAll sliceId run.pass1 s₀
  have hasks₂ : Asks G s₁ (G.objects run.pass2) r₂ := asks_handleAll sliceId run.pass2 s₁
  have hM₁ : s₀.allocId + (s₀.ids.new (G.objects run.pass1)).card < 2 ^ 32 := by
    show 0 + _ < _
    rw [Nat.zero_add]
    exact ids.card_lt _
  have hgives₁ := IdCounter.gives (M := 2 ^ 32) (G.objects run.pass1) s₀.ids hM₁
  rw [← hasks₁.ids] at hgives₁
  have hM₂ : s₁.allocId + (s₁.ids.new (G.objects run.pass2)).card < 2 ^ 32 := by
    -- the objects that are new in pass 2 are not those of pass 1
    have hdisjoint : Disjoint (s₀.ids.new (G.objects run.pass1))
        (s₁.ids.new (G.objects run.pass2)) := by
      rw [Finset.disjoint_left]
      intro t ht ht'
      exact hgives₁.id_ne_zero (IdCounter.mem_new.1 ht).1 (IdCounter.mem_new.1 ht').2
    have hcard := ids.card_lt (s₀.ids.new (G.objects run.pass1) ∪ s₁.ids.new (G.objects run.pass2))
    rw [Finset.card_union_of_disjoint hdisjoint] at hcard
    have hcounter : r₁.1.allocId = 0 + (s₀.ids.new (G.objects run.pass1)).card := hgives₁.counter
    have hmod : r₁.1.allocId % 2 ^ 16 ≤ r₁.1.allocId := Nat.mod_le _ _
    show r₁.1.allocId % 2 ^ 16 + _ < _
    omega
  have hgives₂ := IdCounter.gives (M := 2 ^ 32) (G.objects run.pass2) s₁.ids hM₂
  rw [← hasks₂.ids] at hgives₂
  have hstart : G.markStart sliceId frees run s =
      (G.handleFreeFunc frees r₂.1, r₁.2 ++ r₂.2) := rfl
  obtain ⟨hbufferId, hcarries⟩ := handleFreeFunc_spec G frees r₂.1
  refine ⟨r₁.1.ids, r₂.1.ids, hgives₁, hgives₂, hbufferId, ?_⟩
  have hsettles₁ : Settles G s (G.objects run.pass1) (s₁, r₁.2) := by
    have h := hasks₁.settles hM₁
    exact ⟨h.kept, h.other, h.id_ne_zero, h.uses, h.carries⟩
  have hsettles := hsettles₁.append (hasks₂.settles hM₂)
  rw [hstart]
  refine ⟨?_, ?_, ?_, ?_, fun hs => hcarries (hsettles.carries hs)⟩
  · rw [hbufferId]
    exact hsettles.kept
  · rw [hbufferId]
    exact hsettles.other
  · rw [hbufferId]
    exact hsettles.id_ne_zero
  · rw [hbufferId]
    exact hsettles.uses

theorem settles_markStart (s : State N B T) (run : StartRun N) :
    Settles G s (G.startObjects run) (G.markStart sliceId frees run s) := by
  obtain ⟨-, -, -, -, -, h⟩ := gives_markStart G ids sliceId frees s run
  exact h

theorem settles_markAll (starts : List (StartRun N)) : ∀ s : State N B T,
    Settles G s (starts.flatMap G.startObjects) (G.markAll sliceId frees starts s) := by
  induction starts with
  | nil =>
      intro s
      exact ⟨fun _ _ => rfl, fun _ _ => rfl, fun t ht => absurd ht List.not_mem_nil, by
        intro t i
        simp [markAll, Cape.Slicing.uses], id⟩
  | cons run rest ih =>
      intro s
      exact (settles_markStart G ids sliceId frees s run).append (ih _)

/-- The first object that a start adds gets id 1. -/
theorem exists_id_one_markStart {s : State N B T} {run : StartRun N}
    (hnew : ∃ t ∈ G.startObjects run, s.bufferId t = 0) :
    ∃ t ∈ G.startObjects run, s.bufferId t = 0 ∧
      (G.markStart sliceId frees run s).1.bufferId t = 1 := by
  obtain ⟨m, e, h₁, h₂, hid, -⟩ := gives_markStart G ids sliceId frees s run
  rw [hid]
  have hcounter : m.counter = 0 + (IdCounter.new ⟨s.bufferId, 0⟩ (G.objects run.pass1)).card :=
    h₁.counter
  rcases Finset.eq_empty_or_nonempty (IdCounter.new ⟨s.bufferId, 0⟩ (G.objects run.pass1)) with
    hempty | hsome
  · -- nothing new in pass 1: pass 2 starts at 0 as well
    rw [hempty, Finset.card_empty] at hcounter
    have hsame : ∀ t, m.id t = s.bufferId t := by
      intro t
      by_cases ht : t ∈ G.objects run.pass1
      · apply h₁.kept t
        intro hzero
        exact Finset.eq_empty_iff_forall_notMem.1 hempty t (IdCounter.mem_new.2 ⟨ht, hzero⟩)
      · exact h₁.other t ht
    obtain ⟨t, ht, hzero⟩ := hnew
    have hpass2 : t ∈ G.objects run.pass2 := by
      rcases List.mem_append.1 ht with h | h
      · exact absurd (IdCounter.mem_new.2 ⟨h, hzero⟩) (Finset.eq_empty_iff_forall_notMem.1 hempty t)
      · exact h
    have hnew₂ : t ∈ IdCounter.new ⟨m.id, m.counter % 2 ^ 16⟩ (G.objects run.pass2) :=
      IdCounter.mem_new.2 ⟨hpass2, (hsame t).trans hzero⟩
    have hpos := Finset.card_pos.2 ⟨t, hnew₂⟩
    have hcounter₂ : e.counter = m.counter % 2 ^ 16 + _ := h₂.counter
    obtain ⟨x, hx, hone⟩ := h₂.exists_id (i := 1) (by show m.counter % 2 ^ 16 < 1; omega) (by omega)
    obtain ⟨hx, hxzero⟩ := IdCounter.mem_new.1 hx
    exact ⟨x, List.mem_append_right _ hx, (hsame x).symm.trans hxzero, hone⟩
  · have hpos := Finset.card_pos.2 hsome
    obtain ⟨x, hx, hone⟩ := h₁.exists_id (i := 1) Nat.zero_lt_one (by omega)
    obtain ⟨hx, hxzero⟩ := IdCounter.mem_new.1 hx
    refine ⟨x, List.mem_append_left _ hx, hxzero, ?_⟩
    have hkept : e.id x = m.id x := h₂.kept x (by show m.id x ≠ 0; omega)
    rw [hkept, hone]

/-- The same over several starts: the first start that adds an object gives it id 1. -/
theorem exists_id_one_markAll (starts : List (StartRun N)) : ∀ s : State N B T,
    (∃ t ∈ starts.flatMap G.startObjects, s.bufferId t = 0) →
      ∃ t ∈ starts.flatMap G.startObjects, s.bufferId t = 0 ∧
        (G.markAll sliceId frees starts s).1.bufferId t = 1 := by
  induction starts with
  | nil =>
      rintro s ⟨t, ht, -⟩
      exact absurd ht List.not_mem_nil
  | cons run rest ih =>
      intro s hnew
      have hrest := settles_markAll G ids sliceId frees rest
        (G.markStart sliceId frees run s).1
      simp only [List.flatMap_cons, List.mem_append] at hnew ⊢
      by_cases hrun : ∃ t ∈ G.startObjects run, s.bufferId t = 0
      · obtain ⟨x, hx, hzero, hone⟩ := exists_id_one_markStart G ids sliceId frees hrun
        refine ⟨x, Or.inl hx, hzero, ?_⟩
        exact (hrest.kept x (by omega)).trans hone
      · -- the first start adds nothing and leaves the ids alone
        have hstart := settles_markStart G ids sliceId frees s run
        have hsame : ∀ t, (G.markStart sliceId frees run s).1.bufferId t = s.bufferId t := by
          intro t
          by_cases ht : t ∈ G.startObjects run
          · exact hstart.kept t fun hzero => hrun ⟨t, ht, hzero⟩
          · exact hstart.other t ht
        obtain ⟨t, ht, hzero⟩ := hnew
        have ht' : t ∈ rest.flatMap G.startObjects :=
          ht.resolve_left fun h => hrun ⟨t, h, hzero⟩
        obtain ⟨x, hx, hxzero, hone⟩ := ih _ ⟨t, ht', (hsame t).trans hzero⟩
        exact ⟨x, Or.inr hx, (hsame x).symm.trans hxzero, hone⟩

/-- In a start that finds no id given, the ids are different if and only if the objects fit. -/
theorem injOn_markStart {s : State N B T} (hs : ∀ t, s.bufferId t = 0) (run : StartRun N) :
    Set.InjOn (G.markStart sliceId frees run s).1.bufferId {t | t ∈ G.startObjects run} ↔
      G.Fits run := by
  obtain ⟨m, e, h₁, h₂, hid, -⟩ := gives_markStart G ids sliceId frees s run
  rw [hid]
  have hnew₁ : IdCounter.new ⟨s.bufferId, 0⟩ (G.objects run.pass1) =
      (G.objects run.pass1).toFinset := by
    ext t
    simp [IdCounter.mem_new, hs]
  have hcounter : m.counter = (G.objects run.pass1).toFinset.card := by
    have h := h₁.counter
    rw [hnew₁] at h
    simpa using h
  have hkept : ∀ t ∈ G.objects run.pass1, e.id t = m.id t ∧ m.id t ≠ 0 := by
    intro t ht
    exact ⟨h₂.kept t (h₁.id_ne_zero ht), h₁.id_ne_zero ht⟩
  have hzero : ∀ t, t ∉ G.objects run.pass1 → m.id t = 0 := fun t ht =>
    (h₁.other t ht).trans (hs t)
  constructor
  · intro hinj
    by_contra hno
    rw [Fits, not_or] at hno
    obtain ⟨hbig, hmore⟩ := hno
    obtain ⟨t, ht, ht'⟩ := Set.not_subset.1 hmore
    have hnew₂ : t ∈ IdCounter.new ⟨m.id, m.counter % 2 ^ 16⟩ (G.objects run.pass2) :=
      IdCounter.mem_new.2 ⟨ht, hzero t ht'⟩
    have hpos := Finset.card_pos.2 ⟨t, hnew₂⟩
    have hcounter₂ : e.counter = m.counter % 2 ^ 16 + _ := h₂.counter
    have hmod : m.counter % 2 ^ 16 < 2 ^ 16 := Nat.mod_lt _ (by norm_num)
    -- the first id of pass 2 was given in pass 1
    obtain ⟨x, hx, hxid⟩ := h₂.exists_id (i := m.counter % 2 ^ 16 + 1)
      (Nat.lt_succ_self _) (by omega)
    obtain ⟨y, hy, hyid⟩ := h₁.exists_id (i := m.counter % 2 ^ 16 + 1) (Nat.succ_pos _) (by omega)
    obtain ⟨hx, hxzero⟩ := IdCounter.mem_new.1 hx
    obtain ⟨hy, -⟩ := IdCounter.mem_new.1 hy
    have hxy : x = y := hinj (List.mem_append_right _ hx) (List.mem_append_left _ hy) (by
      rw [(hkept y hy).1, hxid, hyid])
    exact (hkept y hy).2 (hxy ▸ hxzero)
  · intro hfits x hx y hy hxy
    -- pass 1 gives the ids up to its counter, pass 2 the ones above
    have hlow : ∀ t ∈ G.objects run.pass1, e.id t ≤ m.counter := by
      intro t ht
      have hbelow : m.id t ≤ 0 + _ := h₁.below t (hnew₁ ▸ List.mem_toFinset.2 ht)
      rw [hnew₁, Nat.zero_add] at hbelow
      rw [(hkept t ht).1, hcounter]
      exact hbelow
    have hinj₁ : ∀ t ∈ G.objects run.pass1, ∀ t' ∈ G.objects run.pass1, e.id t = e.id t' →
        t = t' := by
      intro t ht t' ht' heq
      rw [(hkept t ht).1, (hkept t' ht').1] at heq
      have hinj := h₁.injOn
      rw [hnew₁] at hinj
      exact hinj (by simpa using ht) (by simpa using ht') heq
    have hhigh : ∀ t ∈ G.startObjects run, t ∉ G.objects run.pass1 →
        t ∈ IdCounter.new ⟨m.id, m.counter % 2 ^ 16⟩ (G.objects run.pass2) ∧ m.counter < e.id t := by
      intro t ht hnot
      have ht₂ : t ∈ G.objects run.pass2 := (List.mem_append.1 ht).resolve_left hnot
      have hnew : t ∈ IdCounter.new ⟨m.id, m.counter % 2 ^ 16⟩ (G.objects run.pass2) :=
        IdCounter.mem_new.2 ⟨ht₂, hzero t hnot⟩
      refine ⟨hnew, ?_⟩
      rcases hfits with hsmall | hsub
      · have habove : m.counter % 2 ^ 16 < e.id t := h₂.above t hnew
        rwa [Nat.mod_eq_of_lt (by omega)] at habove
      · exact absurd (hsub ht₂) hnot
    by_cases hx₁ : x ∈ G.objects run.pass1
    · by_cases hy₁ : y ∈ G.objects run.pass1
      · exact hinj₁ x hx₁ y hy₁ hxy
      · have hle := hlow x hx₁
        have hlt := (hhigh y hy hy₁).2
        omega
    · by_cases hy₁ : y ∈ G.objects run.pass1
      · have hle := hlow y hy₁
        have hlt := (hhigh x hx hx₁).2
        omega
      · exact h₂.injOn (hhigh x hx hx₁).1 (hhigh y hy hy₁).1 hxy

/-- From a state without ids, the ids of all starts are different if and only if one start meets all
objects and they fit. -/
theorem injOn_markAll (starts : List (StartRun N)) : ∀ s : State N B T, (∀ t, s.bufferId t = 0) →
    (Set.InjOn (G.markAll sliceId frees starts s).1.bufferId
        {t | t ∈ starts.flatMap G.startObjects} ↔ G.MetByOneStart starts) := by
  induction starts with
  | nil =>
      intro s _
      simp [MetByOneStart]
  | cons run rest ih =>
      intro s hs
      have hstart := settles_markStart G ids sliceId frees s run
      have hrest := settles_markAll G ids sliceId frees rest
        (G.markStart sliceId frees run s).1
      have hfinal : ∀ t ∈ G.startObjects run, (G.markAll sliceId frees (run :: rest) s).1.bufferId t =
          (G.markStart sliceId frees run s).1.bufferId t := fun t ht =>
        hrest.kept t (hstart.id_ne_zero t ht)
      have hfits := injOn_markStart G ids sliceId frees hs run
      rw [MetByOneStart]
      by_cases hnone : G.startObjects run = []
      · have hs' : ∀ t, (G.markStart sliceId frees run s).1.bufferId t = 0 := by
          intro t
          rw [hstart.other t (by rw [hnone]; exact List.not_mem_nil), hs]
        rw [List.flatMap_cons, hnone, List.nil_append]
        simp only [true_and, ne_eq, not_true_eq_false, false_and, or_false]
        exact ih _ hs'
      · simp only [hnone, false_and, false_or, ne_eq, not_false_eq_true, true_and]
        constructor
        · intro hinj
          refine ⟨hfits.1 ?_, ?_⟩
          · intro x hx y hy hxy
            apply hinj
            · exact List.mem_append_left _ hx
            · exact List.mem_append_left _ hy
            · rw [hfinal x hx, hfinal y hy, hxy]
          · intro run' hrun' t ht
            by_contra hnot
            -- the first object that a later start adds has the id of the first object of all
            have ht' : t ∈ rest.flatMap G.startObjects := List.mem_flatMap.2 ⟨run', hrun', ht⟩
            obtain ⟨x, hx, hxzero, hxone⟩ := exists_id_one_markAll G ids sliceId frees rest (G.markStart sliceId frees run s).1
              ⟨t, ht', (hstart.other t hnot).trans (hs t)⟩
            obtain ⟨y, ys, hy⟩ := List.exists_cons_of_ne_nil hnone
            obtain ⟨z, hz, -, hzone⟩ := exists_id_one_markStart G ids sliceId frees ⟨y, hy ▸ List.mem_cons_self, hs y⟩
            have hxz : x = z := by
              apply hinj
              · exact List.mem_append_right _ hx
              · exact List.mem_append_left _ hz
              · rw [hfinal z hz, hzone]
                exact hxone
            exact hstart.id_ne_zero z hz (hxz ▸ hxzero)
        · rintro ⟨hfit, hsub⟩
          have hall : ∀ t, t ∈ (run :: rest).flatMap G.startObjects → t ∈ G.startObjects run := by
            intro t ht
            obtain ⟨run', hrun', htrun⟩ := List.mem_flatMap.1 ht
            rcases List.mem_cons.1 hrun' with rfl | hrun'
            · exact htrun
            · exact hsub run' hrun' htrun
          intro x hx y hy hxy
          rw [hfinal x (hall x hx), hfinal y (hall y hy)] at hxy
          exact hfits.2 hfit (hall x hx) (hall y hy) hxy

/-- **The buffer ids of a run are unique if and only if one start meets all the objects that need an
id and these fit**: less than `2 ^ 16` in its pass 1, or none left for its pass 2. -/
theorem uniqueIds_iff (slices : Slices N B) (starts : List (StartRun N)) :
    G.UniqueIds (G.markAll sliceId frees starts (G.source slices)) ↔
      G.MetByOneStart starts := by
  let s : State N B T := G.source slices
  have hsettles := settles_markAll G ids sliceId frees starts s
  have hinitial : G.CodeCarries s := by
    intro b uid call hcall
    obtain ⟨n, -, heq⟩ := List.mem_map.1 hcall
    cases heq
  rw [← injOn_markAll G ids sliceId frees starts s fun _ => rfl]
  constructor
  · intro hunique x hx y hy hxy
    exact (hunique.id_iff x _ y _ ((hsettles.uses x _).2 ⟨hx, rfl⟩)
      ((hsettles.uses y _).2 ⟨hy, rfl⟩)).1 hxy
  · intro hinj
    refine ⟨fun t i t' i' ht ht' => ?_, hsettles.carries hinitial⟩
    obtain ⟨hmem, rfl⟩ := (hsettles.uses t i).1 ht
    obtain ⟨hmem', rfl⟩ := (hsettles.uses t' i').1 ht'
    exact ⟨fun heq => hinj hmem hmem' heq, fun heq => by rw [heq]⟩

end Ids

end DependenceGraph

/-! ## A clash -/

namespace TwoStarts

/-- Two buffers from `malloc`, each with a load from it. -/
inductive Node where
  | malloc1 | malloc2 | load1 | load2
  deriving DecidableEq

open Node

def graph : DependenceGraph Node Unit Unit Bool where
  key
    | malloc1 | malloc2 => .instruction (.call (some "malloc"))
    | load1 | load2 => .instruction .load
  nodes _ := [malloc1, malloc2, load1, load2]
  successors _ := []
  predecessors _ := []
  idom _ := none
  ipostdom _ := .root
  functionName _ := "main"
  functionBlocks _ := [()]
  bblock _ := some ()
  dg _ := some ()
  entry _ := none
  getNode _ n := some n
  control _ := []
  revControl _ := []
  data _ := []
  revData _ := []
  use
    | malloc1 => [load1]
    | malloc2 => [load2]
    | _ => []
  user
    | load1 => [malloc1]
    | load2 => [malloc2]
    | _ => []
  interference _ := []
  controlDependence _ := []
  revControlDependence _ := []
  userData t := .instruction (if t then malloc2 else malloc1)
  pointsTo
    | load1, 0 => [false]
    | load2, 0 => [true]
    | _, _ => []

/-- The first start leads to the first load, the second one to the second load. -/
def starts : List (StartRun Node) := [⟨[], [⟨load1, 0⟩]⟩, ⟨[], [⟨load2, 0⟩]⟩]

def result : State Node Unit Bool × List (Preload Bool) :=
  graph.markAll 1 [] starts (graph.source ⟨fun _ => 1, fun _ => 1⟩)

/-- **Both buffers get id 1**: the counter begins again with every start. -/
theorem not_uniqueIds : uses result.2 = [(false, 1), (true, 1)] ∧ ¬ graph.UniqueIds result := by
  have huses : uses result.2 = [(false, 1), (true, 1)] := by decide
  refine ⟨huses, fun hunique => ?_⟩
  have hclash := (hunique.id_iff false 1 true 1 (by rw [huses]; decide) (by rw [huses]; decide)).1 rfl
  cases hclash

end TwoStarts

end Cape.Slicing
