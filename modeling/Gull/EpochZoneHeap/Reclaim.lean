import Gull.ShelfHeap.Concurrent

/-! Deferred reclamation in `allocator/epoch_zone_heap.cc`: `EpochZoneHeap::Free(op, ptr)`
pushes a block onto the delayed-free list three epochs ahead of the one its `EpochOp`
pinned, and each pass of `BackgroundWorker` pins an epoch in a fresh `EpochOp` and pops up
to `kFreeCnt` blocks from that epoch's list, handing each to `rmb_->Free`.

Modelled from the spec, since the code is not among the sources:
* The epoch manager, by its contract. The reported epoch `R` and the frontier `F` never
  decrease, `R ≤ F ≤ R + 2`, `R + 3 < 2^63` (so `EpochCounter` arithmetic is exact), and `R`
  stays below the frontier every active critical section entered at. An `EpochOp` enters at
  the current frontier and then pins the current `R`.
* The delayed-free stacks (`ZoneEntryStack`), here as atomic LIFO lists of records, each
  carrying its index and, as ghost, the offset its `Free` was given, the epoch that `Free`
  pinned and the critical sections active when it was pushed. `IndexStack` models the
  stack as the spec describes it (a 32-bit index in the head, the next link in the block's
  first word), and `Refinement` shows that it behaves as these lists when no block is freed
  twice and every index fits 32 bits.
* `rmb_`, the zone shelf heap of `shelf_usage/zone_shelf_heap.h`: the spec describes it as the
  bump allocator of `shelf_heap.h`, so `rmb_->IsValidOffset` is `NvHeapLayout::IsValid`.

`freed_after_readers` is the safety of the `e + 3` rule: the cleaner frees the cache line of
an offset some `Free` deferred, only at an epoch at least three past the one that `Free`
pinned, when no section active at the `Free` is active any more. -/
namespace Gull.EpochZoneHeap.Reclaim

open Gull.ShelfHeap

/-- Modelled from the spec: `kListCnt`, the number of delayed-free lists (`N_LISTS = 5`). -/
def kListCnt : Nat := 5

/-- Modelled from the spec: `min_obj_size_`, which `Open` caches from the shelf heap's
`MinAllocSize`, its cache-line rounding unit. -/
def minObjSize : Word := kCacheLineSize

/-- The index `Free(op, ptr)` pushes for a block: `offset/min_obj_size_`. -/
def blockIndex (offset : Word) : Word := offset / minObjSize

/-- The cleaner's decoding of a popped index: `pop(header_) * min_obj_size_`. -/
def blockOffset (index : Word) : Word := index * minObjSize

/-- `global_list_[(e+3)%kListCnt]`, the list a block freed at pinned epoch `e` goes to. -/
def pushList (e : Nat) : Fin kListCnt := ⟨(e + 3) % kListCnt, Nat.mod_lt _ (by decide)⟩

/-- `global_list_[e%kListCnt]`, the list a cleaner pass at pinned epoch `e` drains. -/
def popList (e : Nat) : Fin kListCnt := ⟨e % kListCnt, Nat.mod_lt _ (by decide)⟩

/-- A critical section: its ghost identity and the frontier epoch it entered at. -/
structure Section where
  id : Nat
  entered : Nat
  deriving DecidableEq

/-- A block on a delayed-free list: the pushed index and, as ghost, the offset `Free(op, ptr)`
was given, the epoch its `EpochOp` pinned and the critical sections active when it was
pushed. -/
structure Pushed where
  index : Word
  offset : Word
  epoch : Nat
  active : List Nat
  deriving DecidableEq

/-- A block the cleaner handed to `rmb_->Free`, with the epoch the cleaner's `EpochOp`
pinned. -/
structure Freed where
  block : Pushed
  epoch : Nat
  deriving DecidableEq

/-- A thread's `EpochOp` and, for the cleaner, its place in the pass; `β` is what a pass holds
between its pop and its `rmb_->Free`. -/
inductive Worker (β : Type) where
  | idle
  /-- `EpochOp`'s constructor has entered a critical section; nothing is pinned yet. -/
  | entered (cleaner : Bool) (sec : Section)
  /-- An `EpochOp` pinned at `e`, with which the thread may call `Free(op, ptr)`. -/
  | holding (sec : Section) (e : Nat)
  /-- A cleaner pass at pinned epoch `e` that has popped `count` blocks. -/
  | cleaning (sec : Section) (e count : Nat)
  /-- A cleaner pass that popped `block` and is about to hand it to `rmb_->Free`. -/
  | freeing (sec : Section) (e count : Nat) (block : β)
  /-- A cleaner pass whose loop is over; its `EpochOp` is about to be destroyed. -/
  | passDone (sec : Section)
  deriving DecidableEq

def Worker.section? {β : Type} : Worker β → Option Section
  | .idle => none
  | .entered _ sec | .holding sec _ | .cleaning sec _ _ | .freeing sec _ _ _ | .passDone sec => some sec

/-- The epoch an `EpochOp` pinned, once it has. -/
def Worker.pinned? {β : Type} : Worker β → Option Nat
  | .holding _ e | .cleaning _ e _ | .freeing _ e _ _ => some e
  | _ => none

structure State where
  /-- `reported_epoch()` of the epoch manager. -/
  reported : Nat
  /-- `frontier_epoch()` of the epoch manager. -/
  frontier : Nat
  /-- `global_list_`, each list head first. -/
  lists : Fin kListCnt → List Pushed
  threads : List (Worker Pushed)
  /-- Ghost: critical sections entered so far. -/
  sections : Nat
  /-- Ghost: every block `Free(op, ptr)` pushed. -/
  pushes : List Pushed
  /-- Ghost: every block handed to `rmb_->Free`. -/
  freed : List Freed

/-- The ids of the critical sections active now. -/
def State.activeIds (s : State) : List Nat := s.threads.filterMap fun w => w.section?.map Section.id

/-- Section `i` is active: some thread holds it. -/
def State.Active (s : State) (i : Nat) : Prop := ∃ w ∈ s.threads, ∃ sec, w.section? = some sec ∧ sec.id = i

inductive Action where
  /-- `EpochOp op(em)`: `enter_critical` at the frontier. -/
  | enter (thread : Nat) (cleaner : Bool)
  /-- The `EpochOp` pins `reported_epoch()`. -/
  | pin (thread : Nat)
  /-- `EpochZoneHeap::Free(op, ptr)` for a pointer at `offset`. -/
  | free (thread : Nat) (offset : Word)
  /-- The cleaner's `global_list_[e%kListCnt].pop(header_)`. -/
  | pop (thread : Nat)
  /-- The cleaner's `rmb_->Free(offset)`. -/
  | release (thread : Nat)
  /-- `~EpochOp`: `exit_critical`. -/
  | exit (thread : Nat)
  /-- The epoch manager moves the epochs, as its contract allows. -/
  | advance (reported frontier : Nat)

def State.setThread (s : State) (t : Nat) (w : Worker Pushed) : State :=
  { s with threads := s.threads.set t w }

@[simp] theorem State.setThread_reported (s : State) (t : Nat) (w : Worker Pushed) :
    (s.setThread t w).reported = s.reported := rfl
@[simp] theorem State.setThread_frontier (s : State) (t : Nat) (w : Worker Pushed) :
    (s.setThread t w).frontier = s.frontier := rfl
@[simp] theorem State.setThread_lists (s : State) (t : Nat) (w : Worker Pushed) :
    (s.setThread t w).lists = s.lists := rfl
@[simp] theorem State.setThread_threads (s : State) (t : Nat) (w : Worker Pushed) :
    (s.setThread t w).threads = s.threads.set t w := rfl
@[simp] theorem State.setThread_sections (s : State) (t : Nat) (w : Worker Pushed) :
    (s.setThread t w).sections = s.sections := rfl
@[simp] theorem State.setThread_pushes (s : State) (t : Nat) (w : Worker Pushed) :
    (s.setThread t w).pushes = s.pushes := rfl
@[simp] theorem State.setThread_freed (s : State) (t : Nat) (w : Worker Pushed) :
    (s.setThread t w).freed = s.freed := rfl

/-- The epoch manager's contract on a move of the epochs from `reported` and `frontier` to `r`
and `f`, with `threads` in their critical sections. -/
def Advances {β : Type} (reported frontier : Nat) (threads : List (Worker β)) (r f : Nat) : Prop :=
  reported ≤ r ∧ frontier ≤ f ∧ r ≤ f ∧ f ≤ r + 2 ∧ r + 3 < 2 ^ 63 ∧
    ∀ w ∈ threads, ∀ sec, w.section? = some sec → r < sec.entered

instance {β : Type} (reported frontier : Nat) (threads : List (Worker β)) (r f : Nat) :
    Decidable (Advances reported frontier threads r f) :=
  inferInstanceAs (Decidable (_ ∧ _ ∧ _ ∧ _ ∧ _ ∧
    ∀ w ∈ threads, ∀ sec, w.section? = some sec → r < sec.entered))

/-- One atomic step; `heap` is the zone's shelf heap and `kFreeCnt` the bound of a pass. -/
def step (heap : HeapSize) (kFreeCnt : Nat) (s : State) : Action → Option State
  | .enter t cleaner =>
    match s.threads[t]? with
    | some .idle =>
      if s.reported < s.frontier then
        some { s.setThread t (.entered cleaner ⟨s.sections, s.frontier⟩) with sections := s.sections + 1 }
      else none
    | _ => none
  | .pin t =>
    match s.threads[t]? with
    | some (.entered cleaner sec) =>
      some (s.setThread t (if cleaner then .cleaning sec s.reported 0 else .holding sec s.reported))
    | _ => none
  | .free t offset =>
    match s.threads[t]? with
    | some (.holding _ e) =>
      if isValid heap offset then
        let block : Pushed := ⟨blockIndex offset, offset, e, s.activeIds⟩
        some { s with
          lists := Function.update s.lists (pushList e) (block :: s.lists (pushList e))
          pushes := s.pushes ++ [block] }
      else some s
    | _ => none
  | .pop t =>
    match s.threads[t]? with
    | some (.cleaning sec e count) =>
      if count < kFreeCnt then
        match s.lists (popList e) with
        | [] => some (s.setThread t (.passDone sec))
        | block :: rest =>
          let s' := { s with lists := Function.update s.lists (popList e) rest }
          if blockOffset block.index = 0 then some (s'.setThread t (.passDone sec))
          else some (s'.setThread t (.freeing sec e count block))
      else some (s.setThread t (.passDone sec))
    | _ => none
  | .release t =>
    match s.threads[t]? with
    | some (.freeing sec e count block) =>
      some { s.setThread t (.cleaning sec e (count + 1)) with freed := s.freed ++ [⟨block, e⟩] }
    | _ => none
  | .exit t =>
    match s.threads[t]? with
    | some (.holding _ _) | some (.passDone _) => some (s.setThread t .idle)
    | _ => none
  | .advance r f =>
    if Advances s.reported s.frontier s.threads r f then some { s with reported := r, frontier := f }
    else none

def run (heap : HeapSize) (kFreeCnt : Nat) (s : State) : List Action → Option State
  | [] => some s
  | a :: as => (step heap kFreeCnt s a).bind fun s' => run heap kFreeCnt s' as

/-- `threads` threads with no `EpochOp`, empty lists, and both epochs at `0`. -/
def init (threads : Nat) : State where
  reported := 0
  frontier := 0
  lists := fun _ => []
  threads := List.replicate threads .idle
  sections := 0
  pushes := []
  freed := []

def Reachable (heap : HeapSize) (kFreeCnt : Nat) (s : State) : Prop :=
  ∃ n acts, run heap kFreeCnt (init n) acts = some s

/-! ## The invariant -/

/-- Every section in `ids` was entered before now, and those still active entered at an
epoch no later than `f`. -/
def State.Before (s : State) (ids : List Nat) (f : Nat) : Prop :=
  ∀ i ∈ ids, i < s.sections ∧
    ∀ w ∈ s.threads, ∀ sec, w.section? = some sec → sec.id = i → sec.entered ≤ f

structure Invariant (s : State) : Prop where
  contract : s.reported ≤ s.frontier ∧ s.frontier ≤ s.reported + 2 ∧ s.reported + 3 < 2 ^ 63
  active : ∀ w ∈ s.threads, ∀ sec, w.section? = some sec →
    s.reported < sec.entered ∧ sec.entered ≤ s.frontier ∧ sec.id < s.sections
  pinned : ∀ w ∈ s.threads, ∀ sec e, w.section? = some sec → w.pinned? = some e →
    e ≤ s.reported ∧ sec.entered ≤ e + 2
  queued : ∀ b, ∀ p ∈ s.lists b, p ∈ s.pushes ∧ b = pushList p.epoch ∧ p.epoch ≤ s.reported ∧
    s.Before p.active (p.epoch + 3)
  popped : ∀ w ∈ s.threads, ∀ sec e count p, w = .freeing sec e count p →
    p ∈ s.pushes ∧ p.epoch + 3 ≤ e ∧ s.Before p.active (p.epoch + 3)
  released : ∀ r ∈ s.freed, r.block ∈ s.pushes ∧ r.block.epoch + 3 ≤ r.epoch ∧
    r.epoch ≤ s.reported ∧ s.Before r.block.active (r.block.epoch + 3)
  /-- A pushed index is `offset/min_obj_size_` of the offset its `Free` was given. -/
  encoded : ∀ p ∈ s.pushes, p.index = blockIndex p.offset

/-- Sections of `s'` are sections of `s` or entered after all of them. -/
def SectionsFrom (s s' : State) : Prop :=
  s.sections ≤ s'.sections ∧ ∀ w' ∈ s'.threads, ∀ sec, w'.section? = some sec →
    (∃ w ∈ s.threads, w.section? = some sec) ∨ s.sections ≤ sec.id

private theorem State.Before.of_sectionsFrom {s s' : State} {ids : List Nat} {f : Nat} (before : s.Before ids f)
    (sections : SectionsFrom s s') : s'.Before ids f := by
  intro i member
  obtain ⟨old, bound⟩ := before i member
  refine ⟨Nat.lt_of_lt_of_le old sections.1, fun w' inW' sec held same => ?_⟩
  rcases sections.2 w' inW' sec held with ⟨w, inW, held'⟩ | fresh
  · exact bound w inW sec held' same
  · omega

private theorem mem_setThread {s : State} {t : Nat} {v w : Worker Pushed} (member : w ∈ (s.setThread t v).threads) :
    w ∈ s.threads ∨ w = v :=
  List.mem_or_eq_of_mem_set member

/-- Replacing a thread's worker by one with the same section, or none, brings no section. -/
private theorem sectionsFrom_setThread {s : State} {t : Nat} {w v : Worker Pushed} (at_t : s.threads[t]? = some w)
    (same : v.section? = none ∨ v.section? = w.section?) : SectionsFrom s (s.setThread t v) := by
  refine ⟨le_refl _, fun w' inW' sec held => .inl ?_⟩
  rcases mem_setThread inW' with old | rfl
  · exact ⟨w', old, held⟩
  · rcases same with none | same
    · rw [none] at held; cases held
    · exact ⟨w, List.getElem?_mem at_t, same ▸ held⟩

/-- Entering gives the new section the next ghost id, above every earlier one. -/
private theorem sectionsFrom_enter {s : State} {t : Nat} (cleaner : Bool) :
    SectionsFrom s { s.setThread t (.entered cleaner ⟨s.sections, s.frontier⟩) with
      sections := s.sections + 1 } := by
  refine ⟨Nat.le_succ _, fun w' inW' sec held => ?_⟩
  rcases mem_setThread inW' with old | rfl
  · exact .inl ⟨w', old, held⟩
  · cases held; exact .inr (le_refl _)

/-! ## Preservation -/

section Preservation

variable {s : State}

/-- A thread's worker is replaced by one in the same section or in none: whatever the new
worker pins and pops must be justified by the caller. -/
theorem Invariant.setThread (inv : Invariant s) {t : Nat} {w v : Worker Pushed}
    (at_t : s.threads[t]? = some w) (same : v.section? = none ∨ v.section? = w.section?)
    (pinned : ∀ sec e, v.section? = some sec → v.pinned? = some e →
      e ≤ s.reported ∧ sec.entered ≤ e + 2)
    (popped : ∀ sec e count p, v = .freeing sec e count p →
      p ∈ s.pushes ∧ p.epoch + 3 ≤ e ∧ s.Before p.active (p.epoch + 3)) :
    Invariant (s.setThread t v) := by
  have frame := sectionsFrom_setThread at_t same
  refine ⟨inv.contract, fun w' member sec held => ?_, fun w' member sec e held pin => ?_,
    fun b p member => ?_, fun w' member sec e count p is => ?_, fun r member => ?_, inv.encoded⟩
  · rcases mem_setThread member with member | rfl
    · exact inv.active w' member sec held
    · rcases same with none | same
      · rw [none] at held; cases held
      · exact inv.active w (List.getElem?_mem at_t) sec (same ▸ held)
  · rcases mem_setThread member with member | rfl
    · exact inv.pinned w' member sec e held pin
    · exact pinned sec e held pin
  · obtain ⟨pushed, list, epoch, before⟩ := inv.queued b p member
    exact ⟨pushed, list, epoch, before.of_sectionsFrom frame⟩
  · obtain ⟨pushed, late, before⟩ := (mem_setThread member).elim
      (fun member => inv.popped w' member sec e count p is) (fun same => popped sec e count p (same ▸ is))
    exact ⟨pushed, late, before.of_sectionsFrom frame⟩
  · obtain ⟨pushed, late, now, before⟩ := inv.released r member
    exact ⟨pushed, late, now, before.of_sectionsFrom frame⟩

theorem Invariant.enter (inv : Invariant s) {t : Nat} (cleaner : Bool)
    (fresh : s.reported < s.frontier) :
    Invariant { s.setThread t (.entered cleaner ⟨s.sections, s.frontier⟩) with
      sections := s.sections + 1 } := by
  have frame := sectionsFrom_enter (t := t) (s := s) cleaner
  refine ⟨inv.contract, fun w' member sec held => ?_, fun w' member sec e held pin => ?_,
    fun b p member => ?_, fun w' member sec e count p is => ?_, fun r member => ?_, inv.encoded⟩
  · rcases mem_setThread member with member | rfl
    · have := inv.active w' member sec held
      exact ⟨this.1, this.2.1, Nat.lt_succ_of_lt this.2.2⟩
    · cases held; exact ⟨fresh, le_refl _, Nat.lt_succ_self _⟩
  · rcases mem_setThread member with member | rfl
    · exact inv.pinned w' member sec e held pin
    · cases pin
  · obtain ⟨pushed, list, epoch, before⟩ := inv.queued b p member
    exact ⟨pushed, list, epoch, before.of_sectionsFrom frame⟩
  · rcases mem_setThread member with member | rfl
    · obtain ⟨pushed, late, before⟩ := inv.popped w' member sec e count p is
      exact ⟨pushed, late, before.of_sectionsFrom frame⟩
    · cases is
  · obtain ⟨pushed, late, now, before⟩ := inv.released r member
    exact ⟨pushed, late, now, before.of_sectionsFrom frame⟩

/-- `Free(op, ptr)` by a thread whose `EpochOp` pinned `e`: the block goes three epochs
ahead, and every section active now entered at most at the frontier, `≤ e + 3`. -/
theorem Invariant.push (inv : Invariant s) {t : Nat} {sec : Section} {e : Nat}
    (at_t : s.threads[t]? = some (.holding sec e)) (offset : Word) :
    Invariant { s with
      lists := Function.update s.lists (pushList e)
        (⟨blockIndex offset, offset, e, s.activeIds⟩ :: s.lists (pushList e))
      pushes := s.pushes ++ [⟨blockIndex offset, offset, e, s.activeIds⟩] } := by
  have holder := List.getElem?_mem at_t
  obtain ⟨behind, -, -⟩ := inv.active _ holder sec rfl
  obtain ⟨now, entered⟩ := inv.pinned _ holder sec e rfl rfl
  have before : s.Before s.activeIds (e + 3) := by
    intro i member
    obtain ⟨w, inW, sec', held, rfl⟩ : ∃ w ∈ s.threads, ∃ sec', w.section? = some sec' ∧ sec'.id = i := by
      simpa [State.activeIds, Option.map_eq_some'] using member
    refine ⟨(inv.active w inW sec' held).2.2, fun w'' inW'' sec'' held'' _ => ?_⟩
    have := (inv.active w'' inW'' sec'' held'').2.1
    have := inv.contract
    omega
  refine ⟨inv.contract, inv.active, inv.pinned, fun b p member => ?_,
    fun w' member sec e count p is => ?_, fun r member => ?_, fun p member => ?_⟩
  · simp only [Function.update_apply] at member
    split at member
    · rename_i same
      rcases List.mem_cons.mp member with rfl | member
      · exact ⟨List.mem_append_right _ (List.mem_singleton_self _), same, now, before⟩
      · obtain ⟨pushed, list, epoch, before⟩ := inv.queued b p (same ▸ member)
        exact ⟨List.mem_append_left _ pushed, list, epoch, before⟩
    · obtain ⟨pushed, list, epoch, before⟩ := inv.queued b p member
      exact ⟨List.mem_append_left _ pushed, list, epoch, before⟩
  · obtain ⟨pushed, late, before⟩ := inv.popped w' member sec e count p is
    exact ⟨List.mem_append_left _ pushed, late, before⟩
  · obtain ⟨pushed, late, now, before⟩ := inv.released r member
    exact ⟨List.mem_append_left _ pushed, late, now, before⟩
  · rcases List.mem_append.mp member with member | member
    · exact inv.encoded p member
    · rw [List.mem_singleton.mp member]

/-- Taking the head off a list keeps the rest's facts. -/
theorem Invariant.drop (inv : Invariant s) {b : Fin kListCnt} {p : Pushed} {rest : List Pushed}
    (head : s.lists b = p :: rest) : Invariant { s with lists := Function.update s.lists b rest } := by
  refine ⟨inv.contract, inv.active, inv.pinned, fun b' p' member => ?_, inv.popped, inv.released,
    inv.encoded⟩
  simp only [Function.update_apply] at member
  split at member
  · rename_i same
    subst same
    exact inv.queued b' p' (head ▸ List.mem_cons_of_mem p member)
  · exact inv.queued b' p' member

/-- A block popped from the list of the cleaner's pinned epoch `e` was pushed at an epoch
`≤ e - 3`: it went to list `(epoch + 3) % 5 = e % 5`, and `epoch ≤ R < entered ≤ e + 2`. -/
private theorem Invariant.popped_late (inv : Invariant s) {t : Nat} {sec : Section} {e count : Nat}
    (at_t : s.threads[t]? = some (.cleaning sec e count)) {p : Pushed} {rest : List Pushed}
    (head : s.lists (popList e) = p :: rest) :
    p ∈ s.pushes ∧ p.epoch + 3 ≤ e ∧ s.Before p.active (p.epoch + 3) := by
  have cleaner := List.getElem?_mem at_t
  obtain ⟨behind, -, -⟩ := inv.active _ cleaner sec rfl
  obtain ⟨-, entered⟩ := inv.pinned _ cleaner sec e rfl rfl
  obtain ⟨pushed, list, epoch, before⟩ := inv.queued _ p (head ▸ List.mem_cons_self p rest)
  have list : e % 5 = (p.epoch + 3) % 5 := congrArg Fin.val list
  exact ⟨pushed, by omega, before⟩

/-- `rmb_->Free` of a popped block: the log records it with the cleaner's pinned epoch. -/
theorem Invariant.release (inv : Invariant s) {t : Nat} {sec : Section} {e count : Nat} {p : Pushed}
    (at_t : s.threads[t]? = some (.freeing sec e count p)) :
    Invariant { s.setThread t (.cleaning sec e (count + 1)) with freed := s.freed ++ [⟨p, e⟩] } := by
  have cleaner := List.getElem?_mem at_t
  have pinned := inv.pinned _ cleaner sec e rfl rfl
  have inv' : Invariant (s.setThread t (.cleaning sec e (count + 1))) :=
    inv.setThread at_t (.inr rfl) (fun _ _ held pin => by cases held; cases pin; exact pinned)
    (fun _ _ _ _ is => by cases is)
  obtain ⟨pushed, late, before⟩ := inv.popped _ cleaner sec e count p rfl
  refine { inv' with released := fun r member => ?_ }
  rcases List.mem_append.mp member with member | member
  · exact inv'.released r member
  · rw [List.mem_singleton.mp member]
    exact ⟨pushed, late, pinned.1, before.of_sectionsFrom (sectionsFrom_setThread at_t (.inr rfl))⟩

theorem Invariant.advance (inv : Invariant s) {r f : Nat}
    (advances : Advances s.reported s.frontier s.threads r f) :
    Invariant { s with reported := r, frontier := f } := by
  obtain ⟨reported, frontier, below, ahead, exact, behind⟩ := advances
  refine ⟨⟨below, ahead, exact⟩, fun w member sec held => ?_, fun w member sec e held pin => ?_,
    fun b p member => ?_, inv.popped, fun r member => ?_, inv.encoded⟩ <;> dsimp only
  · have := inv.active w member sec held
    exact ⟨behind w member sec held, by omega, this.2.2⟩
  · have := inv.pinned w member sec e held pin
    exact ⟨by omega, this.2⟩
  · obtain ⟨pushed, list, epoch, before⟩ := inv.queued b p member
    exact ⟨pushed, list, by omega, before⟩
  · obtain ⟨pushed, late, now, before⟩ := inv.released r member
    exact ⟨pushed, late, by omega, before⟩

theorem invariant_init (n : Nat) : Invariant (init n) := by
  refine ⟨?_, ?_, ?_, ?_, ?_, ?_, ?_⟩ <;> simp [init, Worker.section?]

variable {heap : HeapSize} {kFreeCnt : Nat}

theorem step_invariant (inv : Invariant s) {a : Action} {s' : State}
    (stepped : step heap kFreeCnt s a = some s') : Invariant s' := by
  cases a with
  | enter t cleaner =>
    simp only [step] at stepped
    split at stepped
    · split at stepped
      · cases stepped; exact inv.enter cleaner ‹_›
      · cases stepped
    · cases stepped
  | pin t =>
    simp only [step] at stepped
    split at stepped
    · rename_i cleaner sec at_t
      cases stepped
      have := inv.active _ (List.getElem?_mem at_t) sec rfl
      have := inv.contract
      cases cleaner <;>
        exact inv.setThread at_t (.inr rfl) (fun _ _ held pin => by cases held; cases pin; omega)
          (fun _ _ _ _ is => by cases is)
    · cases stepped
  | free t offset =>
    simp only [step] at stepped
    split at stepped
    · rename_i sec e at_t
      split at stepped
      · cases stepped; exact inv.push at_t _
      · cases stepped; exact inv
    · cases stepped
  | pop t =>
    simp only [step] at stepped
    split at stepped
    · rename_i sec e count at_t
      have done {s₀ : State} (inv₀ : Invariant s₀)
          (at_t : s₀.threads[t]? = some (.cleaning sec e count)) :
          Invariant (s₀.setThread t (.passDone sec)) :=
        inv₀.setThread at_t (.inr rfl) (fun _ _ _ pin => by cases pin) (fun _ _ _ _ is => by cases is)
      split at stepped
      · split at stepped
        · cases stepped; exact done inv at_t
        · rename_i block rest head
          have dropped := inv.drop head
          split at stepped <;> cases stepped
          · exact done dropped at_t
          · exact dropped.setThread at_t (.inr rfl)
              (fun _ _ held pin => by
                cases held; cases pin; exact inv.pinned _ (List.getElem?_mem at_t) sec e rfl rfl)
              (fun _ _ _ _ is => by cases is; exact inv.popped_late at_t head)
      · cases stepped; exact done inv at_t
    · cases stepped
  | release t =>
    simp only [step] at stepped
    split at stepped
    · cases stepped; exact inv.release ‹_›
    · cases stepped
  | exit t =>
    have idle {w : Worker Pushed} (at_t : s.threads[t]? = some w) : Invariant (s.setThread t .idle) :=
      inv.setThread at_t (.inl rfl) (fun _ _ held => by cases held) (fun _ _ _ _ is => by cases is)
    simp only [step] at stepped
    split at stepped <;> cases stepped
    · exact idle ‹_›
    · exact idle ‹_›
  | advance r f =>
    simp only [step] at stepped
    split at stepped
    · cases stepped; exact inv.advance ‹_›
    · cases stepped

theorem run_invariant {acts : List Action} {s' : State} (inv : Invariant s)
    (ran : run heap kFreeCnt s acts = some s') : Invariant s' := by
  induction acts generalizing s with
  | nil => cases ran; exact inv
  | cons a as ih =>
    obtain ⟨s₁, stepped, ran⟩ := Option.bind_eq_some.mp ran
    exact ih (step_invariant inv stepped) ran

theorem reachable_invariant (reach : Reachable heap kFreeCnt s) : Invariant s :=
  let ⟨n, _, ran⟩ := reach
  run_invariant (invariant_init n) ran

end Preservation

/-! ## Safety of deferred frees -/

@[simp] theorem blockIndex_toNat (offset : Word) : (blockIndex offset).toNat = offset.toNat / 64 := by
  simp [blockIndex, minObjSize, BitVec.toNat_udiv]

/-- Decoding an encoded offset rounds it down to its cache line. -/
theorem blockOffset_blockIndex_toNat (offset : Word) :
    (blockOffset (blockIndex offset)).toNat = offset.toNat / 64 * 64 := by
  have bound := offset.isLt
  rw [blockOffset, minObjSize, BitVec.toNat_mul, blockIndex_toNat, kCacheLineSize_toNat,
    Nat.mod_eq_of_lt (by omega)]

/-- **The `e + 3` rule is safe.** In every reachable state, each offset a cleaner pass handed
to `rmb_->Free` is the offset `p` of some `Free(op, p)`, rounded down to its cache line, and
that `Free`'s `EpochOp` pinned an epoch at least three below the one the cleaner's pinned;
no critical section that was active when that `Free` ran is active now. -/
theorem freed_after_readers {heap : HeapSize} {kFreeCnt : Nat} {s : State}
    (reach : Reachable heap kFreeCnt s) :
    ∀ r ∈ s.freed, r.block ∈ s.pushes ∧
      (blockOffset r.block.index).toNat = r.block.offset.toNat / 64 * 64 ∧
      r.block.epoch + 3 ≤ r.epoch ∧ ∀ i ∈ r.block.active, ¬ s.Active i := by
  have inv := reachable_invariant reach
  intro r member
  obtain ⟨pushed, late, now, before⟩ := inv.released r member
  refine ⟨pushed, by rw [inv.encoded _ pushed, blockOffset_blockIndex_toNat], late,
    fun i mine ⟨w, inW, sec, held, same⟩ => ?_⟩
  have entered := (before i mine).2 w inW sec held same
  have behind := (inv.active w inW sec held).1
  omega

/-- One thread frees the block at offset `192` in a section entered at epoch `1` with `0`
pinned; once the epochs reach `R = 3`, a cleaner pass pins `3`, pops the block from list
`3 % 5` and frees it. -/
def deferred : List Action :=
  [.advance 0 1, .enter 0 false, .pin 0, .free 0 192, .exit 0, .advance 3 4, .enter 1 true,
    .pin 1, .pop 1, .release 1]

theorem freed_after_readers_of_deferred :
    ((run Concurrent.oneMiB 8 (init 2) deferred).getD (init 2)).freed.length = 1 ∧
    ∀ r ∈ ((run Concurrent.oneMiB 8 (init 2) deferred).getD (init 2)).freed,
      r.block ∈ ((run Concurrent.oneMiB 8 (init 2) deferred).getD (init 2)).pushes ∧
      (blockOffset r.block.index).toNat = r.block.offset.toNat / 64 * 64 ∧
      r.block.epoch + 3 ≤ r.epoch ∧
      ∀ i ∈ r.block.active, ¬ ((run Concurrent.oneMiB 8 (init 2) deferred).getD (init 2)).Active i :=
  ⟨by decide, freed_after_readers (⟨2, deferred, rfl⟩ : Reachable Concurrent.oneMiB 8 _)⟩

/-! ## The index encoding -/

private theorem blockOffset_blockIndex {offset : Word} (aligned : 64 ∣ offset.toNat) :
    blockOffset (blockIndex offset) = offset := by
  rw [BitVec.toNat_eq, blockOffset_blockIndex_toNat, Nat.div_mul_cancel aligned]

/-- **Index encoding of the delayed-free stacks.** For every offset a reachable run of
`NvHeapLayout::Alloc` returned non-null, `offset/min_obj_size_` is not the empty stack's
`0`, the cleaner's `index * min_obj_size_` gives the offset back, and the index fits the
stack head's 32-bit field when the heap ends below `2^32` cache lines. -/
theorem returned_index_roundtrip {heap : HeapSize} {s : Concurrent.State}
    (reach : Concurrent.Reachable heap s) {c tr : Nat} {o : Word}
    (answered : .respond c o tr ∈ s.history) (nonnull : o ≠ 0) :
    blockIndex o ≠ 0 ∧ blockOffset (blockIndex o) = o ∧ 64 ∣ o.toNat ∧
      (kMetadataSize.toNat + heap.val.toNat < 2 ^ 32 * kCacheLineSize.toNat →
        (blockIndex o).toNat < 2 ^ 32) := by
  obtain zero | ⟨⟨low, high⟩, aligned⟩ := (Concurrent.reachable_invariant reach).returned answered
  · exact absurd zero nonnull
  simp only [kMetadataSize_toNat, kCacheLineSize_toNat] at low high ⊢
  refine ⟨fun zero => ?_, blockOffset_blockIndex aligned, aligned, fun small => ?_⟩
  · have := (word_eq_zero_iff _).mp zero
    rw [blockIndex_toNat] at this
    omega
  · rw [blockIndex_toNat]
    omega

end Gull.EpochZoneHeap.Reclaim
