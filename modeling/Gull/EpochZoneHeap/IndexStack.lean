import Gull.EpochZoneHeap.Reclaim

/-! The delayed-free stacks of `allocator/epoch_zone_heap.cc` as the spec describes them (§3,
§4.5, and the header-shelf format of §6). `ZoneEntryStack` is not among the sources, so this
module is modelled from the spec. Each of the five stacks is a head word whose index field
holds 32 bits, `0` meaning empty. A block on a stack keeps the index of the block below it in
its first word. `push(header_, index)` encodes the index in 32 bits, writes the old head into
the first word of the block that index names, and makes that block the head.
`pop(header_)` returns the head's index, `0` on an empty stack, and makes the index in that
block's first word the new head.

Push and pop are atomic steps here. The head's 32-bit ABA tag, which the spec adds so that
the compare-and-swap loops behave as such steps, is left out.

Everything else is the model of `Reclaim`: the epochs, the threads and their `EpochOp`s, and
every other step. The one other difference is that a pass holds the offset it decoded, not a
record, between its pop and its `rmb_->Free`. Nothing here stops an index from overflowing
the head's 32 bits (`truncated_index_frees_live_block`), or a caller from freeing a block
twice. -/
namespace Gull.EpochZoneHeap.Reclaim

/-- The worker with what its pass holds between pop and `rmb_->Free` replaced by `f` of it. -/
def Worker.map {β γ : Type} (f : β → γ) : Worker β → Worker γ
  | .idle => .idle
  | .entered cleaner sec => .entered cleaner sec
  | .holding sec e => .holding sec e
  | .cleaning sec e count => .cleaning sec e count
  | .freeing sec e count block => .freeing sec e count (f block)
  | .passDone sec => .passDone sec

@[simp] theorem Worker.section?_map {β γ : Type} (f : β → γ) (w : Worker β) :
    (w.map f).section? = w.section? := by
  cases w <;> rfl

end Gull.EpochZoneHeap.Reclaim

namespace Gull.EpochZoneHeap.IndexStack

open Gull.ShelfHeap
open Gull.EpochZoneHeap.Reclaim (kListCnt blockIndex blockOffset pushList popList Section Worker
  Action Advances)

/-- The index field of a stack head. -/
abbrev Index := BitVec 32

/-- The first word of the block an index names, at `index * min_obj_size_`. -/
def slot (i : Index) : Word := blockOffset (i.setWidth 64)

/-- The five stacks: the index field of each head word, and the first word of every block. -/
structure Stacks where
  heads : Fin kListCnt → Index
  links : Word → Word

/-- `push(header_, index)`: the index is encoded in 32 bits; the block it names takes the old
head in its first word and becomes the head. -/
def Stacks.push (z : Stacks) (j : Fin kListCnt) (index : Word) : Stacks where
  heads := Function.update z.heads j (index.setWidth 32)
  links := Function.update z.links (slot (index.setWidth 32)) ((z.heads j).setWidth 64)

/-- `pop(header_)`: `0` on an empty stack; otherwise the head's index, and the index in that
block's first word becomes the head. -/
def Stacks.pop (z : Stacks) (j : Fin kListCnt) : Word × Stacks :=
  if z.heads j = 0 then (0, z)
  else ((z.heads j).setWidth 64,
    { z with heads := Function.update z.heads j ((z.links (slot (z.heads j))).setWidth 32) })

structure State where
  /-- `reported_epoch()` of the epoch manager. -/
  reported : Nat
  /-- `frontier_epoch()` of the epoch manager. -/
  frontier : Nat
  /-- `global_list_` and the block memory its links live in. -/
  globalList : Stacks
  /-- A pass about to call `rmb_->Free` holds the offset it decoded. -/
  threads : List (Worker Word)
  /-- Ghost: critical sections entered so far. -/
  sections : Nat
  /-- Ghost: every offset `Free(op, ptr)` pushed, in order. -/
  deferred : List Word
  /-- Every offset handed to `rmb_->Free`, in order. -/
  freed : List Word

def State.setThread (s : State) (t : Nat) (w : Worker Word) : State :=
  { s with threads := s.threads.set t w }

/-- One atomic step, as `Reclaim.step` but on the stacks of the spec. -/
def step (heap : HeapSize) (kFreeCnt : Nat) (s : State) : Action → Option State
  | .enter t cleaner =>
    match s.threads[t]? with
    | some .idle =>
      if s.reported < s.frontier then
        some { s.setThread t (.entered cleaner ⟨s.sections, s.frontier⟩) with sections := s.sections + 1 }
      else none
    | _ => none
  | .pin t =>
    match s.threads[t]? with
    | some (.entered cleaner sec) =>
      some (s.setThread t (if cleaner then .cleaning sec s.reported 0 else .holding sec s.reported))
    | _ => none
  | .free t offset =>
    match s.threads[t]? with
    | some (.holding _ e) =>
      if isValid heap offset then
        some { s with
          globalList := s.globalList.push (pushList e) (blockIndex offset)
          deferred := s.deferred ++ [offset] }
      else some s
    | _ => none
  | .pop t =>
    match s.threads[t]? with
    | some (.cleaning sec e count) =>
      if count < kFreeCnt then
        let s' := { s with globalList := (s.globalList.pop (popList e)).2 }
        if blockOffset (s.globalList.pop (popList e)).1 = 0 then some (s'.setThread t (.passDone sec))
        else some (s'.setThread t (.freeing sec e count (blockOffset (s.globalList.pop (popList e)).1)))
      else some (s.setThread t (.passDone sec))
    | _ => none
  | .release t =>
    match s.threads[t]? with
    | some (.freeing sec e count offset) =>
      some { s.setThread t (.cleaning sec e (count + 1)) with freed := s.freed ++ [offset] }
    | _ => none
  | .exit t =>
    match s.threads[t]? with
    | some (.holding _ _) | some (.passDone _) => some (s.setThread t .idle)
    | _ => none
  | .advance r f =>
    if Advances s.reported s.frontier s.threads r f then some { s with reported := r, frontier := f }
    else none

def run (heap : HeapSize) (kFreeCnt : Nat) (s : State) : List Action → Option State
  | [] => some s
  | a :: as => (step heap kFreeCnt s a).bind fun s' => run heap kFreeCnt s' as

/-- `threads` threads with no `EpochOp`, both epochs at `0`, the stack heads zeroed as
`EpochZoneHeap::Create` leaves them, and whatever the blocks hold. -/
def init (threads : Nat) (memory : Word → Word) : State where
  reported := 0
  frontier := 0
  globalList := ⟨fun _ => 0, memory⟩
  threads := List.replicate threads .idle
  sections := 0
  deferred := []
  freed := []

/-- A heap of `2^39` bytes, which `NvHeapLayout::Create` accepts. -/
def largeHeap : HeapSize := ⟨549755813888, by decide, by decide⟩

/-- One thread allocates `2^38` bytes and then one cache line, uncontended. -/
def largeThenLine : List Concurrent.Action :=
  [.alloc 0 274877906944, .getNextFree 0, .casNextFree 0, .ret 0,
    .alloc 0 64, .getNextFree 0, .casNextFree 0, .ret 0]

/-- Thread `0` frees the block at `2^38 + 192` at pinned epoch `0`; once the epochs reach
`R = 3`, a cleaner pass on thread `1` pops list `3 % 5` and frees what it decodes. -/
def freeLarge : List Action :=
  [.advance 0 1, .enter 0 false, .pin 0, .free 0 274877907136, .exit 0, .advance 3 4,
    .enter 1 true, .pin 1, .pop 1, .release 1]

/-- **A 32-bit stack head frees a live block.** On a heap of `2^39` bytes, uncontended
`Alloc` calls hand call `0` the offset `192` and call `1` the offset `2^38 + 192`. When call
`1`'s block is freed through `Free(op, ptr)`, its index `2^32 + 3` keeps only its low 32 bits,
`3`, in the stack head. The cleaner then hands `rmb_->Free` the offset `192`, the block of
call `0`, which nobody freed. -/
theorem truncated_index_frees_live_block :
    ∃ s, Concurrent.Reachable largeHeap s ∧ Concurrent.Event.respond 0 192 2 ∈ s.history ∧
      Concurrent.Event.respond 1 274877907136 5 ∈ s.history ∧
      (run largeHeap 8 (init 2 fun _ => 0) freeLarge).map State.deferred = some [274877907136] ∧
      (run largeHeap 8 (init 2 fun _ => 0) freeLarge).map State.freed = some [192] :=
  ⟨(Concurrent.run largeHeap Concurrent.init largeThenLine).getD Concurrent.init,
    ⟨largeThenLine, rfl⟩, by decide, by decide, by decide, by decide⟩

end Gull.EpochZoneHeap.IndexStack
