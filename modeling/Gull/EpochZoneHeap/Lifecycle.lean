import Mathlib.Tactic.SplitIfs

/-! Error paths of `EpochZoneHeap::Open`, `Close`, `Create` and `Destroy`
(`allocator/epoch_zone_heap.cc`).

The collaborators (`Pool`, `ShelfRegion`, `ShelfHeap`) are not among the sources. Each of
their calls is modelled by its outcome, an input that may be success or failure
independently of the others, and a failed call is taken to change nothing. `StartWorker` and
`StopWorker` always return `0`.

`Open` and `Close` change the process-local fields of the heap object (`Heap`); the
threads they start and join are modelled in `Cleaner`. `Create` and `Destroy` change what
the pool stores (`Pool`). A `none` result is an `assert` that fails, or a call through a
`NULL` pointer.
-/
namespace Gull.EpochZoneHeap.Lifecycle

/-- Modelled from the spec: the codes these functions return, from `nvmm/error_code.h`. -/
inductive ErrorCode where
  | noError
  | poolFound
  | poolNotFound
  | heapCreateFailed
  | heapDestroyFailed
  | heapOpenFailed
  | heapCloseFailed
  deriving DecidableEq

/-! ## Process-local state: `Open` and `Close` -/

/-- The header region `region_` points to. -/
inductive Region where
  /-- `region_` is `NULL`. -/
  | none
  /-- `new ShelfRegion(path)`, not open. -/
  | created
  | opened
  | mapped
  deriving DecidableEq

/-- The zone heap `rmb_` points to. -/
inductive Rmb where
  /-- `rmb_` is `NULL`. -/
  | none
  /-- `new ShelfHeap(path, ...)`, not open. -/
  | created
  | opened
  deriving DecidableEq

/-- The process-local fields of an `EpochZoneHeap` that `Open` and `Close` change. -/
structure Heap where
  /-- `pool_` is open. -/
  poolOpen : Bool
  region : Region
  /-- `global_list_` points into the mapped region. -/
  globalList : Bool
  /-- `header_` points into the mapped region. -/
  header : Bool
  rmb : Rmb
  isOpen : Bool
  /-- A cleaner thread runs. -/
  cleaner : Bool
  deriving DecidableEq

/-- The constructor `EpochZoneHeap(pool_id)`. -/
def Heap.init : Heap := ⟨false, .none, false, false, .none, false, false⟩

/-- The outcome of each collaborator call of one `Open`, in the order it makes them. -/
structure OpenCalls where
  poolOpen : Bool
  headerPath : Bool
  regionOpen : Bool
  regionMap : Bool
  zonePath : Bool
  rmbOpen : Bool
  deriving DecidableEq

/-- The outcome of each collaborator call of one `Close`, in the order it makes them. -/
structure CloseCalls where
  rmbClose : Bool
  regionUnmap : Bool
  regionClose : Bool
  poolClose : Bool
  deriving DecidableEq

/-- A collaborator call of `Open` or `Close`: whether the pointer it goes through is set,
whether it succeeds, and what the heap becomes once it has. -/
structure Step where
  defined : Heap → Bool
  ok : Bool
  next : Heap → Heap

/-- The calls one after another: the first that fails makes the operation return `failure`
with what the calls before it left; a call through `NULL` is undefined. -/
def Heap.steps (failure : ErrorCode) : Heap → List Step → Option (ErrorCode × Heap)
  | h, [] => some (.noError, h)
  | h, s :: rest =>
    if !s.defined h then none
    else if s.ok then Heap.steps failure (s.next h) rest
    else some (failure, h)

/-- `EpochZoneHeap::Open()`. -/
def Heap.open (h : Heap) (calls : OpenCalls) : Option (ErrorCode × Heap) :=
  if h.isOpen then none else
  Heap.steps .heapOpenFailed h
    [ ⟨fun _ => true, calls.poolOpen, fun h => { h with poolOpen := true }⟩,
      -- `pool_.GetShelfPath(kHeaderIdx, path)`, then `region_ = new ShelfRegion(path)`
      ⟨fun _ => true, calls.headerPath, fun h => { h with region := .created }⟩,
      ⟨fun _ => true, calls.regionOpen, fun h => { h with region := .opened }⟩,
      -- `region_->Map(...)`, then `global_list_ = (ZoneEntryStack*)mapped_addr_`
      ⟨fun _ => true, calls.regionMap, fun h => { h with region := .mapped, globalList := true }⟩,
      -- `pool_.GetShelfPath(kZoneIdx, path)`, then `header_` and `rmb_ = new ShelfHeap(...)`
      ⟨fun _ => true, calls.zonePath, fun h => { h with header := true, rmb := .created }⟩,
      -- `rmb_->Open(...)`, then `is_open_ = true`, `StartWorker()` and the wait for
      -- `cleaner_running_`
      ⟨fun _ => true, calls.rmbOpen, fun h => { h with rmb := .opened, isOpen := true, cleaner := true }⟩ ]

/-- `EpochZoneHeap::Close()`: `StopWorker()`, which returns `0`, comes first. -/
def Heap.close (h : Heap) (calls : CloseCalls) : Option (ErrorCode × Heap) :=
  if !h.isOpen then none else
  Heap.steps .heapCloseFailed { h with cleaner := false }
    [ -- `rmb_->Close()`, then `delete rmb_; rmb_ = NULL`
      ⟨fun h => h.rmb != .none, calls.rmbClose, fun h => { h with rmb := .none }⟩,
      -- `region_->Unmap(...)`, then `mapped_addr_ = header_ = global_list_ = NULL`
      ⟨fun h => h.region != .none, calls.regionUnmap,
        fun h => { h with region := .opened, globalList := false, header := false }⟩,
      -- `region_->Close()`, then `delete region_; region_ = NULL`
      ⟨fun h => h.region != .none, calls.regionClose, fun h => { h with region := .none }⟩,
      -- `pool_.Close(false)`, then `is_open_ = false`
      ⟨fun _ => true, calls.poolClose, fun h => { h with poolOpen := false, isOpen := false }⟩ ]

private theorem Heap.steps_cons_ok {failure : ErrorCode} {h : Heap} {s : Step} (rest : List Step)
    (defined : s.defined h = true) (ok : s.ok = true) :
    Heap.steps failure h (s :: rest) = Heap.steps failure (s.next h) rest := by
  simp [steps, defined, ok]

private theorem Heap.steps_cons_failed {failure : ErrorCode} {h : Heap} {s : Step} (rest : List Step)
    (defined : s.defined h = true) (failed : s.ok = false) :
    Heap.steps failure h (s :: rest) = some (failure, h) := by
  simp [steps, defined, failed]

/-- A fact every call's effect keeps holds of whatever the calls return. -/
private theorem Heap.steps_keeps {P : Heap → Prop} {failure code : ErrorCode} {h h' : Heap}
    {ss : List Step} (ran : Heap.steps failure h ss = some (code, h')) (holds : P h)
    (keeps : ∀ s ∈ ss, ∀ h, P h → P (s.next h)) : P h' := by
  induction ss generalizing h with
  | nil => cases ran; exact holds
  | cons s rest ih =>
    simp only [steps] at ran
    split_ifs at ran
    · exact ih ran (keeps s (List.mem_cons_self _ _) h holds)
        (fun s' mem => keeps s' (List.mem_cons_of_mem _ mem))
    · cases ran; exact holds

/-- A failure returns before the last call's effect: a fact the other calls keep holds of it. -/
private theorem Heap.steps_failed_keeps {P : Heap → Prop} {failure : ErrorCode} {h h' : Heap}
    {ss : List Step} (failed : Heap.steps failure h ss = some (failure, h'))
    (failing : failure ≠ .noError) (holds : P h)
    (keeps : ∀ s ∈ ss.dropLast, ∀ h, P h → P (s.next h)) : P h' := by
  induction ss generalizing h with
  | nil => cases failed; exact absurd rfl failing
  | cons s rest ih =>
    simp only [steps] at failed
    split_ifs at failed
    · cases rest with
      | nil => cases failed; exact absurd rfl failing
      | cons s' rest' =>
        exact ih failed (keeps s (List.mem_cons_self _ _) h holds)
          (fun s'' mem => keeps s'' (List.mem_cons_of_mem _ mem))
    · cases failed; exact holds

/-- What the heap's error handling is meant to keep: `is_open_` exactly when every resource is
held and the cleaner runs, and none of them held otherwise. -/
def Heap.Consistent (h : Heap) : Prop :=
  (h.isOpen = true → h.poolOpen = true ∧ h.region = .mapped ∧ h.globalList = true ∧
    h.header = true ∧ h.rmb = .opened ∧ h.cleaner = true) ∧
  (h.isOpen = false → h.poolOpen = false ∧ h.region ≠ .opened ∧ h.region ≠ .mapped ∧
    h.rmb = .none ∧ h.cleaner = false)

instance (h : Heap) : Decidable h.Consistent := inferInstanceAs (Decidable (_ ∧ _))

/-- One call of the heap's owner. -/
inductive Call where
  | «open» (calls : OpenCalls)
  | close (calls : CloseCalls)

def Heap.call (h : Heap) : Call → Option (ErrorCode × Heap)
  | .open calls => h.open calls
  | .close calls => h.close calls

/-- The owner's calls one after another; `none` once one of them fails an `assert` or calls
through `NULL`. -/
def Heap.run (h : Heap) : List Call → Option Heap
  | [] => some h
  | c :: cs => (h.call c).bind fun result => result.2.run cs

/-- Every collaborator call succeeds. -/
def Call.Succeeds : Call → Prop
  | .open calls => calls = ⟨true, true, true, true, true, true⟩
  | .close calls => calls = ⟨true, true, true, true⟩

instance : DecidablePred Call.Succeeds
  | .open calls => inferInstanceAs (Decidable (calls = _))
  | .close calls => inferInstanceAs (Decidable (calls = _))

/-! ### Without failures -/

/-- An `Open` whose collaborators all succeed turns a consistent closed heap into a consistent
open one, and a `Close` whose collaborators all succeed does the reverse. -/
theorem Heap.call_consistent {h h' : Heap} {c : Call} {code : ErrorCode} (consistent : h.Consistent)
    (succeeds : c.Succeeds) (called : h.call c = some (code, h')) : h'.Consistent := by
  obtain ⟨opened, closed⟩ := consistent
  cases c with
  | «open» calls =>
    cases succeeds
    cases open? : h.isOpen <;> simp [call, Heap.open, open?, steps] at called
    obtain ⟨-, rfl⟩ := called
    simp [Consistent]
  | close calls =>
    cases succeeds
    cases open? : h.isOpen
    · simp [call, close, open?] at called
    · obtain ⟨-, region, -, -, rmb, -⟩ := opened open?
      simp [call, close, steps, rmb, region] at called
      obtain ⟨-, -, rfl⟩ := called
      simp [Consistent]

theorem Heap.run_consistent {calls : List Call} {h₀ h : Heap}
    (succeeding : ∀ c ∈ calls, c.Succeeds) (consistent : h₀.Consistent)
    (ran : h₀.run calls = some h) : h.Consistent := by
  induction calls generalizing h₀ with
  | nil => cases ran; exact consistent
  | cons c cs ih =>
    obtain ⟨⟨code, h₁⟩, called, rest⟩ := Option.bind_eq_some.mp ran
    exact ih (fun c' mem => succeeding c' (List.mem_cons_of_mem _ mem))
      (h₀.call_consistent consistent (succeeding c (List.mem_cons_self _ _)) called) rest

/-- **Open and close without failures.** Every heap reached from the constructor by calls
whose collaborators all succeed is consistent. -/
theorem run_consistent_of_succeeding {calls : List Call} {h : Heap}
    (succeeding : ∀ c ∈ calls, c.Succeeds) (ran : Heap.init.run calls = some h) : h.Consistent :=
  Heap.run_consistent succeeding (by decide) ran

/-! ### Failures -/

/-- A failed `Open` of a consistent closed heap leaves it as it was exactly when `pool_.Open`
was the call that failed: every later failure returns with the pool open. -/
theorem open_failure_unchanged_iff {h h' : Heap} {calls : OpenCalls} (consistent : h.Consistent)
    (failed : h.open calls = some (.heapOpenFailed, h')) : h' = h ↔ calls.poolOpen = false := by
  cases open? : h.isOpen
  · have closedPool := (consistent.2 open?).1
    simp only [Heap.open, open?, Bool.false_eq_true, if_false] at failed
    cases pool : calls.poolOpen
    · rw [Heap.steps_cons_failed _ rfl pool] at failed
      exact ⟨fun _ => rfl, fun _ => (Prod.mk.inj (Option.some.inj failed)).2.symm⟩
    · rw [Heap.steps_cons_ok _ rfl pool] at failed
      have opened : h'.poolOpen = true :=
        Heap.steps_keeps (P := fun h => h.poolOpen = true) failed rfl (by simp)
      exact ⟨fun same => (by rw [same, closedPool] at opened; cases opened), fun no => by cases no⟩
  · simp [Heap.open, open?] at failed

/-- A failed `Close` has already stopped the cleaner and leaves `is_open_` set: the heap is
no longer consistent. -/
theorem close_failure_stops_cleaner {h h' : Heap} {calls : CloseCalls}
    (failed : h.close calls = some (.heapCloseFailed, h')) :
    h'.isOpen = true ∧ h'.cleaner = false ∧ ¬ h'.Consistent := by
  cases open? : h.isOpen
  · simp [Heap.close, open?] at failed
  simp only [Heap.close, open?, Bool.not_true, Bool.false_eq_true, if_false] at failed
  have stopped : h'.isOpen = true ∧ h'.cleaner = false :=
    Heap.steps_failed_keeps (P := fun h => h.isOpen = true ∧ h.cleaner = false) failed (by decide)
      ⟨rfl, rfl⟩ fun s mem h held => by
        simp only [List.dropLast, List.mem_cons, List.not_mem_nil, or_false] at mem
        rcases mem with rfl | rfl | rfl <;> exact held
  exact ⟨stopped.1, stopped.2, fun consistent => by
    simpa [stopped.2] using (consistent.1 stopped.1).2.2.2.2.2⟩

/-- Once a failed `Close` has deleted `rmb_`, a retried `Close` calls `rmb_->Close()` through
`NULL`. -/
theorem close_retry_after_failure_undefined {h h' : Heap} {calls : CloseCalls}
    (failed : h.close calls = some (.heapCloseFailed, h')) (released : calls.rmbClose = true)
    (retry : CloseCalls) : h'.close retry = none := by
  cases open? : h.isOpen
  · simp [Heap.close, open?] at failed
  simp only [Heap.close, open?, Bool.not_true, Bool.false_eq_true, if_false] at failed
  cases rmb : h.rmb
  · simp [Heap.steps, rmb] at failed
  all_goals
    rw [Heap.steps_cons_ok _ (by simp [rmb]) released] at failed
    have deleted : h'.isOpen = true ∧ h'.rmb = .none :=
      Heap.steps_failed_keeps (P := fun h => h.isOpen = true ∧ h.rmb = .none) failed (by decide)
        ⟨rfl, rfl⟩ fun s mem h held => by
          simp only [List.dropLast, List.mem_cons, List.not_mem_nil, or_false] at mem
          rcases mem with rfl | rfl <;> exact held
    simp [Heap.close, deleted, Heap.steps]

/-- A heap just opened, all collaborators succeeding. -/
def opened : Heap := ⟨true, .mapped, true, true, .opened, true, true⟩

/-- A failed `Open` can return with `pool_` open, and a failed `Close` with `is_open_` set and
the cleaner stopped. -/
theorem open_and_close_failures_change_heap :
    Heap.init.open ⟨true, false, true, true, true, true⟩ =
        some (.heapOpenFailed, { Heap.init with poolOpen := true }) ∧
      ¬ ({ Heap.init with poolOpen := true } : Heap).Consistent ∧
    opened.close ⟨false, true, true, true⟩ = some (.heapCloseFailed, { opened with cleaner := false }) ∧
      ¬ ({ opened with cleaner := false } : Heap).Consistent := by
  decide

/-! ## What the pool stores: `Create` and `Destroy` -/

/-- A shelf of the pool. -/
inductive Shelf where
  | absent
  /-- Added to the pool, its contents not formatted. -/
  | blank
  /-- The header shelf with zeroed stack heads, or a zone shelf `Verify` accepts. -/
  | formatted
  deriving DecidableEq

/-- What the pool stores: whether it exists (`pool_.Exist()`), and its header shelf
(`kHeaderIdx`) and zone shelf (`kZoneIdx`). -/
structure Pool where
  present : Bool
  header : Shelf
  zone : Shelf
  deriving DecidableEq

def noPool : Pool := ⟨false, .absent, .absent⟩

/-- The outcome of each collaborator call of one `Create`, in the order it makes them. The
calls after a failed `AddShelf` of the zone shelf change nothing stored. -/
structure CreateCalls where
  poolCreate : Bool
  poolOpen : Bool
  addHeader : Bool
  headerPath : Bool
  regionOpen : Bool
  regionMap : Bool
  addZone : Bool
  regionUnmap : Bool
  regionClose : Bool
  poolClose : Bool
  deriving DecidableEq

/-- The outcome of each collaborator call of one `Destroy`, in the order it makes them; the
two `GetShelfPath` calls are asserted to succeed, and `Recover`'s result is only logged. -/
structure DestroyCalls where
  poolOpen : Bool
  zoneDestroy : Bool
  removeZone : Bool
  headerDestroy : Bool
  removeHeader : Bool
  poolClose : Bool
  poolDestroy : Bool
  deriving DecidableEq

/-- `EpochZoneHeap::Create(shelf_size)`. -/
def create (p : Pool) (calls : CreateCalls) : ErrorCode × Pool :=
  if p.present then (.poolFound, p) else
  if !calls.poolCreate then (.heapCreateFailed, p) else
  let p : Pool := ⟨true, .absent, .absent⟩
  if !calls.poolOpen then (.heapCreateFailed, p) else
  if !calls.addHeader then (.heapCreateFailed, p) else
  let p := { p with header := .blank }
  if !calls.headerPath then (.heapCreateFailed, p) else
  if !calls.regionOpen then (.heapCreateFailed, p) else
  if !calls.regionMap then (.heapCreateFailed, p) else
  -- `pmem_memset_persist` of the `kListCnt` stack heads
  let p := { p with header := .formatted }
  if !calls.addZone then (.heapCreateFailed, p) else
  let p := { p with zone := .formatted }
  if !calls.regionUnmap then (.heapCreateFailed, p) else
  if !calls.regionClose then (.heapCreateFailed, p) else
  if !calls.poolClose then (.heapCreateFailed, p) else
  (.noError, p)

/-- `EpochZoneHeap::Destroy()`: the zone heap and the header region are destroyed before their
shelves are removed, and the results of their `Destroy` are ignored. -/
def destroy (p : Pool) (calls : DestroyCalls) : ErrorCode × Pool :=
  if !p.present then (.poolNotFound, p) else
  if !calls.poolOpen then (.heapDestroyFailed, p) else
  let p := if calls.zoneDestroy then { p with zone := .blank } else p
  if !calls.removeZone then (.heapDestroyFailed, p) else
  let p := { p with zone := .absent }
  let p := if calls.headerDestroy then { p with header := .blank } else p
  if !calls.removeHeader then (.heapDestroyFailed, p) else
  let p := { p with header := .absent }
  if !calls.poolClose then (.heapDestroyFailed, p) else
  if !calls.poolDestroy then (.heapDestroyFailed, p) else
  (.noError, noPool)

/-- No pool, or a pool that can be opened: a formatted header shelf and a verified zone
shelf. -/
def Pool.Good (p : Pool) : Prop := p.present = false ∨ (p.header = .formatted ∧ p.zone = .formatted)

instance (p : Pool) : Decidable p.Good := inferInstanceAs (Decidable (_ ∨ _))

/-- **Which failed `Create`s leave a good pool.** From no pool, `Create` leaves no pool or an
openable one exactly when `pool_.Create` fails, or every call up to the zone shelf's `AddShelf`
succeeds; a failure in between leaves a pool that is neither. -/
theorem create_good_iff {p : Pool} (absent : p.present = false) (calls : CreateCalls) :
    (create p calls).2.Good ↔ calls.poolCreate = false ∨
      (calls.poolOpen = true ∧ calls.addHeader = true ∧ calls.headerPath = true ∧
        calls.regionOpen = true ∧ calls.regionMap = true ∧ calls.addZone = true) := by
  obtain ⟨poolCreate, poolOpen, addHeader, headerPath, regionOpen, regionMap, addZone, -, -, -⟩ :=
    calls
  cases poolCreate
  · -- `pool_.Create` fails: still no pool
    simp [create, absent, Pool.Good]
  -- from here the pool exists, and it is good once both shelves are formatted
  cases poolOpen
  · -- `pool_.Open` fails: an empty pool
    simp [create, absent, Pool.Good]
  cases addHeader
  · -- `AddShelf(kHeaderIdx)` fails
    simp [create, absent, Pool.Good]
  cases headerPath
  · -- `GetShelfPath(kHeaderIdx)` fails: the header shelf stays blank
    simp [create, absent, Pool.Good]
  cases regionOpen
  · -- `region.Open` fails
    simp [create, absent, Pool.Good]
  cases regionMap
  · -- `region.Map` fails: the stack heads are never zeroed
    simp [create, absent, Pool.Good]
  cases addZone
  · -- `AddShelf(kZoneIdx)` fails: no zone shelf
    simp [create, absent, Pool.Good]
  -- both shelves are formatted, and the failures of the calls left change nothing stored
  simp only [create, absent, Bool.false_eq_true, if_false, Bool.not_true]
  split_ifs <;> simp [Pool.Good]

/-- **Which failed `Destroy`s leave a good pool.** From an openable pool, `Destroy` leaves a
good pool exactly when `pool_.Open` fails, when the zone shelf's `RemoveShelf` fails without
the zone heap's `Destroy` having taken effect, or when every removal and the pool's `Close`
and `Destroy` succeed. -/
theorem destroy_good_iff {p : Pool} (openable : p.present = true ∧ p.header = .formatted ∧
    p.zone = .formatted) (calls : DestroyCalls) :
    (destroy p calls).2.Good ↔ calls.poolOpen = false ∨
      (calls.zoneDestroy = false ∧ calls.removeZone = false) ∨
      (calls.removeZone = true ∧ calls.removeHeader = true ∧ calls.poolClose = true ∧
        calls.poolDestroy = true) := by
  obtain ⟨present, header, zone⟩ := p
  obtain ⟨rfl, rfl, rfl⟩ := openable
  obtain ⟨poolOpen, zoneDestroy, removeZone, headerDestroy, removeHeader, poolClose, poolDestroy⟩ :=
    calls
  cases poolOpen
  · -- `pool_.Open` fails: nothing stored changes
    simp [destroy, Pool.Good]
  cases removeZone
  · -- `RemoveShelf(kZoneIdx)` fails: the zone shelf stays, blank once `rmb_->Destroy` ran
    cases zoneDestroy <;> simp [destroy, Pool.Good]
  -- from here the zone shelf is gone, and only a destroyed pool is good
  cases removeHeader
  · -- `RemoveShelf(kHeaderIdx)` fails
    simp only [destroy, Bool.not_true, Bool.not_false, Bool.false_eq_true, if_true, if_false]
    split_ifs <;> simp [Pool.Good]
  cases poolClose
  · -- `pool_.Close` fails
    simp only [destroy, Bool.not_true, Bool.not_false, Bool.false_eq_true, if_true, if_false]
    split_ifs <;> simp [Pool.Good]
  cases poolDestroy
  · -- `pool_.Destroy` fails
    simp only [destroy, Bool.not_true, Bool.not_false, Bool.false_eq_true, if_true, if_false]
    split_ifs <;> simp [Pool.Good]
  · simp [destroy, Pool.Good, noPool]

/-- A pool as a successful `Create` leaves it. -/
def formattedPool : Pool := ⟨true, .formatted, .formatted⟩

/-- `Create` returns `HEAP_CREATE_FAILED` with an empty pool left behind when `pool_.Open`
fails, and `Destroy` returns `HEAP_DESTROY_FAILED` with the zone heap destroyed but its shelf
still in the pool when `RemoveShelf(kZoneIdx)` fails. -/
theorem failed_create_and_destroy_leave_bad_pool :
    create noPool ⟨true, false, true, true, true, true, true, true, true, true⟩ =
        (.heapCreateFailed, ⟨true, .absent, .absent⟩) ∧
      ¬ Pool.Good ⟨true, .absent, .absent⟩ ∧
    destroy formattedPool ⟨true, true, false, true, true, true, true⟩ =
        (.heapDestroyFailed, ⟨true, .formatted, .blank⟩) ∧
      ¬ Pool.Good ⟨true, .formatted, .blank⟩ := by
  decide

end Gull.EpochZoneHeap.Lifecycle
