import Gull.ShelfHeap.Layout

/-! Crash consistency of `NvHeapLayout::Create` and `NvHeapLayout::Destroy`
(`shelf_usage/shelf_heap.h`).

Persistent memory is modelled location by location. A store becomes durable at a moment the
program does not know, independently of the other pending stores, and certainly once a
`pmem_persist` covering it has returned: a location holds the value last made durable and
the stores to it since, and a crash image picks, for every location, one of them. A crash
may come after any instruction, so the images of a crash inside `Create` or `Destroy` are
those of every prefix of their instruction lists.

`pmem_persist` flushes whole cache lines. Flushing exactly the given range, as here, leaves a
crash more images to pick from, so what holds of every image here holds of the code.

The header words are `__aligned__(kCacheLineSize)`, at offsets `0`, `64` and `128`. The
zero-length array `data` follows `next_free` at offset `136`, inside the struct's tail padding
(`sizeof(NvHeapLayout)` is `192`, `kMetadataSize`). So `memset(layout->data, 0, heap_size)`
clears `[136, 136 + heap_size)`, and the last `56` bytes of the data area
`[192, 192 + heap_size)` that `Alloc` hands out are never cleared.
-/
namespace Gull.ShelfHeap.Persistence

/-- A persistent location: the value last made durable and the stores to it since, oldest
first. -/
structure Cell (α : Type) where
  persisted : α
  pending : List α
  deriving DecidableEq

namespace Cell

variable {α : Type} (c : Cell α)

/-- What a load reads: the last store, or the durable value. -/
def value : α := c.pending.getLastD c.persisted

def store (v : α) : Cell α := { c with pending := c.pending ++ [v] }

/-- A `pmem_persist` covering the location has returned. -/
def flush : Cell α := ⟨c.value, []⟩

/-- The values a crash may leave in the location. -/
def MayHold (v : α) : Prop := v ∈ c.persisted :: c.pending

@[simp] theorem value_store (v : α) : (c.store v).value = v := List.getLastD_concat _ _ _

@[simp] theorem mayHold_settled (v w : α) : (⟨v, []⟩ : Cell α).MayHold w ↔ w = v := by
  simp [MayHold]

private theorem mayHold_value : c.MayHold c.value := List.getLastD_mem_cons _ _

@[simp] theorem flush_store (v : α) : (c.store v).flush = ⟨v, []⟩ := by simp [flush]

end Cell

/-- The words of the `NvHeapLayout` header. -/
inductive Field where
  | magicNum
  | heapSize
  | nextFree
  deriving DecidableEq

/-- Each field is `__aligned__(kCacheLineSize)`. -/
def Field.offset : Field → Nat
  | .magicNum => 0
  | .heapSize => 64
  | .nextFree => 128

/-- `offsetof(NvHeapLayout, data)`. -/
def dataOffset : Nat := 136

/-- The layout's persistent memory: the header words, and the bytes by their offset from
the layout's address. -/
structure Pmem where
  fields : Field → Cell Word
  bytes : Nat → Cell (BitVec 8)

/-- `pmem_persist(address + start, len)`. -/
def Pmem.flush (m : Pmem) (start len : Nat) : Pmem where
  fields f := if start ≤ f.offset ∧ f.offset < start + len then (m.fields f).flush else m.fields f
  bytes i := if start ≤ i ∧ i < start + len then (m.bytes i).flush else m.bytes i

/-- The instructions of `Create` and `Destroy` that touch persistent memory. -/
inductive Op where
  /-- `layout->field = v`. -/
  | store (field : Field) (v : Word)
  /-- One byte of a `memset`. -/
  | storeByte (offset : Nat) (v : BitVec 8)
  /-- `pmem_persist((void*)(&layout->heap_size), kCacheLineSize*2+layout->heap_size)`. -/
  | persistHeader
  /-- `pmem_persist((void*)(&layout->magic_num), kCacheLineSize)`. -/
  | persistMagic
  deriving DecidableEq

def Op.apply (m : Pmem) : Op → Pmem
  | .store f v => { m with fields := Function.update m.fields f ((m.fields f).store v) }
  | .storeByte i v => { m with bytes := Function.update m.bytes i ((m.bytes i).store v) }
  | .persistHeader =>
    m.flush Field.heapSize.offset (kCacheLineSize * 2 + (m.fields .heapSize).value).toNat
  | .persistMagic => m.flush Field.magicNum.offset kCacheLineSize.toNat

def exec (m : Pmem) (ops : List Op) : Pmem := ops.foldl Op.apply m

@[simp] theorem Pmem.flush_fields (m : Pmem) (start len : Nat) (f : Field) :
    (m.flush start len).fields f =
      if start ≤ f.offset ∧ f.offset < start + len then (m.fields f).flush else m.fields f := rfl
@[simp] theorem Pmem.flush_bytes (m : Pmem) (start len i : Nat) :
    (m.flush start len).bytes i =
      if start ≤ i ∧ i < start + len then (m.bytes i).flush else m.bytes i := rfl
@[simp] theorem exec_nil (m : Pmem) : exec m [] = m := rfl
@[simp] theorem exec_cons (m : Pmem) (op : Op) (ops : List Op) :
    exec m (op :: ops) = exec (op.apply m) ops := rfl

/-- `memset(layout->data, 0, len)`, byte after byte. -/
def memsetData (len : Nat) : List Op := (List.range len).map fun i => .storeByte (dataOffset + i) 0

/-- What `Create` and `Destroy` do before they store `magic_num`: store `next_free` and
`heap_size`, clear `zeroed` bytes from `data`, and persist them. -/
def writeHeader (nextFree heapSize : Word) (zeroed : Nat) : List Op :=
  [.store .nextFree nextFree, .store .heapSize heapSize] ++ memsetData zeroed ++ [.persistHeader]

/-- The instructions `Create` and `Destroy` share: `writeHeader`, then store `magic_num` and
persist it. -/
def writeLayout (nextFree heapSize : Word) (zeroed : Nat) (magicNum : Word) : List Op :=
  writeHeader nextFree heapSize zeroed ++ [.store .magicNum magicNum, .persistMagic]

/-- `NvHeapLayout::Create(address, heap_size)`. -/
def create (heapSize : Word) : List Op :=
  writeLayout kMetadataSize heapSize heapSize.toNat kMagicNum

/-- `NvHeapLayout::Destroy(address)`: the `memset` clears as many bytes as the `heap_size` it
read on entry. -/
def destroy (m : Pmem) : List Op :=
  writeLayout 0 0 (m.fields .heapSize).value.toNat 0

/-- What a restart after a crash finds: one value for every location. -/
structure Image where
  fields : Field → Word
  bytes : Nat → BitVec 8

def Pmem.Durable (m : Pmem) (d : Image) : Prop :=
  (∀ f, (m.fields f).MayHold (d.fields f)) ∧ ∀ i, (m.bytes i).MayHold (d.bytes i)

/-- `NvHeapLayout::Verify(address)` after a restart on `d`. -/
def verify (d : Image) : Bool := d.fields .magicNum == kMagicNum

/-- The image in which every pending store made it. -/
def Pmem.latest (m : Pmem) : Image := ⟨fun f => (m.fields f).value, fun i => (m.bytes i).value⟩

private theorem Pmem.durable_latest (m : Pmem) : m.Durable m.latest :=
  ⟨fun f => (m.fields f).mayHold_value, fun i => (m.bytes i).mayHold_value⟩

/-- A layout at rest: every location durable, no store pending. -/
def Pmem.atRest (fields : Field → Word) (bytes : Nat → BitVec 8) : Pmem :=
  ⟨fun f => ⟨fields f, []⟩, fun i => ⟨bytes i, []⟩⟩

/-! ## Frames -/

private theorem exec_append (m : Pmem) (a b : List Op) : exec m (a ++ b) = exec (exec m a) b :=
  List.foldl_append _ _ _ _

private theorem memsetData_succ (n : Nat) :
    memsetData (n + 1) = memsetData n ++ [.storeByte (dataOffset + n) 0] := by
  simp [memsetData, List.range_succ]

@[simp] theorem exec_memsetData_fields (m : Pmem) (n : Nat) :
    (exec m (memsetData n)).fields = m.fields := by
  induction n with
  | zero => rfl
  | succ n ih => rw [memsetData_succ, exec_append]; exact ih

private theorem exec_memsetData_bytes (m : Pmem) (n i : Nat) :
    (exec m (memsetData n)).bytes i =
      if dataOffset ≤ i ∧ i < dataOffset + n then (m.bytes i).store 0 else m.bytes i := by
  induction n with
  | zero => rw [if_neg (by omega)]; rfl
  | succ n ih =>
    rw [memsetData_succ, exec_append]
    show Function.update _ _ _ i = _
    by_cases last : i = dataOffset + n
    · subst last
      rw [Function.update_same, ih, if_neg (by omega), if_pos (by omega)]
    · rw [Function.update_noteq last, ih]
      split_ifs <;> first | rfl | omega

/-- Instructions that neither store to `magic_num` nor persist its line leave it alone: the
header's persist starts one line after it. -/
private theorem exec_magicNum {ops : List Op} (m : Pmem)
    (keeps : ∀ op ∈ ops, op ≠ .persistMagic ∧ ∀ v, op ≠ .store .magicNum v) :
    (exec m ops).fields .magicNum = m.fields .magicNum := by
  induction ops generalizing m with
  | nil => rfl
  | cons op ops ih =>
    rw [exec, List.foldl_cons, ← exec, ih _ fun op' mem => keeps op' (List.mem_cons_of_mem _ mem)]
    obtain ⟨notPersist, notStore⟩ := keeps op (List.mem_cons_self _ _)
    cases op with
    | store f v =>
      have : f ≠ .magicNum := by rintro rfl; exact notStore v rfl
      simp [Op.apply, Function.update_noteq this.symm]
    | storeByte => rfl
    | persistHeader => simp [Op.apply, Pmem.flush, Field.offset]
    | persistMagic => exact absurd rfl notPersist

/-- A location with nothing pending stays so under instructions that do not store to it. -/
private theorem exec_settled_field {ops : List Op} {f : Field} {v : Word} (m : Pmem)
    (keeps : ∀ op ∈ ops, ∀ w, op ≠ .store f w) (settled : m.fields f = ⟨v, []⟩) :
    (exec m ops).fields f = ⟨v, []⟩ := by
  induction ops generalizing m with
  | nil => exact settled
  | cons op ops ih =>
    refine ih _ (fun op' mem => keeps op' (List.mem_cons_of_mem _ mem)) ?_
    cases op with
    | store g w =>
      have : f ≠ g := by rintro rfl; exact keeps _ (List.mem_cons_self _ _) w rfl
      simp [Op.apply, Function.update_noteq this, settled]
    | storeByte => exact settled
    | persistHeader | persistMagic =>
      simp only [Op.apply, Pmem.flush, settled]; split_ifs <;> rfl

private theorem exec_settled_byte {ops : List Op} {i : Nat} {v : BitVec 8} (m : Pmem)
    (keeps : ∀ op ∈ ops, ∀ w, op ≠ .storeByte i w) (settled : m.bytes i = ⟨v, []⟩) :
    (exec m ops).bytes i = ⟨v, []⟩ := by
  induction ops generalizing m with
  | nil => exact settled
  | cons op ops ih =>
    refine ih _ (fun op' mem => keeps op' (List.mem_cons_of_mem _ mem)) ?_
    cases op with
    | store => exact settled
    | storeByte j w =>
      have : i ≠ j := by rintro rfl; exact keeps _ (List.mem_cons_self _ _) w rfl
      simp [Op.apply, Function.update_noteq this, settled]
    | persistHeader | persistMagic =>
      simp only [Op.apply, Pmem.flush, settled]; split_ifs <;> rfl

/-! ## A crash inside `Create` or `Destroy` -/

private theorem writeHeader_length (a b : Word) (n : Nat) : (writeHeader a b n).length = n + 3 := by
  simp [writeHeader, memsetData]

private theorem mem_writeHeader {a b : Word} {n : Nat} {op : Op} (mem : op ∈ writeHeader a b n) :
    op ≠ .persistMagic ∧ ∀ v, op ≠ .store .magicNum v := by
  simp only [writeHeader, memsetData, List.mem_append, List.mem_cons, List.mem_map,
    List.mem_range, List.mem_singleton, List.not_mem_nil, or_false] at mem
  rcases mem with ((rfl | rfl) | ⟨i, -, rfl⟩) | rfl <;> simp

/-- `writeHeader` leaves `next_free`, `heap_size` and the cleared bytes the header's persist
covers with nothing pending. -/
private theorem exec_writeHeader (m : Pmem) (a b : Word) (n : Nat) (small : b.toNat + 128 < 2 ^ 64) :
    (exec m (writeHeader a b n)).fields .nextFree = ⟨a, []⟩ ∧
      (exec m (writeHeader a b n)).fields .heapSize = ⟨b, []⟩ ∧
      ∀ i, dataOffset ≤ i → i < dataOffset + n → i < kMetadataSize.toNat + b.toNat →
        (exec m (writeHeader a b n)).bytes i = ⟨0, []⟩ := by
  have length : (kCacheLineSize * 2 + b).toNat = 128 + b.toNat := by
    have two : (2 : Word).toNat = 2 := rfl
    simp only [BitVec.toNat_add, BitVec.toNat_mul, kCacheLineSize_toNat, two]; omega
  simp only [writeHeader, exec_append, exec_cons, exec_nil, Op.apply, exec_memsetData_fields,
    exec_memsetData_bytes, Pmem.flush_fields, Pmem.flush_bytes, Function.update_same,
    Function.update_noteq (show Field.nextFree ≠ .heapSize by decide), Cell.value_store, length,
    Field.offset, kMetadataSize_toNat]
  refine ⟨by rw [if_pos (by omega), Cell.flush_store], by rw [if_pos (by omega), Cell.flush_store],
    fun i low high inData => ?_⟩
  rw [if_pos ⟨by simp only [dataOffset] at low; omega, by omega⟩, if_pos ⟨low, high⟩, Cell.flush_store]

/-- A crash before `writeLayout` stores `magic_num` finds it as it was. -/
private theorem exec_writeLayout_before (m : Pmem) (a b : Word) (n : Nat) (c : Word) {k : Nat}
    (early : k ≤ n + 3) :
    (exec m ((writeLayout a b n c).take k)).fields .magicNum = m.fields .magicNum := by
  rw [writeLayout, List.take_append_of_le_length (by rw [writeHeader_length]; exact early)]
  exact exec_magicNum m fun op mem => mem_writeHeader (List.mem_of_mem_take mem)

/-- A crash after the header's persist finds the header's stores durable. -/
private theorem exec_writeLayout_after (m : Pmem) (a b : Word) (n : Nat) (c : Word) {k : Nat}
    (late : n + 3 < k) (small : b.toNat + 128 < 2 ^ 64) :
    (exec m ((writeLayout a b n c).take k)).fields .nextFree = ⟨a, []⟩ ∧
      (exec m ((writeLayout a b n c).take k)).fields .heapSize = ⟨b, []⟩ ∧
      ∀ i, dataOffset ≤ i → i < dataOffset + n → i < kMetadataSize.toNat + b.toNat →
        (exec m ((writeLayout a b n c).take k)).bytes i = ⟨0, []⟩ := by
  rw [writeLayout, List.take_append_eq_append_take,
    List.take_of_length_le (by rw [writeHeader_length]; omega), exec_append]
  have tail {op : Op} (mem : op ∈ ([.store .magicNum c, .persistMagic] : List Op).take
      (k - (writeHeader a b n).length)) : op = .store .magicNum c ∨ op = .persistMagic := by
    simpa using List.mem_of_mem_take mem
  obtain ⟨next, size, data⟩ := exec_writeHeader m a b n small
  refine ⟨exec_settled_field _ (fun op mem w => ?_) next, exec_settled_field _ (fun op mem w => ?_) size,
    fun i low high inData => exec_settled_byte _ (fun op mem w => ?_) (data i low high inData)⟩ <;>
    rcases tail mem with rfl | rfl <;> simp

/-- After `writeLayout` returns, `magic_num` durably holds what it stored. -/
private theorem exec_writeLayout_magicNum (m : Pmem) (a b : Word) (n : Nat) (c : Word) :
    (exec m (writeLayout a b n c)).fields .magicNum = ⟨c, []⟩ := by
  simp only [writeLayout, exec_append, exec_cons, exec_nil, Op.apply, Pmem.flush_fields,
    Function.update_same, Field.offset, kCacheLineSize_toNat]
  rw [if_pos (by omega)]
  simp [Cell.flush]

/-- **`Create` is crash consistent for what it writes.** Started on a layout none of whose
crash images passes `Verify`, a crash anywhere in `Create` leaves images that fail `Verify`,
or that hold the requested `heap_size`, `next_free = kMetadataSize` and `heap_size` cleared
bytes from `data` on. -/
theorem create_crash_consistent (heap : HeapSize) {m : Pmem}
    (unformatted : ∀ v, (m.fields .magicNum).MayHold v → v ≠ kMagicNum) (k : Nat) {d : Image}
    (durable : (exec m ((create heap).take k)).Durable d) (verified : verify d = true) :
    d.fields .heapSize = heap ∧ d.fields .nextFree = kMetadataSize ∧
      ∀ i, dataOffset ≤ i → i < dataOffset + heap.val.toNat → d.bytes i = 0 := by
  have magic : d.fields .magicNum = kMagicNum := by simpa [verify] using verified
  have small : heap.val.toNat + 128 < 2 ^ 64 := by have := heap.fits; simp at this; omega
  by_cases early : k ≤ heap.val.toNat + 3
  · have held := durable.1 .magicNum
    rw [create, exec_writeLayout_before m _ _ _ _ early] at held
    exact absurd magic (unformatted _ held)
  · obtain ⟨next, size, data⟩ :=
      exec_writeLayout_after m kMetadataSize heap heap.val.toNat kMagicNum
        (show heap.val.toNat + 3 < k by omega) small
    have heldSize := durable.1 .heapSize
    have heldNext := durable.1 .nextFree
    rw [create, size] at heldSize
    rw [create, next] at heldNext
    refine ⟨(Cell.mayHold_settled _ _).mp heldSize, (Cell.mayHold_settled _ _).mp heldNext,
      fun i low high => ?_⟩
    have heldByte := durable.2 i
    rw [create, data i low high (by simp only [kMetadataSize_toNat, dataOffset] at high ⊢; omega)]
      at heldByte
    exact (Cell.mayHold_settled _ _).mp heldByte

/-- A layout `Create` was never run on, every byte `0xFF`. -/
def blank : Pmem := Pmem.atRest (fun _ => 0) fun _ => 0xFF

/-- A heap of one cache line. -/
def oneLine : HeapSize := ⟨64, by decide, by decide⟩

theorem create_crash_consistent_on_blank :
    (exec blank (create oneLine)).latest.fields .heapSize = oneLine ∧
      (exec blank (create oneLine)).latest.fields .nextFree = kMetadataSize ∧
      ∀ i, dataOffset ≤ i → i < dataOffset + oneLine.val.toNat →
        (exec blank (create oneLine)).latest.bytes i = 0 := by
  have whole := create_crash_consistent oneLine (m := blank)
    (fun v held => by simp only [blank, Pmem.atRest, Cell.mayHold_settled] at held; subst held; decide)
    69 (Pmem.durable_latest _) (by decide)
  rwa [List.take_of_length_le (by decide)] at whole

/-- After `Destroy` returns, no crash image passes `Verify`. -/
theorem destroy_unverified (m : Pmem) {d : Image} (durable : (exec m (destroy m)).Durable d) :
    verify d = false := by
  have held := durable.1 .magicNum
  rw [destroy, exec_writeLayout_magicNum, Cell.mayHold_settled] at held
  rw [verify, held]
  decide

/-- A verified layout at rest holding a heap of one cache line. -/
def formatted : Pmem :=
  Pmem.atRest (fun | .magicNum => kMagicNum | .heapSize => 64 | .nextFree => kMetadataSize)
    fun _ => 0

/-- `Destroy` stores `next_free = 0` and `heap_size = 0` before it clears `magic_num`: a crash
after those two stores may find them durable and the magic number still there. And even a
completed `Create` leaves the last `56` bytes of the data area as they were: on `blank` every
image passes `Verify` and keeps byte `255 = kMetadataSize + 63` at `0xFF`. -/
theorem verified_image_without_whole_header :
    (∃ d, (exec formatted ((destroy formatted).take 2)).Durable d ∧ verify d = true ∧
      d.fields .heapSize = 0 ∧ d.fields .nextFree = 0) ∧
    ∀ d, (exec blank (create oneLine)).Durable d → verify d = true ∧ d.bytes 255 = 0xFF := by
  refine ⟨⟨_, Pmem.durable_latest _, by decide, by decide, by decide⟩, fun d durable => ?_⟩
  have magic := durable.1 .magicNum
  have last := durable.2 255
  rw [show (exec blank (create oneLine)).fields .magicNum = ⟨kMagicNum, []⟩ by decide,
    Cell.mayHold_settled] at magic
  rw [show (exec blank (create oneLine)).bytes 255 = ⟨0xFF, []⟩ by decide, Cell.mayHold_settled]
    at last
  exact ⟨by simp [verify, magic], last⟩

end Gull.ShelfHeap.Persistence
