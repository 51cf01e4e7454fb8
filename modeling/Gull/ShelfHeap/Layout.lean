import Gull.Common

/-! `NvHeapLayout` from `shelf_usage/shelf_heap.h`: the body of `Alloc`, the `IsValid`
filter, and the bump allocator the specification describes, in unbounded integers.

`alloc` is `Alloc` when its `CASNextFree` finds the value `GetNextFree` loaded, which is
what every uncontended call does; `Concurrent` runs the same body one atomic step at a
time. The capacity check compares a 64-bit sum, so a request can wrap `desired_next_free`
around `2^64` and pass the check with a cursor below the one it loaded
(`alloc_wraps_below_cursor`). Below the wrap the body is the bump allocator
(`alloc_eq_bumpAlloc`). Whatever the request, `Alloc` returns `0`, an offset `IsValid`
accepts, or, on a full heap, the one-past-the-end cursor (`alloc_valid_unless_full`). -/
namespace Gull.ShelfHeap

/-- A `heap_size` that `NvHeapLayout::Create` can lay out: non-zero, as its `assert`
requires, and with the header and the data area it `memset`s inside the 64-bit address
space. -/
structure HeapSize where
  /-- `heap_size`: the capacity of the data area in bytes. -/
  val : Word
  ne_zero : val ≠ 0
  fits : kMetadataSize.toNat + val.toNat < 2 ^ 64

/-- `desired_next_free` of `NvHeapLayout::Alloc`: the loaded `next_free` advanced by the
request rounded up to a cache line, in 64-bit arithmetic. -/
def desiredNextFree (expected size : Word) : Word :=
  expected + roundUp size kCacheLineSize

/-- The capacity check of `NvHeapLayout::Alloc`: `desired_next_free-kMetadataSize > heap_size`. -/
def Exceeds (heapSize desired : Word) : Prop :=
  desired - kMetadataSize > heapSize

instance (heapSize desired : Word) : Decidable (Exceeds heapSize desired) :=
  inferInstanceAs (Decidable (desired - kMetadataSize > heapSize))

/-- The 64-bit `heap_size` of a layout `Create` made. -/
instance : Coe HeapSize Word := ⟨HeapSize.val⟩

/-- `NvHeapLayout::Alloc` with no competing writer of `next_free`: the returned offset and
the new `next_free`. -/
def alloc (heapSize nextFree size : Word) : Word × Word :=
  if Exceeds heapSize (desiredNextFree nextFree size) then (0, nextFree)
  else (nextFree, desiredNextFree nextFree size)

/-- `NvHeapLayout::IsValid`. -/
def isValid (heapSize offset : Word) : Bool :=
  if offset < kMetadataSize then false else offset - kMetadataSize < heapSize

/-- `kMetadataSize <= next_free <= kMetadataSize + heap_size`, in unbounded integers. -/
def CursorInRange (heapSize nextFree : Word) : Prop :=
  kMetadataSize.toNat ≤ nextFree.toNat ∧ nextFree.toNat ≤ kMetadataSize.toNat + heapSize.toNat

instance (heapSize nextFree : Word) : Decidable (CursorInRange heapSize nextFree) :=
  inferInstanceAs (Decidable (_ ∧ _))

/-- The bump allocator of the specification, in unbounded integers: a request takes its
cache-line ceiling at `next_free` when that fits before the end of the data area, and
otherwise returns `0`. -/
def bumpAlloc (heapSize nextFree size : Nat) : Nat × Nat :=
  if nextFree + lineCeil size ≤ 192 + heapSize then (nextFree, nextFree + lineCeil size)
  else (0, nextFree)

variable {heapSize nextFree size offset desired : Word}

theorem isValid_iff :
    isValid heapSize offset = true ↔
      kMetadataSize.toNat ≤ offset.toNat ∧ offset.toNat < kMetadataSize.toNat + heapSize.toNat := by
  unfold isValid
  split
  · rename_i below
    rw [BitVec.lt_def] at below
    simp only [Bool.false_eq_true, false_iff, not_and, not_lt]
    omega
  · rename_i above
    rw [BitVec.lt_def] at above
    simp only [decide_eq_true_eq, BitVec.lt_def, BitVec.toNat_sub]
    omega

/-- On a heap whose end lies in the address space, the capacity check passes exactly for
the cursors in range: a wrapped `desired_next_free` below the header is refused too. -/
private theorem not_exceeds_iff (fits : kMetadataSize.toNat + heapSize.toNat < 2 ^ 64) :
    ¬ Exceeds heapSize desired ↔ CursorInRange heapSize desired := by
  unfold Exceeds CursorInRange
  simp only [gt_iff_lt, BitVec.lt_def, BitVec.toNat_sub, kMetadataSize_toNat] at fits ⊢
  omega

theorem desiredNextFree_toNat (small : nextFree.toNat + lineCeil size.toNat < 2 ^ 64) :
    (desiredNextFree nextFree size).toNat = nextFree.toNat + lineCeil size.toNat := by
  rw [desiredNextFree, BitVec.toNat_add, roundUp_toNat_of_lt size (by omega)]
  exact Nat.mod_eq_of_lt small

private theorem desiredNextFree_dvd (aligned : 64 ∣ nextFree.toNat) :
    64 ∣ (desiredNextFree nextFree size).toNat := by
  rw [desiredNextFree, BitVec.toNat_add]
  have line := roundUp_dvd size
  omega

/-- Wrap or not, a layout `Create` made keeps its cursor in range and on a cache line, and
`Alloc` returns `0` or the cursor it found. -/
theorem alloc_cursor (heap : HeapSize) (size : Word) (range : CursorInRange heap nextFree)
    (aligned : 64 ∣ nextFree.toNat) :
    CursorInRange heap (alloc heap nextFree size).2 ∧ 64 ∣ (alloc heap nextFree size).2.toNat ∧
      ((alloc heap nextFree size).1 = 0 ∨ (alloc heap nextFree size).1 = nextFree) := by
  unfold alloc
  split
  · exact ⟨range, aligned, .inl rfl⟩
  · rename_i within
    exact ⟨(not_exceeds_iff heap.fits).mp within, desiredNextFree_dvd aligned, .inr rfl⟩

/-- Without a wrap the check is the unbounded comparison of the specification. -/
theorem exceeds_iff_of_lt (range : CursorInRange heapSize nextFree)
    (small : nextFree.toNat + lineCeil size.toNat < 2 ^ 64) :
    Exceeds heapSize (desiredNextFree nextFree size) ↔
      kMetadataSize.toNat + heapSize.toNat < nextFree.toNat + lineCeil size.toNat := by
  unfold Exceeds
  simp only [gt_iff_lt, BitVec.lt_def, BitVec.toNat_sub, desiredNextFree_toNat small]
  unfold CursorInRange at range
  simp only [kMetadataSize_toNat] at range ⊢
  omega

/-- Below the wrap, the code's 64-bit `Alloc` is the unbounded bump allocator. -/
theorem alloc_eq_bumpAlloc (range : CursorInRange heapSize nextFree)
    (small : nextFree.toNat + lineCeil size.toNat < 2 ^ 64) :
    ((alloc heapSize nextFree size).1.toNat, (alloc heapSize nextFree size).2.toNat) =
      bumpAlloc heapSize.toNat nextFree.toNat size.toNat := by
  have check := exceeds_iff_of_lt range small
  have exact := desiredNextFree_toNat small
  simp only [kMetadataSize_toNat] at check
  unfold alloc bumpAlloc
  by_cases over : Exceeds heapSize (desiredNextFree nextFree size)
  · rw [if_pos over, if_neg (by have := check.mp over; omega)]
    rfl
  · rw [if_neg over, if_pos (by have := mt check.mpr over; omega), exact]

theorem alloc_eq_bumpAlloc_after_one_line :
    CursorInRange 1048576 256 ∧ (256 : Word).toNat + lineCeil (64 : Word).toNat < 2 ^ 64 ∧
      ((alloc 1048576 256 64).1.toNat, (alloc 1048576 256 64).2.toNat) =
        bumpAlloc (1048576 : Word).toNat (256 : Word).toNat (64 : Word).toNat :=
  ⟨by decide, by decide, alloc_eq_bumpAlloc (by decide) (by decide)⟩

/-- The wrap: with 1 MiB of data and one cache line allocated, a request of `2^64 - 64`
bytes passes the check, is handed the cursor `256`, and moves `next_free` back to `192`,
where the bump allocator refuses it. -/
theorem alloc_wraps_below_cursor :
    alloc 1048576 256 (-64) = (256, 192) ∧ bumpAlloc 1048576 256 (2 ^ 64 - 64) = (0, 256) := by
  decide

/-- `Alloc` returns `0`, an offset `IsValid` accepts, or, only on a full heap, the cursor: the
one-past-the-end offset `kMetadataSize + heap_size`. This holds for every request, wrapping
or not, since `Alloc` returns `0` or the cursor it loaded. -/
theorem alloc_valid_unless_full (range : CursorInRange heapSize nextFree) (size : Word) :
    (alloc heapSize nextFree size).1 = 0 ∨ isValid heapSize (alloc heapSize nextFree size).1 = true ∨
      (nextFree.toNat = kMetadataSize.toNat + heapSize.toNat ∧
        (alloc heapSize nextFree size).1 = nextFree) := by
  unfold alloc
  split
  · exact .inl rfl
  · dsimp only
    by_cases full : nextFree.toNat = kMetadataSize.toNat + heapSize.toNat
    · exact .inr (.inr ⟨full, rfl⟩)
    · unfold CursorInRange at range
      exact .inr (.inl (isValid_iff.mpr ⟨range.1, by omega⟩))

theorem alloc_valid_unless_full_at_full_heap :
    CursorInRange 64 256 ∧
      ((alloc 64 256 0).1 = 0 ∨ isValid 64 (alloc 64 256 0).1 = true ∨
        ((256 : Word).toNat = kMetadataSize.toNat + (64 : Word).toNat ∧ (alloc 64 256 0).1 = 256)) :=
  ⟨by decide, alloc_valid_unless_full (by decide) 0⟩

/-- On a full heap of one line, `Alloc(0)` and the wrapping `Alloc(2^64 - 64)` both return the
one-past-the-end offset `256`, which `IsValid` rejects; the second also moves `next_free`
back to `192`. -/
theorem alloc_end_offset_on_full_heap :
    alloc 64 256 0 = (256, 256) ∧ alloc 64 256 (-64) = (256, 192) ∧ isValid 64 256 = false := by
  decide

end Gull.ShelfHeap
