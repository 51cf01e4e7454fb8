import Mathlib.Data.BitVec

/-! The 64-bit words the shelf heap computes with, and the two names it takes from
`common/common.h`: `kCacheLineSize` and `round_up`. That header is not among the sources,
so both are modelled from the specification ("`cacheline` (e.g. 64)", "size rounded up to
a cache-line multiple"). Every quantity is a `BitVec 64`, so the wrap-around of `size_t`,
`uint64_t` and `Offset` arithmetic is part of the model, not an assumption. -/
namespace Gull

/-- `size_t`, `uint64_t` and `Offset`: unsigned 64-bit words. -/
abbrev Word := BitVec 64

/-- Modelled from the spec: `kCacheLineSize`, the cache line of the specification's
configuration constants ("`cacheline` (e.g. 64)"). -/
def kCacheLineSize : Word := 64

/-- Modelled from the spec: `round_up(x, y)`, the least multiple of `y` not below `x`,
computed on 64-bit operands as `(x + y - 1) / y * y`. -/
def roundUp (x y : Word) : Word := (x + y - 1) / y * y

/-- `NvHeapLayout::kMagicNum`. -/
def kMagicNum : Word := 684327

/-- `NvHeapLayout::kMetadataSize`: three cache lines of header. -/
def kMetadataSize : Word := kCacheLineSize * 3

/-- The cache-line multiple a request of `n` bytes takes, in unbounded integers. -/
def lineCeil (n : Nat) : Nat := (n + 63) / 64 * 64

@[simp] theorem kCacheLineSize_toNat : kCacheLineSize.toNat = 64 := rfl

@[simp] theorem kMetadataSize_toNat : kMetadataSize.toNat = 192 := rfl

@[simp] theorem kMagicNum_toNat : kMagicNum.toNat = 684327 := rfl

/-- `round_up` on 64-bit words is the cache-line ceiling taken modulo `2^64`: exact below
the last line of the address space, and `0` for the requests that round past it. -/
private theorem roundUp_toNat (x : Word) :
    (roundUp x kCacheLineSize).toNat = lineCeil x.toNat % 2 ^ 64 := by
  have bound := x.isLt
  have one : (1 : Word).toNat = 1 := rfl
  simp only [roundUp, lineCeil, BitVec.toNat_mul, BitVec.toNat_udiv, BitVec.toNat_sub,
    BitVec.toNat_add, kCacheLineSize_toNat, one]
  omega

theorem roundUp_dvd (x : Word) : 64 ∣ (roundUp x kCacheLineSize).toNat := by
  rw [roundUp_toNat, lineCeil]
  omega

theorem roundUp_toNat_of_lt (x : Word) (small : lineCeil x.toNat < 2 ^ 64) :
    (roundUp x kCacheLineSize).toNat = lineCeil x.toNat := by
  rw [roundUp_toNat, Nat.mod_eq_of_lt small]

theorem word_eq_zero_iff (w : Word) : w = 0 ↔ w.toNat = 0 := by
  rw [BitVec.toNat_eq]; rfl

end Gull
