import Mathlib

namespace Attune

def ptrAdd (p n : Nat) : Nat := (p + n) % 2 ^ 64

def ptrSub (p q : Nat) : Nat := (p + (2 ^ 64 - q)) % 2 ^ 64

theorem ptrAdd_eq (h : p + n < 2 ^ 64) : ptrAdd p n = p + n := Nat.mod_eq_of_lt h

theorem ptrSub_eq (h : q ≤ p) (hp : p < 2 ^ 64) : ptrSub p q = p - q := by
  simp only [ptrSub]
  omega

def pageSize : Nat := 4096

def floorPageSize (sz : Nat) : Nat := sz / pageSize * pageSize

/-- Rounding up to a page; the addition is the 64-bit one. -/
def ceilPageSize (sz : Nat) : Nat := floorPageSize ((sz + (pageSize - 1)) % 2 ^ 64)

theorem floorPageSize_aligned (h : a % pageSize = 0) : floorPageSize a = a := by
  simp only [floorPageSize, pageSize] at *
  omega

theorem ceilPageSize_spec (h : a + pageSize ≤ 2 ^ 64) :
    ceilPageSize a % pageSize = 0 ∧ a ≤ ceilPageSize a ∧ ceilPageSize a < a + pageSize := by
  simp only [ceilPageSize, floorPageSize, pageSize] at *
  omega

theorem ceilPageSize_top (h : a + pageSize ≤ 2 ^ 64) : ceilPageSize a + pageSize ≤ 2 ^ 64 := by
  simp only [ceilPageSize, floorPageSize, pageSize] at *
  omega

theorem ceilPageSize_aligned (h : a % pageSize = 0) (hb : a < 2 ^ 64) : ceilPageSize a = a := by
  simp only [ceilPageSize, floorPageSize, pageSize] at *
  omega

structure MemoryRange where
  start : Nat
  end_ : Nat
  deriving DecidableEq

namespace MemoryRange

def size (r : MemoryRange) : Nat := ptrSub r.end_ r.start

def contains (r o : MemoryRange) : Bool := decide (r.start ≤ o.start) && decide (o.end_ ≤ r.end_)

def intersects (r o : MemoryRange) : Bool := decide (max r.start o.start < min r.end_ o.end_)

/-- Overlapping ranges are equivalent, others are ordered by their start. -/
def comparator (a b : MemoryRange) : Bool := !a.intersects b && decide (a.start < b.start)

def less (a b : MemoryRange) : Bool :=
  if a.start = b.start then decide (a.end_ < b.end_) else decide (a.start < b.start)

end MemoryRange

end Attune
