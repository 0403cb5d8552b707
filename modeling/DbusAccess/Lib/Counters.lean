import Mathlib.Algebra.Group.Nat.Defs

/-! Counters of 32 bits: what they show of a number that goes up and down. -/

namespace Counters

variable {n : ℕ}

theorem ofNat_inc (n : ℕ) : Int32.ofNat n + 1 = Int32.ofNat (n + 1) := (Int32.ofNat_add n 1).symm

theorem ofNat_dec (h : 0 < n) : Int32.ofNat n - 1 = Int32.ofNat (n - 1) :=
  (Int32.ofNat_sub n 1 h).symm

/-- Small numbers are not taken for each other. -/
theorem ofNat_eq_one (h : 0 < n) (hn : n ≤ 2 ^ 32) : Int32.ofNat n = 1 ↔ n = 1 := by
  rw [← Int32.toBitVec_inj]
  change BitVec.ofNat 32 n = BitVec.ofNat 32 1 ↔ n = 1
  rw [← BitVec.toNat_inj, BitVec.toNat_ofNat, BitVec.toNat_ofNat]
  omega

theorem ofNat_ne_succ (n : ℕ) : Int32.ofNat n ≠ Int32.ofNat (n + 1) := by
  rw [← ofNat_inc, Ne, Int32.left_eq_add]
  decide

theorem dec_eq_zero {c : Int32} : c - 1 = 0 ↔ c = 1 := by
  rw [Int32.sub_eq_iff_eq_add, Int32.zero_add]

end Counters
