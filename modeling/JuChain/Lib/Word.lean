import Mathlib.Data.Nat.Notation
import Mathlib.Data.Int.Notation
import Mathlib.Tactic.NormNum
import Mathlib.Tactic.SplitIfs

/-!
# Machine words that do not overflow

Unsigned 64-bit addition and multiplication, and the passage to signed words and back, are exact as
long as the result stays in range.
-/

namespace Word

open Int64

variable {a b : UInt64}

theorem toNat_add (h : a.toNat + b.toNat < 2 ^ 64) : (a + b).toNat = a.toNat + b.toNat := by
  rw [UInt64.toNat_add, Nat.mod_eq_of_lt h]

theorem toNat_mul (h : a.toNat * b.toNat < 2 ^ 64) : (a * b).toNat = a.toNat * b.toNat := by
  rw [UInt64.toNat_mul, Nat.mod_eq_of_lt h]

theorem toNat_sub (h : b.toNat ≤ a.toNat) : (a - b).toNat = a.toNat - b.toNat :=
  UInt64.toNat_sub_of_le a b (UInt64.le_iff_toNat_le.2 h)

theorem toNat_ite_max (a b : UInt64) : (if a < b then b else a).toNat = max a.toNat b.toNat := by
  split_ifs with h
  · exact (max_eq_right (UInt64.le_iff_toNat_le.1 (UInt64.le_of_lt h))).symm
  · exact (max_eq_left (UInt64.le_iff_toNat_le.1 (UInt64.not_lt.1 h))).symm

theorem toNat_ite_min (a b : UInt64) : (if a < b then a else b).toNat = min a.toNat b.toNat := by
  split_ifs with h
  · exact (min_eq_left (UInt64.le_iff_toNat_le.1 (UInt64.le_of_lt h))).symm
  · exact (min_eq_right (UInt64.le_iff_toNat_le.1 (UInt64.not_lt.1 h))).symm

theorem toInt_toInt64 (h : a.toNat < 2 ^ 63) : a.toInt64.toInt = a.toNat := by
  have signed : a.toInt64 = ofNat a.toNat := by
    rw [← UInt64.toInt64_ofNat', UInt64.ofNat_toNat]
  rw [signed, toInt_ofNat_of_lt h]

theorem toNat_toUInt64 {x : Int64} (h : 0 ≤ x.toInt) : (x.toUInt64.toNat : ℤ) = x.toInt := by
  rw [toNat_toUInt64_of_le (le_iff_toInt_le.2 h), toNatClampNeg]
  exact Int.toNat_of_nonneg h

theorem toNat_absDiff (ha : a.toNat < 2 ^ 63) (hb : b.toNat < 2 ^ 63) :
    ((if a.toInt64 - b.toInt64 < 0 then (a.toInt64 - b.toInt64) * -1
      else a.toInt64 - b.toInt64).toUInt64.toNat : ℤ) = ((a.toNat : ℤ) - b.toNat).natAbs := by
  have hdiff : (a.toInt64 - b.toInt64).toInt = (a.toNat : ℤ) - b.toNat := by
    rw [toInt_sub, toInt_toInt64 ha, toInt_toInt64 hb]
    exact Int.bmod_eq_of_le (by norm_num; omega) (by norm_num; omega)
  split
  · rename_i hneg
    have hlt : (a.toNat : ℤ) - b.toNat < 0 := by
      rw [← hdiff]
      exact lt_iff_toInt_lt.1 hneg
    have hmul : ((a.toInt64 - b.toInt64) * -1).toInt = -((a.toNat : ℤ) - b.toNat) := by
      rw [Int64.mul_neg, Int64.mul_one, Int64.toInt_neg, hdiff]
      exact Int.bmod_eq_of_le (by norm_num; omega) (by norm_num; omega)
    rw [toNat_toUInt64 (by omega), hmul]
    omega
  · rename_i hpos
    have hle : 0 ≤ (a.toNat : ℤ) - b.toNat := by
      rw [← hdiff]
      exact Int64.le_iff_toInt_le.1 (Int64.not_lt.1 hpos)
    rw [toNat_toUInt64 (by omega), hdiff]
    omega

end Word
