import Mathlib.Tactic.NormNum

/-!
# Lib — signed 64-bit arithmetic that does not wrap around

The operations on `Int64` are those on integers, as long as the result fits into 64 bits.

* **`bmod_wrapped`** — where a result that does not fit ends up.
-/

namespace KadDht

namespace Machine

variable {a b : Int64}

/-- An integer that fits into 64 bits is what it wraps to. -/
theorem bmod_eq {n : Int} (hlo : -2 ^ 63 ≤ n) (hhi : n < 2 ^ 63) : n.bmod (2 ^ 64) = n := by
  apply Int.bmod_eq_of_le
  · norm_num
    omega
  · norm_num
    omega

theorem bmod_wrapped {n : Int} (hlo : 2 ^ 63 ≤ n) (hhi : n < 2 ^ 64) :
    n.bmod (2 ^ 64) = n - 2 ^ 64 := by
  have hwrap : (n - 2 ^ 64).bmod (2 ^ 64) = n.bmod (2 ^ 64) := by
    have hsub := Int.sub_mul_bmod_self_right n 1 (2 ^ 64)
    simpa using hsub
  rw [← hwrap]
  apply bmod_eq
  · omega
  · omega

theorem toInt_add_eq (hlo : -2 ^ 63 ≤ a.toInt + b.toInt) (hhi : a.toInt + b.toInt < 2 ^ 63) :
    (a + b).toInt = a.toInt + b.toInt := by
  rw [Int64.toInt_add, bmod_eq hlo hhi]

theorem toInt_sub_eq (hlo : -2 ^ 63 ≤ a.toInt - b.toInt) (hhi : a.toInt - b.toInt < 2 ^ 63) :
    (a - b).toInt = a.toInt - b.toInt := by
  rw [Int64.toInt_sub, bmod_eq hlo hhi]

theorem toInt_neg_eq (h : -2 ^ 63 < a.toInt) : (-a).toInt = -a.toInt := by
  have hmax := a.toInt_lt
  rw [Int64.toInt_neg, bmod_eq (by omega) (by omega)]

theorem toInt_mul_eq (hlo : -2 ^ 63 ≤ a.toInt * b.toInt) (hhi : a.toInt * b.toInt < 2 ^ 63) :
    (a * b).toInt = a.toInt * b.toInt := by
  rw [Int64.toInt_mul, bmod_eq hlo hhi]

theorem toInt_div_eq (ha : 0 ≤ a.toInt) : (a / b).toInt = a.toInt / b.toInt := by
  have hne : a ≠ Int64.minValue := by
    rintro rfl
    exact absurd ha (by decide)
  rw [Int64.toInt_div_of_ne_left a b hne, Int.tdiv_eq_ediv_of_nonneg ha]

theorem toInt_mod_eq (ha : 0 ≤ a.toInt) : (a % b).toInt = a.toInt % b.toInt := by
  rw [Int64.toInt_mod, Int.tmod_eq_emod_of_nonneg ha]

theorem toInt_mul_wrapped (hlo : 2 ^ 63 ≤ a.toInt * b.toInt) (hhi : a.toInt * b.toInt < 2 ^ 64) :
    (a * b).toInt = a.toInt * b.toInt - 2 ^ 64 := by
  rw [Int64.toInt_mul, bmod_wrapped hlo hhi]

theorem toInt_mod_nonpos (ha : a.toInt ≤ 0) (hb : 0 < b.toInt) :
    (a % b).toInt ≤ 0 ∧ -b.toInt < (a % b).toInt := by
  have hrem : a.toInt.tmod b.toInt = -(-a.toInt % b.toInt) := by
    rw [← Int.tmod_eq_emod_of_nonneg (by omega), Int.neg_tmod, Int.neg_neg]
  have hnonneg := Int.emod_nonneg (-a.toInt) hb.ne'
  have hlt := Int.emod_lt_of_pos (-a.toInt) hb
  rw [Int64.toInt_mod, hrem]
  omega

theorem toInt_div_nonpos (ha : a.toInt ≤ 0) (hb : 0 < b.toInt) : (a / b).toInt ≤ 0 := by
  have hquot : a.toInt.tdiv b.toInt = -(-a.toInt / b.toInt) := by
    rw [← Int.tdiv_eq_ediv_of_nonneg (by omega), Int.neg_tdiv, Int.neg_neg]
  have hnonneg : 0 ≤ -a.toInt / b.toInt := Int.ediv_nonneg (by omega) hb.le
  have hle : -a.toInt / b.toInt ≤ -a.toInt := Int.ediv_le_self _ (by omega)
  have hmin := a.le_toInt
  rw [Int64.toInt_div, hquot, bmod_eq (by omega) (by omega)]
  omega

end Machine

theorem ediv_le_ediv_of_mul_le {a b m n : Int} (hm : 0 < m) (hn : 0 < n) (h : a * n ≤ b * m) :
    a / m ≤ b / n := by
  rw [Int.le_ediv_iff_mul_le hn]
  apply Int.le_of_mul_le_mul_right _ hm
  calc a / m * n * m = a / m * m * n := by rw [mul_right_comm]
    _ ≤ a * n := mul_le_mul_of_nonneg_right (Int.ediv_mul_le a hm.ne') hn.le
    _ ≤ b * m := h

end KadDht
