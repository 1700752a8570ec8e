import Mathlib.Data.Nat.Bits
import Mathlib.Tactic.NormNum

/-! C integer conversions: unsigned words stored in an `int`, and bit fields of words. -/

namespace EvioTool.Lib

/-- The value an `int` has after a 32-bit pattern congruent to `x` is stored in it. -/
def toInt32 (x : Int) : Int := x.bmod (2 ^ 32)

def FitsInt (x : Int) : Prop := -2 ^ 31 ≤ x ∧ x < 2 ^ 31

instance (x : Int) : Decidable (FitsInt x) := inferInstanceAs (Decidable (_ ∧ _))

theorem fitsInt_natCast {n : Nat} (h : n < 2 ^ 31) : FitsInt n := by
  unfold FitsInt
  omega

theorem toInt32_eq {x : Int} (hl : -2 ^ 31 ≤ x) (hu : x < 2 ^ 31) : toInt32 x = x := by
  apply Int.bmod_eq_of_le_mul_two <;> norm_num at * <;> omega

theorem toInt32_wrap {x : Int} (hl : 2 ^ 31 ≤ x) (hu : x < 3 * 2 ^ 31) :
    toInt32 x = x - 2 ^ 32 := by
  have : toInt32 x = toInt32 (x - 2 ^ 32) := (Int.sub_bmod_right x (2 ^ 32)).symm
  rw [this, toInt32_eq] <;> norm_num at * <;> omega

theorem toInt32_lt (x : Int) : toInt32 x < 2 ^ 31 := by
  have := Int.bmod_lt (x := x) (m := 2 ^ 32) (by norm_num)
  norm_num [toInt32] at *
  omega

theorem le_toInt32 (x : Int) : -2 ^ 31 ≤ toInt32 x := by
  have := Int.le_bmod (x := x) (m := 2 ^ 32) (by norm_num)
  norm_num [toInt32] at *
  omega

theorem lt_toInt32_add_iff {p : Int} (hl : -2 ^ 31 ≤ p) (hu : p < 2 ^ 31) (w : UInt32) :
    p < toInt32 (p + w.toNat + 1) ↔ p + w.toNat + 1 < 2 ^ 31 := by
  have hw : w.toNat < 2 ^ 32 := w.toNat_lt
  by_cases h : p + w.toNat + 1 < 2 ^ 31
  · rw [toInt32_eq (by omega) h]
    omega
  · rw [toInt32_wrap (by omega) (by norm_num at *; omega)]
    norm_num at *
    omega

theorem UInt32.toNat_add_four {i : UInt32} (h : i.toNat + 4 < 2 ^ 32) :
    (i + 4).toNat = i.toNat + 4 := by
  rw [UInt32.toNat_add]
  exact Nat.mod_eq_of_lt h

section BitFields

variable {w s m : UInt32} {k n : Nat}

theorem UInt32.toNat_shiftRight_of (hs : s.toNat = k) (hk : k < 32) :
    (w >>> s).toNat = w.toNat / 2 ^ k := by
  rw [UInt32.toNat_shiftRight, hs, Nat.mod_eq_of_lt hk, Nat.shiftRight_eq_div_pow]

theorem UInt32.toNat_and_of (hm : m.toNat = 2 ^ n - 1) : (w &&& m).toNat = w.toNat % 2 ^ n := by
  rw [UInt32.toNat_and, hm, Nat.and_two_pow_sub_one_eq_mod]

theorem UInt32.toNat_field_of (hs : s.toNat = k) (hk : k < 32) (hm : m.toNat = 2 ^ n - 1) :
    ((w >>> s) &&& m).toNat = w.toNat / 2 ^ k % 2 ^ n := by
  rw [UInt32.toNat_and_of hm, UInt32.toNat_shiftRight_of hs hk]

end BitFields

end EvioTool.Lib
