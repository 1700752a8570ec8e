import EvioTool.Lib.Memory
import Mathlib.Data.Nat.Bitwise

/-! Numbers of the two byte orders: the one has the bytes of the other in reverse. -/

namespace EvioTool.Lib

/-- The `w` bytes of `y` are those of `x` in reverse. -/
def Reverses (w x y : Nat) : Prop :=
  ∀ i < w, ∀ j < 8, y.testBit (8 * i + j) = x.testBit (8 * (w - 1 - i) + j)

theorem Reverses.symm {w x y : Nat} (h : Reverses w x y) : Reverses w y x := by
  intro i hi j hj
  rw [h (w - 1 - i) (by omega) j hj]
  congr 2
  omega

theorem Reverses.inj {w x y y' : Nat} (h : Reverses w x y) (h' : Reverses w x y')
    (hy : y < 2 ^ (8 * w)) (hy' : y' < 2 ^ (8 * w)) : y = y' := by
  apply Nat.eq_of_testBit_eq
  intro k
  by_cases hk : k < 8 * w
  · have hsplit : k = 8 * (k / 8) + k % 8 := by omega
    rw [hsplit, h _ (by omega) _ (by omega), h' _ (by omega) _ (by omega)]
  · rw [Nat.testBit_lt_two_pow (hy.trans_le (Nat.pow_le_pow_right (by omega) (by omega))),
      Nat.testBit_lt_two_pow (hy'.trans_le (Nat.pow_le_pow_right (by omega) (by omega)))]

theorem testBit_byte (n i j : Nat) :
    (UInt8.ofNat (n / 256 ^ i)).toNat.testBit j = (decide (j < 8) && n.testBit (8 * i + j)) := by
  have hpow : 256 ^ i = 2 ^ (8 * i) := by
    rw [pow_mul]
    rfl
  rw [UInt8.toNat_ofNat', hpow, Nat.testBit_mod_two_pow, Nat.testBit_div_two_pow, Nat.add_comm j]

theorem toBytes_reverse {w x y : Nat} (h : Reverses w x y) :
    toBytes w y = (toBytes w x).reverse := by
  apply List.ext_getElem
  · simp
  · intro i hi _
    simp only [length_toBytes] at hi
    rw [List.getElem_reverse, getElem_toBytes, getElem_toBytes, length_toBytes]
    apply UInt8.toNat_inj.mp
    apply Nat.eq_of_testBit_eq
    intro j
    rw [testBit_byte, testBit_byte]
    by_cases hj : j < 8
    · rw [h i hi j hj]
    · simp [hj]

theorem toBytes_leNat (bs : List UInt8) : toBytes bs.length (leNat bs) = bs := by
  apply List.ext_getElem
  · simp
  · intro i _ hi
    rw [getElem_toBytes, ofNat_leNat_div bs i hi]

end EvioTool.Lib
