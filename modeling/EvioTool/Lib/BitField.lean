import Mathlib.Data.Nat.Bitwise
import Mathlib.Tactic.NormNum

/-! Bit fields of C structures: each takes the next bits from the lowest on, in the
order in which the fields are declared. -/

namespace EvioTool.Lib

def field (k : Nat) : StateM Nat (BitVec k) := modifyGet fun w => (BitVec.ofNat k w, w / 2 ^ k)

theorem BitVec.toNat_append_add (x : BitVec m) (y : BitVec n) :
    (x ++ y).toNat = x.toNat * 2 ^ n + y.toNat := by
  rw [BitVec.toNat_append, ← Nat.shiftLeft_add_eq_or_of_lt y.isLt, Nat.shiftLeft_eq]

theorem run_field (m : Nat) (x : BitVec k) (f : BitVec k → StateM Nat α) :
    (field k >>= f).run (m * 2 ^ k + x.toNat) = (f x).run m := by
  have hlo : BitVec.ofNat k (m * 2 ^ k + x.toNat) = x := by
    apply BitVec.eq_of_toNat_eq
    rw [BitVec.toNat_ofNat, Nat.mul_add_mod_self_right, Nat.mod_eq_of_lt x.isLt]
  have hhi : (m * 2 ^ k + x.toNat) / 2 ^ k = m := by
    rw [Nat.mul_comm, Nat.mul_add_div (Nat.two_pow_pos k), Nat.div_eq_of_lt x.isLt, Nat.add_zero]
  show (f (BitVec.ofNat k _)).run (_ / _) = _
  rw [hlo, hhi]

theorem run_field_append (x : BitVec m) (y : BitVec k) (f : BitVec k → StateM Nat α) :
    (field k >>= f).run (x ++ y).toNat = (f y).run x.toNat := by
  rw [BitVec.toNat_append_add, run_field]

theorem run_field_last (x : BitVec k) (f : BitVec k → StateM Nat α) :
    (field k >>= f).run x.toNat = (f x).run 0 := by
  simpa using run_field 0 x f

end EvioTool.Lib
