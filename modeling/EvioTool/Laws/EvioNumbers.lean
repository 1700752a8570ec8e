import EvioTool.Defs.EvioSwap
import EvioTool.Lib.ByteOrder
import Mathlib.Tactic.IntervalCases

namespace EvioTool

open Lib

theorem reverses_swap64 (x : UInt64) : Reverses 8 x.toNat (EVIO_SWAP64 x).toNat := by
  intro i hi j hj
  change (EVIO_SWAP64 x).toBitVec.getLsbD (8 * i + j) = x.toBitVec.getLsbD (8 * (7 - i) + j)
  interval_cases i <;> interval_cases j <;> simp [EVIO_SWAP64]

theorem reverses_swap32 (x : UInt32) : Reverses 4 x.toNat (EVIO_SWAP32 x).toNat := by
  intro i hi j hj
  change (EVIO_SWAP32 x).toBitVec.getLsbD (8 * i + j) = x.toBitVec.getLsbD (8 * (3 - i) + j)
  interval_cases i <;> interval_cases j <;> simp [EVIO_SWAP32]

theorem reverses_swap16 (x : UInt16) : Reverses 2 x.toNat (EVIO_SWAP16 x).toNat := by
  intro i hi j hj
  change (EVIO_SWAP16 x).toBitVec.getLsbD (8 * i + j) = x.toBitVec.getLsbD (8 * (1 - i) + j)
  interval_cases i <;> interval_cases j <;> simp [EVIO_SWAP16]

@[simp] theorem swap64_swap64 (x : UInt64) : EVIO_SWAP64 (EVIO_SWAP64 x) = x :=
  UInt64.toNat_inj.mp <| (reverses_swap64 _).inj (reverses_swap64 x).symm
    (UInt64.toNat_lt _) (UInt64.toNat_lt _)

@[simp] theorem swap32_swap32 (x : UInt32) : EVIO_SWAP32 (EVIO_SWAP32 x) = x :=
  UInt32.toNat_inj.mp <| (reverses_swap32 _).inj (reverses_swap32 x).symm
    (UInt32.toNat_lt _) (UInt32.toNat_lt _)

@[simp] theorem swap16_swap16 (x : UInt16) : EVIO_SWAP16 (EVIO_SWAP16 x) = x :=
  UInt16.toNat_inj.mp <| (reverses_swap16 _).inj (reverses_swap16 x).symm
    (UInt16.toNat_lt _) (UInt16.toNat_lt _)

@[simp] theorem map_swap32_map_swap32 (ws : List UInt32) :
    (ws.map EVIO_SWAP32).map EVIO_SWAP32 = ws := by
  simp [Function.comp_def]

theorem toNat_joinHalves (lo hi : UInt16) :
    (hi.toUInt32 <<< 16 ||| lo.toUInt32).toNat = 2 ^ 16 * hi.toNat + lo.toNat := by
  have hl : lo.toNat < 2 ^ 16 := lo.toNat_lt
  have hh : hi.toNat < 2 ^ 16 := hi.toNat_lt
  rw [UInt32.toNat_or, UInt32.toNat_shiftLeft, UInt16.toNat_toUInt32, UInt16.toNat_toUInt32]
  have hshift : hi.toNat <<< ((16 : UInt32).toNat % 32) % 2 ^ 32 = hi.toNat <<< 16 := by
    rw [show (16 : UInt32).toNat % 32 = 16 from rfl, Nat.shiftLeft_eq]
    exact Nat.mod_eq_of_lt (by omega)
  rw [hshift, ← Nat.shiftLeft_add_eq_or_of_lt hl, Nat.shiftLeft_eq, Nat.mul_comm]

theorem lowHalf_joinHalves (lo hi : UInt16) : (hi.toUInt32 <<< 16 ||| lo.toUInt32).toUInt16 = lo := by
  apply UInt16.toNat_inj.mp
  have hl : lo.toNat < 2 ^ 16 := lo.toNat_lt
  rw [UInt32.toNat_toUInt16, toNat_joinHalves]
  omega

theorem highHalf_joinHalves (lo hi : UInt16) :
    ((hi.toUInt32 <<< 16 ||| lo.toUInt32) >>> 16).toUInt16 = hi := by
  apply UInt16.toNat_inj.mp
  have hl : lo.toNat < 2 ^ 16 := lo.toNat_lt
  have hh : hi.toNat < 2 ^ 16 := hi.toNat_lt
  rw [UInt32.toNat_toUInt16, UInt32.toNat_shiftRight, toNat_joinHalves,
    show (16 : UInt32).toNat % 32 = 16 from rfl, Nat.shiftRight_eq_div_pow]
  omega

theorem joinHalves (w : UInt32) :
    (w >>> 16).toUInt16.toUInt32 <<< 16 ||| w.toUInt16.toUInt32 = w := by
  apply UInt32.toNat_inj.mp
  have hw : w.toNat < 2 ^ 32 := w.toNat_lt
  rw [toNat_joinHalves, UInt32.toNat_toUInt16, UInt32.toNat_toUInt16, UInt32.toNat_shiftRight,
    show (16 : UInt32).toNat % 32 = 16 from rfl, Nat.shiftRight_eq_div_pow]
  omega

@[simp] theorem swapHalves_swapHalves (w : UInt32) : swapHalves (swapHalves w) = w := by
  conv => lhs; rw [swapHalves]
  simp only [swapHalves, lowHalf_joinHalves, highHalf_joinHalves, swap16_swap16, joinHalves]

theorem toNat_joinWords (lo hi : UInt32) :
    (hi.toUInt64 <<< 32 ||| lo.toUInt64).toNat = 2 ^ 32 * hi.toNat + lo.toNat := by
  have hl : lo.toNat < 2 ^ 32 := lo.toNat_lt
  have hh : hi.toNat < 2 ^ 32 := hi.toNat_lt
  rw [UInt64.toNat_or, UInt64.toNat_shiftLeft, UInt32.toNat_toUInt64, UInt32.toNat_toUInt64]
  have hshift : hi.toNat <<< ((32 : UInt64).toNat % 64) % 2 ^ 64 = hi.toNat <<< 32 := by
    rw [show (32 : UInt64).toNat % 64 = 32 from rfl, Nat.shiftLeft_eq]
    exact Nat.mod_eq_of_lt (by omega)
  rw [hshift, ← Nat.shiftLeft_add_eq_or_of_lt hl, Nat.shiftLeft_eq, Nat.mul_comm]

theorem lowWord_joinWords (lo hi : UInt32) :
    (hi.toUInt64 <<< 32 ||| lo.toUInt64).toUInt32 = lo := by
  apply UInt32.toNat_inj.mp
  have hl : lo.toNat < 2 ^ 32 := lo.toNat_lt
  rw [UInt64.toNat_toUInt32, toNat_joinWords]
  omega

theorem highWord_joinWords (lo hi : UInt32) :
    ((hi.toUInt64 <<< 32 ||| lo.toUInt64) >>> 32).toUInt32 = hi := by
  apply UInt32.toNat_inj.mp
  have hl : lo.toNat < 2 ^ 32 := lo.toNat_lt
  have hh : hi.toNat < 2 ^ 32 := hi.toNat_lt
  rw [UInt64.toNat_toUInt32, UInt64.toNat_shiftRight, toNat_joinWords,
    show (32 : UInt64).toNat % 64 = 32 from rfl, Nat.shiftRight_eq_div_pow]
  omega

theorem swap64_joinWords (lo hi : UInt32) :
    EVIO_SWAP64 (hi.toUInt64 <<< 32 ||| lo.toUInt64) =
      (EVIO_SWAP32 lo).toUInt64 <<< 32 ||| (EVIO_SWAP32 hi).toUInt64 := by
  apply UInt64.toNat_inj.mp
  refine (reverses_swap64 _).inj ?_ (UInt64.toNat_lt _) (UInt64.toNat_lt _)
  intro i hi' j hj
  rw [toNat_joinWords, toNat_joinWords, Nat.testBit_two_pow_mul_add _ (UInt32.toNat_lt _),
    Nat.testBit_two_pow_mul_add _ (UInt32.toNat_lt _)]
  by_cases h : i < 4
  · rw [if_pos (by omega), if_neg (by omega), reverses_swap32 hi i h j hj]
    congr 1
    omega
  · rw [if_neg (by omega), if_pos (by omega)]
    have := reverses_swap32 lo (i - 4) (by omega) j hj
    rw [show 8 * i + j - 32 = 8 * (i - 4) + j by omega, this]
    congr 1
    omega

theorem swapPairs_cons (lo hi : UInt32) (ws : List UInt32) :
    swapPairs (lo :: hi :: ws) = EVIO_SWAP32 hi :: EVIO_SWAP32 lo :: swapPairs ws := by
  rw [swapPairs, swap64_joinWords, lowWord_joinWords, highWord_joinWords]

@[simp] theorem length_swapPairs (ws : List UInt32) : (swapPairs ws).length = ws.length := by
  fun_induction swapPairs ws with
  | case1 lo hi ws x ih => simp [ih]
  | case2 ws h => rfl

@[simp] theorem swapPairs_swapPairs (ws : List UInt32) : swapPairs (swapPairs ws) = ws := by
  induction ws using swapPairs.induct with
  | case1 lo hi ws ih =>
    rw [swapPairs_cons, swapPairs_cons, swap32_swap32, swap32_swap32, ih]
  | case2 ws h =>
    cases ws with
    | nil => rfl
    | cons w ws =>
      cases ws with
      | nil => rfl
      | cons v ws => exact absurd rfl (h w v ws)

end EvioTool
