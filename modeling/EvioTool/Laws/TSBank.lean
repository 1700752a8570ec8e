import EvioTool.Defs.TSBank
import Mathlib.Data.Nat.Bitwise

namespace EvioTool.TSBank

open Lib

variable {w k u u' : UInt32} {data : List UInt32} {i : Nat}

theorem toNat_shift (hk : k.toNat < 32) : ((1 : UInt32) <<< k).toNat = 2 ^ k.toNat := by
  rw [UInt32.toNat_shiftLeft, Nat.mod_eq_of_lt hk, Nat.shiftLeft_eq, UInt32.toNat_one, one_mul]
  exact Nat.mod_eq_of_lt (Nat.pow_lt_pow_right (by decide) hk)

theorem bit_shift (hk : k.toNat < 32) : bit i ((1 : UInt32) <<< k) = decide (i = k.toNat) := by
  have hbit : bit i ((1 : UInt32) <<< k) = ((1 : UInt32) <<< k).toNat.testBit i := rfl
  rw [hbit, toNat_shift hk, Nat.testBit_two_pow, decide_eq_decide]
  exact eq_comm

theorem bit_put (c : Prop) [Decidable c] (hk : k.toNat < 32) (hi : i < 32) :
    bit i (if c then w ||| (1 : UInt32) <<< k else w &&& ~~~((1 : UInt32) <<< k)) =
      if i = k.toNat then decide c else bit i w := by
  have hshift := bit_shift (i := i) hk
  unfold bit at hshift ⊢
  by_cases hc : c
  · rw [if_pos hc, UInt32.toBitVec_or, BitVec.getLsbD_or, hshift]
    split <;> simp_all
  · rw [if_neg hc, UInt32.toBitVec_and, UInt32.toBitVec_not, BitVec.getLsbD_and, BitVec.getLsbD_not,
      hshift]
    split <;> simp_all

theorem and_shift_eq_zero_iff (hk : k.toNat < 32) :
    w &&& (1 : UInt32) <<< k = 0 ↔ bit k.toNat w = false := by
  have hpos : 2 ^ k.toNat ≠ 0 := (Nat.two_pow_pos _).ne'
  have hbit : bit k.toNat w = w.toNat.testBit k.toNat := rfl
  rw [hbit, ← UInt32.toNat_inj, UInt32.toNat_and, toNat_shift hk, Nat.and_two_pow]
  cases w.toNat.testBit k.toNat <;> simp

theorem decide_and_shift (hk : k.toNat < 32) :
    decide (w &&& (1 : UInt32) <<< k ≠ 0) = bit k.toNat w := by
  cases h : bit k.toNat w with
  | false => simpa using (and_shift_eq_zero_iff hk).mpr h
  | true => simp [and_shift_eq_zero_iff hk, h]

def assigned : List Nat := [0, 1, 4, 5, 8, 9, 13, 15]

def oldBit (w : UInt32) : Nat → Bool
  | 0 | 4 => bit 24 w
  | 1 | 5 => bit 25 w
  | 8 => bit 26 w
  | 9 => bit 27 w
  | 13 => bit 28 w
  | 15 => bit 29 w
  | _ => false

theorem bit_getTriggerBits (hlen : data.length = 5) (hi : i < 32) :
    bit i (getTriggerBits u data) =
      if i ∈ assigned then oldBit (data.getD 0 0) i else bit i u := by
  have h7 : data.length ≠ 7 := by omega
  rw [getTriggerBits, if_neg h7, if_pos hlen]
  generalize data.getD 0 0 = w
  simp only [oldTriggerBits, List.foldl_cons, List.foldl_nil]
  iterate 8 rw [bit_put _ (by decide) hi, decide_and_shift (by decide)]
  by_cases h : i ∈ assigned
  · rw [if_pos h]
    simp only [assigned, List.mem_cons, List.not_mem_nil, or_false] at h
    rcases h with rfl | rfl | rfl | rfl | rfl | rfl | rfl | rfl <;> rfl
  · rw [if_neg h]
    simp only [assigned, List.mem_cons, List.not_mem_nil, or_false, not_or] at h
    obtain ⟨h0, h1, h4, h5, h8, h9, h13, h15⟩ := h
    simp [h0, h1, h4, h5, h8, h9, h13, h15]

theorem getTriggerInt_old (hlen : data.length = 5) :
    getTriggerInt u data = getTriggerBits u data := by
  have h7 : data.length ≠ 7 := by omega
  rw [getTriggerInt, if_neg h7, if_pos hlen]

theorem eq_of_bits {x y : UInt32} (h : ∀ k < 32, bit k x = bit k y) : x = y := by
  apply UInt32.toBitVec_inj.mp
  apply BitVec.eq_of_getLsbD_eq
  exact fun k hk => h k hk

/-- Both functions return the pattern of the trigger word. -/
def ReturnsPattern (data : List UInt32) (u : UInt32) : Prop :=
  ∀ k < 32, bit k (getTriggerBits u data) = oldBit (data.getD 0 0) k ∧
    bit k (getTriggerInt u data) = oldBit (data.getD 0 0) k

structure SameAnswers (data : List UInt32) (u u' : UInt32) : Prop where
  fee : isFEE u data = isFEE u' data
  pair3 : isPair3 u data = isPair3 u' data
  mult0 : isMult0 u data = isMult0 u' data
  trigger (test : UInt32) : isTrigger u data test = isTrigger u' data test
  named (name : Str) (names : NameTable) :
    isTriggerNamed u data name names = isTriggerNamed u' data name names
  exact (test : UInt32) : isExactTrigger u data test = isExactTrigger u' data test

theorem returnsPattern_iff (hlen : data.length = 5) :
    ReturnsPattern data u ↔ ∀ k < 32, k ∉ assigned → bit k u = false := by
  have hold {k : Nat} (hk : k ∉ assigned) : oldBit (data.getD 0 0) k = false := by
    unfold oldBit
    split <;> first | rfl | exact absurd (by decide) hk
  constructor
  · intro h k hk hun
    have hbit := (h k hk).1
    rwa [bit_getTriggerBits hlen hk, if_neg hun, hold hun] at hbit
  · intro h k hk
    rw [getTriggerInt_old hlen, and_self, bit_getTriggerBits hlen hk]
    split
    · rfl
    · rename_i hun
      rw [h k hk hun, hold hun]

/-- The pattern is that of the trigger word, and the same in any two runs, exactly when the
bits that are not assigned happen to be 0 on the stack. -/
theorem oldTriggers_iff (data : List UInt32) (u u' : UInt32) (hlen : data.length = 5) :
    (ReturnsPattern data u ∧ ReturnsPattern data u' ∧ SameAnswers data u u') ↔
      ∀ k < 32, k ∉ assigned → bit k u = false ∧ bit k u' = false := by
  constructor
  · rintro ⟨hu, hu', -⟩ k hk hun
    exact ⟨(returnsPattern_iff hlen).mp hu k hk hun, (returnsPattern_iff hlen).mp hu' k hk hun⟩
  · intro h
    have hu : ReturnsPattern data u :=
      (returnsPattern_iff hlen).mpr fun k hk hun => (h k hk hun).1
    have hu' : ReturnsPattern data u' :=
      (returnsPattern_iff hlen).mpr fun k hk hun => (h k hk hun).2
    have heq : getTriggerBits u data = getTriggerBits u' data :=
      eq_of_bits fun k hk => (hu k hk).1.trans (hu' k hk).1.symm
    have hint : getTriggerInt u data = getTriggerInt u' data := by
      rw [getTriggerInt_old hlen, getTriggerInt_old hlen, heq]
    refine ⟨hu, hu', ?_, ?_, ?_, fun test => ?_, fun name names => ?_, fun test => ?_⟩
    · rw [isFEE, isFEE, heq]
    · rw [isPair3, isPair3, heq]
    · rw [isMult0, isMult0, heq]
    · rw [isTrigger, isTrigger, hint]
    · rw [isTriggerNamed, isTriggerNamed, hint]
    · rw [isExactTrigger, isExactTrigger, hint]

theorem oldTriggers_clean :
    ReturnsPattern [0x21000000, 0, 0, 0, 0] 0 ∧ ReturnsPattern [0x21000000, 0, 0, 0, 0] 0x8033 ∧
      SameAnswers [0x21000000, 0, 0, 0, 0] 0 0x8033 :=
  (oldTriggers_iff _ 0 0x8033 rfl).mpr (by decide)

theorem oldTriggers_dirty :
    ¬(ReturnsPattern [0x21000000, 0, 0, 0, 0] 0 ∧
      ReturnsPattern [0x21000000, 0, 0, 0, 0] 0x0800 ∧
      SameAnswers [0x21000000, 0, 0, 0, 0] 0 0x0800) := by
  rintro ⟨-, -, hsame⟩
  have hpair := hsame.pair3
  revert hpair
  decide

end EvioTool.TSBank
