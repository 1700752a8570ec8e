import Mathlib.Data.List.TakeWhile
import EvioTool.Lib.CInt
import EvioTool.Lib.Text

/-! `std::stoi` with a base. -/

namespace EvioTool.Lib.Str

inductive StoiError
  | invalid_argument
  | out_of_range
  deriving DecidableEq

def digitValue (c : UInt8) : Nat :=
  if 48 ≤ c ∧ c ≤ 57 then c.toNat - 48
  else if 97 ≤ c ∧ c ≤ 122 then c.toNat - 87
  else if 65 ≤ c ∧ c ≤ 90 then c.toNat - 55
  else 36

def isDigitIn (base : Nat) (c : UInt8) : Bool := digitValue c < base

def natIn (base : Nat) (digits : Str) : Nat :=
  digits.foldl (fun n c => base * n + digitValue c) 0

def skipPrefix (base : Nat) : Str → Str
  | 48 :: x :: c :: s =>
    if base = 16 ∧ (x = 120 ∨ x = 88) ∧ isDigitIn 16 c then c :: s else 48 :: x :: c :: s
  | s => s

def numeral (base : Nat) (s : Str) : Str := skipPrefix base (sign (s.dropWhile isSpace)).2

/-- `stoi(s, 0, base)`: the longest number that the text starts with. -/
def stoiIn (base : Nat) (s : Str) : Except StoiError Int :=
  let digits := (numeral base s).takeWhile (isDigitIn base)
  let n : Int := natIn base digits
  let n := if (sign (s.dropWhile isSpace)).1 then -n else n
  if digits = [] then .error .invalid_argument
  else if FitsInt n then .ok n
  else .error .out_of_range

section

variable {base : Nat} {s : Str} {c : UInt8} {n : Int}

/-- The text starts with a number, behind spaces and a sign. -/
def StartsNumber (base : Nat) (s : Str) : Prop :=
  (numeral base s).takeWhile (isDigitIn base) ≠ []

theorem stoiIn_invalid_iff :
    stoiIn base s = .error .invalid_argument ↔ ¬StartsNumber base s := by
  unfold stoiIn StartsNumber
  dsimp only
  generalize (if (sign (s.dropWhile isSpace)).1 then _ else _ : Int) = n
  rw [not_not]
  by_cases h : (numeral base s).takeWhile (isDigitIn base) = []
  · exact iff_of_true (if_pos h) h
  · rw [if_neg h]
    refine iff_of_false (fun heq => ?_) h
    by_cases hn : FitsInt n
    · rw [if_pos hn] at heq
      cases heq
    · rw [if_neg hn] at heq
      cases heq

theorem le_of_isDigitIn (hbase : base ≤ 36) (h : isDigitIn base c) : 48 ≤ c.toNat := by
  have hlt : digitValue c < base := of_decide_eq_true h
  unfold digitValue at hlt
  simp only [UInt8.le_iff_toNat_le] at hlt
  split_ifs at hlt with h1 h2 h3
  · exact h1.1
  · exact (show 48 ≤ 97 by decide).trans h2.1
  · exact (show 48 ≤ 65 by decide).trans h3.1
  · omega

theorem isSpace_of_isDigitIn (hbase : base ≤ 36) (h : isDigitIn base c) : isSpace c = false := by
  have hle := le_of_isDigitIn hbase h
  by_contra hspace
  rw [Bool.not_eq_false] at hspace
  simp only [isSpace, Bool.or_eq_true, beq_iff_eq, Bool.and_eq_true, decide_eq_true_eq,
    UInt8.le_iff_toNat_le] at hspace
  obtain rfl | ⟨-, hspace⟩ := hspace
  · exact absurd hle (by decide)
  · exact absurd (hle.trans hspace) (by decide)

theorem sign_of_isDigitIn (hbase : base ≤ 36) (h : isDigitIn base c) (s : Str) :
    sign ((c :: s).dropWhile isSpace) = (false, c :: s) := by
  have hle := le_of_isDigitIn hbase h
  rw [List.dropWhile_cons_of_neg (by simp [isSpace_of_isDigitIn hbase h]), sign,
    List.head?_cons, if_neg, if_neg]
  · rintro ⟨rfl⟩
    exact absurd hle (by decide)
  · rintro ⟨rfl⟩
    exact absurd hle (by decide)

theorem skipPrefix_of_digits (hbase : base ≤ 16) (hs : ∀ c ∈ s, isDigitIn base c) :
    skipPrefix base s = s := by
  unfold skipPrefix
  split
  · rename_i x c s
    refine if_neg ?_
    rintro ⟨-, hx, -⟩
    have hlt : digitValue x < base := of_decide_eq_true (hs x (by simp))
    obtain rfl | rfl := hx
    · exact absurd (hlt.trans_le hbase) (by decide)
    · exact absurd (hlt.trans_le hbase) (by decide)
  · rfl

theorem numeral_of_digits (hbase : base ≤ 16) (hs : ∀ c ∈ s, isDigitIn base c) :
    numeral base s = s ∧ (sign (s.dropWhile isSpace)).1 = false := by
  cases s with
  | nil => exact ⟨rfl, rfl⟩
  | cons c s =>
    have hsign := sign_of_isDigitIn (by omega) (hs c List.mem_cons_self) s
    rw [numeral, hsign]
    exact ⟨skipPrefix_of_digits hbase hs, rfl⟩

theorem startsNumber_of_digits (hbase : base ≤ 16) (hne : s ≠ []) (hs : ∀ c ∈ s, isDigitIn base c) :
    StartsNumber base s := by
  rw [StartsNumber, (numeral_of_digits hbase hs).1, List.takeWhile_eq_self_iff.mpr hs]
  exact hne

theorem stoiIn_digits (hbase : base ≤ 16) (hne : s ≠ []) (hs : ∀ c ∈ s, isDigitIn base c) :
    stoiIn base s = if natIn base s < 2 ^ 31 then .ok (natIn base s) else .error .out_of_range := by
  obtain ⟨hnumeral, hsign⟩ := numeral_of_digits hbase hs
  unfold stoiIn
  rw [hnumeral, hsign, List.takeWhile_eq_self_iff.mpr hs]
  dsimp only
  rw [if_neg hne]
  refine if_congr ?_ rfl rfl
  simp [FitsInt]

end

end EvioTool.Lib.Str
