import Mathlib.Data.Nat.Bitwise

/-! Where the members of a C structure lie, by the rules of the Itanium ABI.  A bit field
takes the next free bits, unless it would then cross a boundary of its declared type; a
nested structure starts at a multiple of its own alignment, and so does what follows it. -/

namespace EvioTool.Lib

def roundUp (n a : Nat) : Nat := (n + (a - 1)) / a * a

/-- How members are read from memory.  Positions are counted in bits; `read` is given the
first free one, and returns the first free one behind the members. -/
structure Layout (α : Type) where
  align : Nat
  read {n : Nat} (mem : BitVec n) (start : Nat) : α × Nat

namespace Layout

instance : Applicative Layout where
  pure x := { align := 8, read := fun _ start => (x, start) }
  seq f x :=
    { align := max f.align (x ()).align
      read := fun mem start =>
        let (g, mid) := f.read mem start
        let (y, stop) := (x ()).read mem mid
        (g y, stop) }

def bits (unit width : Nat) : Layout (BitVec width) where
  align := unit
  read mem start :=
    let pos := if start % unit + width ≤ unit then start else roundUp start unit
    (mem.extractLsb' pos width, pos + width)

def nested (l : Layout α) : Layout α where
  align := l.align
  read mem start :=
    let (x, stop) := l.read mem (roundUp start l.align)
    (x, roundUp stop l.align)

def get (l : Layout α) (mem : BitVec n) : α := (l.read mem 0).1

end Layout

variable {x : BitVec n} {y : BitVec m}

theorem extractLsb'_eq_iff {a b k : Nat} :
    x.extractLsb' a k = y.extractLsb' b k ↔
      ∀ i < k, x.getLsbD (a + i) = y.getLsbD (b + i) := by
  constructor
  · intro h i hi
    simpa [hi] using congrArg (BitVec.getLsbD · i) h
  · intro h
    apply BitVec.eq_of_getLsbD_eq
    intro i hi
    simpa [hi] using h i hi

theorem extractLsb'_add_eq_iff (a b j k : Nat) :
    (x.extractLsb' a j = y.extractLsb' b j ∧
      x.extractLsb' (a + j) k = y.extractLsb' (b + j) k) ↔
        x.extractLsb' a (j + k) = y.extractLsb' b (j + k) := by
  simp only [extractLsb'_eq_iff]
  constructor
  · rintro ⟨hlo, hhi⟩ i hi
    rcases Nat.lt_or_ge i j with hij | hij
    · exact hlo i hij
    · have := hhi (i - j) (by omega)
      rwa [Nat.add_assoc, Nat.add_assoc, Nat.add_sub_of_le hij] at this
  · intro h
    refine ⟨fun i hi => h i (by omega), fun i hi => ?_⟩
    have := h (j + i) (by omega)
    rwa [← Nat.add_assoc, ← Nat.add_assoc] at this

/-- Fields of the given widths that follow each other, from `a` on in `x` and from `b` on
in `y`, hold the same. -/
def SameFields (x : BitVec n) (y : BitVec m) (a b : Nat) : List Nat → Prop
  | [] => True
  | k :: ks => x.extractLsb' a k = y.extractLsb' b k ∧ SameFields x y (a + k) (b + k) ks

theorem sameFields_iff (a b : Nat) (ks : List Nat) :
    SameFields x y a b ks ↔ x.extractLsb' a ks.sum = y.extractLsb' b ks.sum := by
  induction ks generalizing a b with
  | nil => exact iff_of_true trivial (extractLsb'_eq_iff.mpr nofun)
  | cons k ks ih => rw [SameFields, ih, extractLsb'_add_eq_iff, List.sum_cons]

end EvioTool.Lib
