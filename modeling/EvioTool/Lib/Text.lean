import Mathlib.Algebra.Group.Int.Defs
import Mathlib.Data.Rat.Defs

/-! Text as bytes: tokens, `stoi`, and what `istringstream` extracts. -/

namespace EvioTool.Lib

abbrev Str := List UInt8

def str (s : String) : Str := s.toList.map fun c => UInt8.ofNat c.toNat

namespace Str

def isBlank (c : UInt8) : Bool := c == 32 || c == 9

def isSpace (c : UInt8) : Bool := c == 32 || 9 ≤ c && c ≤ 13

def isDigit (c : UInt8) : Bool := 48 ≤ c && c ≤ 57

def trimLeft (s : Str) : Str := s.dropWhile isBlank

def trimRight (s : Str) : Str := (s.reverse.dropWhile isBlank).reverse

def find (s : Str) (c : UInt8) (k : Nat) : Option Nat :=
  ((s.drop k).findIdx? (· == c)).map (k + ·)

def sign (s : Str) : Bool × Str :=
  if s.head? = some 45 then (true, s.tail)
  else if s.head? = some 43 then (false, s.tail)
  else (false, s)

def natOf (digits : Str) : Nat := digits.foldl (fun n c => 10 * n + (c.toNat - 48)) 0

def scanInt (s : Str) : Option Int × Str :=
  let (negative, s) := s.sign
  let digits := s.takeWhile isDigit
  let n : Int := natOf digits
  (if digits = [] then none else some (if negative then -n else n), s.dropWhile isDigit)

def scale (b : Nat) (x : Rat) (k : Int) : Rat :=
  if 0 ≤ k then x * b ^ k.toNat else x / b ^ (-k).toNat

def scanDecimal (s : Str) : Option Rat × Str :=
  let (negative, s) := s.sign
  let whole := s.takeWhile isDigit
  let s := s.dropWhile isDigit
  let point := s.head? = some 46
  let fraction := if point then s.tail.takeWhile isDigit else []
  let s := if point then s.tail.dropWhile isDigit else s
  let value (k : Int) : Rat :=
    let v := scale 10 (natOf (whole ++ fraction)) (k - fraction.length)
    if negative then -v else v
  if whole ++ fraction = [] then (none, s)
  else if s.head? = some 101 ∨ s.head? = some 69 then
    let (under, s) := sign s.tail
    let digits := s.takeWhile isDigit
    let k : Int := natOf digits
    (if digits = [] then none else some (value (if under then -k else k)), s.dropWhile isDigit)
  else (some (value 0), s)

def stoi (s : Str) : Option Int := do
  let n ← (scanInt (s.dropWhile isSpace)).1
  if -2 ^ 31 ≤ n ∧ n < 2 ^ 31 then some n else none

end Str

structure IStream where
  rest : Str
  fail : Bool := false

namespace IStream

/-- What is left behind the spaces; without it an extraction fails and leaves its variable
as it was. -/
def ready (i : IStream) : Option Str :=
  let s := i.rest.dropWhile Str.isSpace
  if i.fail ∨ s = [] then none else some s

def word (i : IStream) (old : Str) : Str × IStream :=
  match i.ready with
  | none => (old, { i with fail := true })
  | some s => (s.takeWhile (!Str.isSpace ·), { rest := s.dropWhile (!Str.isSpace ·) })

def int (i : IStream) (old : Int) : Int × IStream :=
  match i.ready with
  | none => (old, { i with fail := true })
  | some s =>
    match Str.scanInt s with
    | (none, rest) => (0, { rest, fail := true })
    | (some n, rest) =>
      if n < -2 ^ 31 then (-2 ^ 31, { rest, fail := true })
      else if 2 ^ 31 ≤ n then (2 ^ 31 - 1, { rest, fail := true })
      else (n, { rest })

def nearest (x : Rat) : Int :=
  let n := x.floor
  if x - n < 1 / 2 ∨ x - n = 1 / 2 ∧ n % 2 = 0 then n else n + 1

/-- A binary format with `digits` digits and the smallest positive number `2 ^ least`; values from
`limit` on overflow. -/
structure Format where
  digits : Nat
  least : Int
  max : Rat
  limit : Rat

namespace Format

def lastDigit (f : Format) (x : Rat) : Int :=
  let k : Int := x.num.natAbs.log2 - x.den.log2
  let first := if Str.scale 2 1 k ≤ x then k else k - 1
  Max.max (first + 1 - f.digits) f.least

def round (f : Format) (x : Rat) : Rat :=
  if x = 0 then 0
  else
    let e := f.lastDigit (if x < 0 then -x else x)
    Str.scale 2 (nearest (Str.scale 2 x (-e))) e

end Format

def binary64 : Format where
  digits := 53
  least := -1074
  max := 2 ^ 1024 - 2 ^ 971
  limit := 2 ^ 1024 - 2 ^ 970

def binary32 : Format where
  digits := 24
  least := -149
  max := 2 ^ 128 - 2 ^ 104
  limit := 2 ^ 128 - 2 ^ 103

/-- The text is rounded once, to the type that is read. -/
def decimal (f : Format) (i : IStream) (old : Rat) : Rat × IStream :=
  match i.ready with
  | none => (old, { i with fail := true })
  | some s =>
    match Str.scanDecimal s with
    | (none, rest) => (0, { rest, fail := true })
    | (some v, rest) =>
      if v ≤ -f.limit then (-f.max, { rest, fail := true })
      else if f.limit ≤ v then (f.max, { rest, fail := true })
      else (f.round v, { rest })

def double : IStream → Rat → Rat × IStream := decimal binary64

def float : IStream → Rat → Rat × IStream := decimal binary32

/-- The values up to the first extraction that fails.  Each extraction that does not fail
takes a character at least, so their number is bounded by the length of the text. -/
def all (get : IStream → Rat → Rat × IStream) : Nat → IStream → List Rat
  | 0, _ => []
  | n + 1, i =>
    let (v, j) := get i 0
    if j.fail then [] else v :: all get n j

def doubles (i : IStream) : List Rat := all double i.rest.length i

def floats (i : IStream) : List Rat := all float i.rest.length i

end IStream

end EvioTool.Lib
