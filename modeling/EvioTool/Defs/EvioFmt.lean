import EvioTool.Lib.Memory
import EvioTool.Lib.CInt
import EvioTool.Lib.Splice

/-! `eviofmt.c` and `eviofmtswap.c`: the format string of composite data is translated into
codes, and the data are swapped by running the codes over them. -/

namespace EvioTool

open Lib

def EVIO_SWAP64 (x : UInt64) : UInt64 :=
  (x >>> 56 &&& (0x00000000000000FF : UInt64)) ||| (x >>> 40 &&& (0x000000000000FF00 : UInt64)) |||
  (x >>> 24 &&& (0x0000000000FF0000 : UInt64)) ||| (x >>> 8 &&& (0x00000000FF000000 : UInt64)) |||
  (x <<< 8 &&& (0x000000FF00000000 : UInt64)) ||| (x <<< 24 &&& (0x0000FF0000000000 : UInt64)) |||
  (x <<< 40 &&& (0x00FF000000000000 : UInt64)) ||| (x <<< 56 &&& (0xFF00000000000000 : UInt64))

def EVIO_SWAP32 (x : UInt32) : UInt32 :=
  (x >>> 24 &&& (0x000000FF : UInt32)) ||| (x >>> 8 &&& (0x0000FF00 : UInt32)) |||
  (x <<< 8 &&& (0x00FF0000 : UInt32)) ||| (x <<< 24 &&& (0xFF000000 : UInt32))

def EVIO_SWAP16 (x : UInt16) : UInt16 :=
  (x >>> 8 &&& (0x00FF : UInt16)) ||| (x <<< 8 &&& (0xFF00 : UInt16))

def isdigit (ch : UInt8) : Bool := 48 ≤ ch && ch ≤ 57

def formatCode (ch : UInt8) : Nat :=
  if ch = 105 then 1        -- i
  else if ch = 70 then 2    -- F
  else if ch = 97 then 3    -- a
  else if ch = 83 then 4    -- S
  else if ch = 115 then 5   -- s
  else if ch = 67 then 6    -- C
  else if ch = 99 then 7    -- c
  else if ch = 68 then 8    -- D
  else if ch = 76 then 9    -- L
  else if ch = 108 then 10  -- l
  else if ch = 73 then 11   -- I
  else if ch = 65 then 12   -- A
  else 0

structure Fmt where
  ifmt : List UInt8 := []
  nr : Int := 0
  nn : Int := 1
  lev : Int := 0

def Fmt.emit (s : Fmt) (ifmtLen : Nat) (code : Int) : Except Int Fmt :=
  if ifmtLen ≤ s.ifmt.length then .error (-9)
  else .ok { s with ifmt := s.ifmt ++ [UInt8.ofNat code.toNat] }

/-- One character.  `atoi` is what the call reads at a digit: the digit stands alone in a
`char`, and what lies behind that is not known. -/
def Fmt.step (atoi : UInt8 → Int) (ifmtLen : Nat) (s : Fmt) (ch : UInt8) : Except Int Fmt :=
  if ch = 32 then .ok s
  else if isdigit ch then
    if s.nr < 0 then .error (-1)
    else
      let nr := 10 * max 0 s.nr + atoi ch
      if nr > 15 then .error (-2) else .ok { s with nr }
  else if ch = 40 then  -- (
    if s.nr < 0 then .error (-3)
    else do
      let s ← { s with lev := s.lev + 1 }.emit ifmtLen (if s.nn = 0 then 15 else 16 * max s.nn s.nr)
      pure { s with nn := 1, nr := 0 }
  else if ch = 41 then  -- )
    if 0 ≤ s.nr then .error (-4)
    else do
      let s ← { s with lev := s.lev - 1 }.emit ifmtLen 0
      pure { s with nr := -1 }
  else if ch = 44 then  -- ,
    if 0 ≤ s.nr then .error (-5) else .ok { s with nr := 0 }
  else if ch = 78 then  -- N
    .ok { s with nn := 0 }
  else
    let kf := formatCode ch
    if kf = 0 then .error (-7)
    else if s.nr < 0 then .error (-6)
    else do
      let s ← s.emit ifmtLen (16 * max s.nn s.nr + kf)
      pure { s with nn := 1, nr := -1 }

def eviofmt (atoi : UInt8 → Int) (ifmtLen : Nat) (fmt : List UInt8) : Except Int (List UInt8) := do
  let s ← fmt.foldlM (Fmt.step atoi ifmtLen) {}
  if s.lev ≠ 0 then .error (-8) else .ok s.ifmt

structure LV where
  left : Nat
  nrepeat : Int
  irepeat : Int
  deriving DecidableEq

structure FmtCursor where
  imt : Nat := 0
  lv : List LV := []
  iterm : Nat := 0
  deriving DecidableEq

structure Swapping where
  cursor : FmtCursor := {}
  bytes : List UInt8
  b8 : Int := 0
  deriving DecidableEq

def load (w : Nat) (bytes : List UInt8) (p : Int) : Option (List UInt8) :=
  if 0 ≤ p ∧ p + w ≤ bytes.length then some ((bytes.drop p.toNat).take w) else none

def swapNumber (w : Nat) (bytes : List UInt8) (p : Int) : Option (List UInt8 × List UInt8) := do
  let old ← load w bytes p
  let new :=
    if w = 8 then toBytes 8 (EVIO_SWAP64 (UInt64.ofNat (leNat old))).toNat
    else if w = 4 then toBytes 4 (EVIO_SWAP32 (UInt32.ofNat (leNat old))).toNat
    else toBytes 2 (EVIO_SWAP16 (UInt16.ofNat (leNat old))).toNat
  let bytes ← poke bytes p.toNat new
  pure (old, bytes)

/-- A number of repeats is taken from the data, where it is an `int` of the side that is
local. -/
def Swapping.count (tolocal : Bool) (s : Swapping) : Option (Int × Swapping) := do
  let (old, bytes) ← swapNumber 4 s.bytes s.b8
  let local_ ← if tolocal then load 4 bytes s.b8 else some old
  pure (toInt32 (leNat local_), { s with bytes, b8 := s.b8 + 4 })

inductive Fetch
  | again (s : Swapping)
  | found (kcnf : Nat) (ncnf : Int) (s : Swapping)

def fetch (tolocal : Bool) (ifmt : List UInt8) (s : Swapping) : Option Fetch := do
  let imt := s.cursor.imt + 1
  if ifmt.length < imt then pure (.again { s with cursor := { s.cursor with imt := s.cursor.iterm } })
  else
    let code := (← ifmt[imt - 1]?).toNat
    if code = 0 then
      match s.cursor.lv with
      | [] => none
      | l :: lv =>
        let l := { l with irepeat := l.irepeat + 1 }
        if l.nrepeat ≤ l.irepeat then
          pure (.again { s with cursor := { imt, lv, iterm := l.left - 1 } })
        else pure (.again { s with cursor := { s.cursor with imt := l.left, lv := l :: lv } })
    else
      let ncnf : Int := code / 16
      let kcnf := code % 16
      let (kcnf, ncnf, s) ← if kcnf = 15 then do
          let (ncnf, s) ← s.count tolocal
          pure (0, ncnf, s)
        else pure (kcnf, ncnf, s)
      if kcnf = 0 then
        if s.cursor.lv.length < 10 then
          let l := { left := imt, nrepeat := ncnf, irepeat := 0 }
          pure (.again { s with cursor := { s.cursor with imt, lv := l :: s.cursor.lv } })
        else none
      else
        let ncnf := match s.cursor.lv with
          | [] => ncnf
          | l :: _ =>
            -- the last code but one, right behind its parenthesis, is repeated to the end
            if (imt : Int) ≠ ifmt.length - 1 then ncnf
            else if imt ≠ l.left + 1 then ncnf
            else 999999999
        pure (.found kcnf ncnf { s with cursor := { s.cursor with imt } })

def fetchLoop (tolocal : Bool) (ifmt : List UInt8) : Nat → Swapping → Option (Nat × Int × Swapping)
  | 0, _ => none
  | fuel + 1, s => do
    match ← fetch tolocal ifmt s with
    | .again s => fetchLoop tolocal ifmt fuel s
    | .found kcnf ncnf s => pure (kcnf, ncnf, s)

def swapNumbers (w : Nat) (stop : Int) : Nat → List UInt8 → Int → Option (List UInt8 × Int)
  | 0, bytes, p => if p < stop then none else some (bytes, p)
  | fuel + 1, bytes, p =>
    if p < stop then do
      let (_, bytes) ← swapNumber w bytes p
      swapNumbers w stop fuel bytes (p + w)
    else some (bytes, p)

def formatWidth (kcnf : Nat) : Nat :=
  if kcnf = 8 ∨ kcnf = 9 ∨ kcnf = 10 then 8
  else if kcnf = 1 ∨ kcnf = 2 ∨ kcnf = 11 ∨ kcnf = 12 then 4
  else if kcnf = 4 ∨ kcnf = 5 then 2
  else if kcnf = 6 ∨ kcnf = 7 ∨ kcnf = 3 then 1
  else 0

def convert (b8end : Int) (kcnf : Nat) (ncnf : Int) (s : Swapping) : Option Swapping := do
  let w := formatWidth kcnf
  if w = 0 then pure s
  else if w = 1 then pure { s with b8 := s.b8 + ncnf }
  else
    let stop := min (s.b8 + w * ncnf) b8end
    let (bytes, b8) ← swapNumbers w stop (stop - s.b8).toNat s.bytes s.b8
    pure { s with bytes, b8 }

def swapRound (tolocal : Bool) (ifmt : List UInt8) (b8end : Int) (fuel : Nat) (s : Swapping) :
    Option Swapping := do
  let (kcnf, ncnf, s) ← fetchLoop tolocal ifmt fuel s
  let (ncnf, s) ← if ncnf = 0 then s.count tolocal else pure (ncnf, s)
  convert b8end kcnf ncnf s

def swapRounds (tolocal : Bool) (ifmt : List UInt8) (b8end : Int) (fetchFuel : Nat) :
    Nat → Swapping → Option Swapping
  | 0, s => if s.b8 < b8end then none else some s
  | fuel + 1, s =>
    if s.b8 < b8end then do
      swapRounds tolocal ifmt b8end fetchFuel fuel (← swapRound tolocal ifmt b8end fetchFuel s)
    else some s

/-- `eviofmtswap` over the memory from the data on: the value that is returned, and the memory
after it.  There is no result when the code leaves the memory or the levels of `lv`, or does
not return. -/
def eviofmtswap (bytes : List UInt8) (nwrd : Int) (ifmt : List UInt8) (tolocal : Bool)
    (fetchFuel fuel : Nat) : Option (Int × List UInt8) :=
  if nwrd ≤ 0 ∨ ifmt = [] then some (-1, bytes)
  else (swapRounds tolocal ifmt (4 * nwrd) fetchFuel fuel { bytes }).map fun s => (0, s.bytes)

/-- No text takes its length from the data, where it may be negative. -/
def CountsNoText (ifmt : List UInt8) : Prop :=
  ∀ code ∈ ifmt, formatWidth (code.toNat % 16) = 1 → 0 < code.toNat / 16

end EvioTool
