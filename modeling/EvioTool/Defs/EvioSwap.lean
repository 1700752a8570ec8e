import EvioTool.Defs.EvioFmt
import EvioTool.Defs.EventTree

/-! `evioswap.c`: an event is turned from one byte order into the other, in place or into
another buffer. -/

namespace EvioTool

open Lib

/-- The event, and the buffer that is to have the swapped one; `none` is a null `dest`, for a
swap in place. -/
structure Swapped where
  data : List UInt32
  dest : Option (List UInt32) := none
  deriving DecidableEq

namespace Swapped

def out (m : Swapped) : List UInt32 := m.dest.getD m.data

def setOut (m : Swapped) (ws : List UInt32) : Swapped :=
  match m.dest with
  | none => { m with data := ws }
  | some _ => { m with dest := some ws }

def words (m : Swapped) (i n : Nat) : Option (List UInt32) :=
  if i + n ≤ m.data.length then some ((m.data.drop i).take n) else none

def through (f : List UInt32 → List UInt32) (m : Swapped) (i n : Nat) : Option Swapped := do
  let ws ← m.words i n
  pure (m.setOut (← poke m.out i (f ws)))

end Swapped

def swap_int32_t : Swapped → Nat → Nat → Option Swapped := Swapped.through (List.map EVIO_SWAP32)

def swapHalves (w : UInt32) : UInt32 :=
  let lo := EVIO_SWAP16 w.toUInt16
  let hi := EVIO_SWAP16 (w >>> 16).toUInt16
  hi.toUInt32 <<< 16 ||| lo.toUInt32

def swapPairs : List UInt32 → List UInt32
  | lo :: hi :: ws =>
    let x := EVIO_SWAP64 (hi.toUInt64 <<< 32 ||| lo.toUInt64)
    x.toUInt32 :: (x >>> 32).toUInt32 :: swapPairs ws
  | ws => ws

def swap_int16_t (m : Swapped) (i length : Nat) : Option Swapped :=
  m.through (List.map swapHalves) i (length / 2)

def swap_int64_t (m : Swapped) (i length : Nat) : Option Swapped :=
  m.through swapPairs i (2 * length)

def copy_data (m : Swapped) (i length : Nat) : Option Swapped :=
  match m.dest with
  | none => some m
  | some _ => m.through id i length

def bytesToWords (bs : List UInt8) : List UInt32 :=
  (elements 4 bs (bs.length / 4)).map UInt32.ofBitVec

def cString (bs : List UInt8) : Option (List UInt8) :=
  if (0 : UInt8) ∈ bs then some (bs.takeWhile (· ≠ 0)) else none

structure SwapEnv where
  atoi : UInt8 → Int
  fuel : Nat

def swapCompositeElement (env : SwapEnv) (tolocal : Bool) (m : Swapped) (i : Nat) :
    Option (Nat × Bool × Swapped) := do
  let before := m
  let m ← swap_int32_t m i 1
  let formatLen := ((← (if tolocal then m.out else before.data)[i]?) &&& 0xffff).toNat
  let m ← copy_data m (i + 1) formatLen
  let before := m
  let m ← swap_int32_t m (i + formatLen + 1) 2
  let dataLen := ((← (if tolocal then m.out else before.data)[i + formatLen + 1]?) - 1).toNat
  let m ← copy_data m (i + formatLen + 3) dataLen
  let wordLen := 1 + formatLen + 2 + dataLen
  let formatString ← cString (Mem.wordBytes ((if tolocal then m.out else m.data).drop (i + 1)))
  match eviofmt env.atoi 1024 formatString with
  | .error _ => pure (wordLen, false, m)
  | .ok ifmt =>
    if ifmt = [] then pure (wordLen, false, m)
    else
      let p := i + formatLen + 3
      let (stat, bytes) ←
        eviofmtswap (Mem.wordBytes (m.out.drop p)) (toInt32 dataLen) ifmt tolocal env.fuel env.fuel
      pure (wordLen, stat = 0, m.setOut (m.out.take p ++ bytesToWords bytes))

/-- `swap_composite_t`.  Behind the first element `dest` is advanced even when it is null, and
is no longer taken for null then. -/
def swap_composite_t (env : SwapEnv) (tolocal : Bool) : Nat → Bool → Swapped → Nat → Nat → Option Swapped
  | 0, _, _, _, _ => none
  | fuel + 1, first, m, i, length =>
    if length = 0 then some m
    else if m.dest = none ∧ !first then none
    else do
      let (wordLen, done, m) ← swapCompositeElement env tolocal m i
      if done then
        swap_composite_t env tolocal fuel false m (i + wordLen)
          ((length + 4294967296 - wordLen % 4294967296) % 4294967296)
      else pure m

inductive DataSwap
  | copy | int32 | int16 | int64 | composite
  | contains (k : Kind)
  deriving DecidableEq

def dataSwap (type : Nat) : DataSwap :=
  if type = 0x1 ∨ type = 0x2 ∨ type = 0xb then .int32
  else if type = 0x4 ∨ type = 0x5 then .int16
  else if type = 0x8 ∨ type = 0x9 ∨ type = 0xa then .int64
  else if type = 0xf then .composite
  else if type = 0xe ∨ type = 0x10 then .contains .bank
  else if type = 0xd ∨ type = 0x20 then .contains .segment
  else if type = 0xc then .contains .tagsegment
  else .copy

def Kind.lengthAndType (k : Kind) (ws : List UInt32) (i : Nat) : Option (Nat × Nat) := do
  let w ← ws[i]?
  match k with
  | bank =>
    let v ← ws[i + 1]?
    pure ((w - 1).toNat, ((v >>> 8) &&& 0x3f).toNat)
  | segment => pure ((w &&& 0xffff).toNat, ((w >>> 16) &&& 0x3f).toNat)
  | tagsegment => pure ((w &&& 0xffff).toNat, ((w >>> 16) &&& 0xf).toNat)

def Kind.fraglen (w : UInt32) : Kind → UInt32
  | bank => w + 1
  | segment | tagsegment => (w &&& 0xffff) + 1

mutual
def swapKind (env : SwapEnv) (tolocal : Bool) : Nat → Kind → Swapped → Nat → Option Swapped
  | 0, _, _, _ => none
  | fuel + 1, k, m, i => do
    let before := m
    let m ← swap_int32_t m i k.dataOffset
    let (length, type) ← k.lengthAndType (if tolocal then m.out else before.data) i
    swap_data env tolocal fuel type m (i + k.dataOffset) length

def swap_data (env : SwapEnv) (tolocal : Bool) : Nat → Nat → Swapped → Nat → Nat → Option Swapped
  | 0, _, _, _, _ => none
  | fuel + 1, type, m, i, length =>
    match dataSwap type with
    | .copy => copy_data m i length
    | .int32 => swap_int32_t m i length
    | .int16 => swap_int16_t m i (2 * length % 4294967296)
    | .int64 => swap_int64_t m i (length / 2)
    | .composite => swap_composite_t env tolocal fuel true m i length
    | .contains k => swapContents env tolocal fuel k m i 0 length

def swapContents (env : SwapEnv) (tolocal : Bool) :
    Nat → Kind → Swapped → Nat → UInt32 → Nat → Option Swapped
  | 0, _, _, _, _, _ => none
  | fuel + 1, k, m, i, l, length =>
    if l.toNat < length then do
      let before := m
      let m ← swapKind env tolocal fuel k m (i + l.toNat)
      let w ← (if tolocal then m.out else before.data)[i + l.toNat]?
      swapContents env tolocal fuel k m i (l + k.fraglen w) length
    else some m
end

def swap_bank (env : SwapEnv) (tolocal : Bool) (fuel : Nat) : Swapped → Nat → Option Swapped :=
  swapKind env tolocal fuel .bank

def swap_segment (env : SwapEnv) (tolocal : Bool) (fuel : Nat) : Swapped → Nat → Option Swapped :=
  swapKind env tolocal fuel .segment

def swap_tagsegment (env : SwapEnv) (tolocal : Bool) (fuel : Nat) :
    Swapped → Nat → Option Swapped :=
  swapKind env tolocal fuel .tagsegment

/-- `evioswap` of the event at `i`.  There is no result when the code reads or writes outside
of the buffers, or does not return. -/
def evioswap (env : SwapEnv) (tolocal : Bool) (fuel : Nat) : Swapped → Nat → Option Swapped :=
  swap_bank env tolocal fuel

end EvioTool
