import EvioTool.Lib.Exec
import EvioTool.Lib.CInt
import EvioTool.Lib.Memory

/-! Element types of leaves, and what an execution of the reader reports. -/

namespace EvioTool

open Lib Exec

inductive Prim
  | uint32 | int32 | float | double | int16 | uint16 | int8 | uint8 | int64 | uint64
  deriving DecidableEq

def Prim.width : Prim → Nat
  | .uint32 | .int32 | .float => 4
  | .int16 | .uint16 => 2
  | .int8 | .uint8 => 1
  | .double | .int64 | .uint64 => 8

inductive ElemType
  | prim (t : Prim)
  | string
  | fadc
  deriving DecidableEq

structure FADCdata where
  crate : UInt8 := 0
  slot : UInt8 := 0
  chan : UInt8 := 0
  trig : UInt32 := 0
  reftime : UInt64 := 0
  time : UInt16 := 0
  adc : UInt16 := 0
  iAdc : UInt32 := 0
  samples : List UInt16 := []
  deriving DecidableEq

/-- Elements of a `Leaf<T>`.  Fixed-width values are kept as their bit pattern,
strings as their characters. -/
def ElemType.Val : ElemType → Type
  | .prim t => BitVec (8 * t.width)
  | .string => List UInt8
  | .fadc => FADCdata

/-- Why an execution has no result: a loop ran out of the steps it was given, a
word outside the memory was read, or the C++ has no defined behaviour there
(an uncaught exception included). -/
inductive Halt
  | fuel | fillFuel | outside | undefined
  deriving DecidableEq

/-- Who reads the event: `ParseEvioBuff` and `ParseBank`, the filling of a leaf of
a fixed-width type, and the fillers with a decoder of their own. -/
inductive Reader
  | parser | leaf | string | fadc | svt
  deriving DecidableEq

inductive Obs
  /-- `n` bytes from the byte address `b` on are read. -/
  | read (by_ : Reader) (b : Int) (n : Nat)
  /-- The child loop moves from `p` to `next` over the masked length word `w`. -/
  | child (p : Int) (w : UInt32) (next : Int)
  /-- A leaf of type `have_` is filled through a cast to `Leaf<want>`. -/
  | filled (have_ want : ElemType)
  /-- A call of `ParseBank` returns. -/
  | returned (stat : Int)
  deriving DecidableEq

/-- The result of an `int` operation, which must not overflow. -/
def int32 (x : Int) : Exec Halt Obs σ Int :=
  if FitsInt x then pure x else halt .undefined

def readWord (mem : Mem) (who : Reader) (a : Int) : Exec Halt Obs σ UInt32 := do
  tell (.read who (4 * a) 4)
  demand .outside (mem a)

end EvioTool
