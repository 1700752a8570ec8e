import EvioTool.Defs.AddOrFillLeaf

/-! The recursive parser. -/

namespace EvioTool

open Lib Exec

structure Settings where
  fAutoAdd : Bool := false
  fChopLevel : Int := 1
  fMaxLevel : Int := 9999
  deriving DecidableEq

structure Header where
  length : Int
  tag : UInt16
  contentType : Nat
  num : UInt8
  padding : Int
  dataOffset : Int
  deriving DecidableEq

def bankHeader (w0 w1 : UInt32) : Header where
  length := toInt32 (w0.toNat + 1)
  tag := (w1 >>> 16).toUInt16
  contentType := ((w1 >>> 8) &&& 0x3F).toNat
  num := (w1 &&& 0xFF).toUInt8
  padding := ((w1 >>> 14) &&& 0x3).toNat
  dataOffset := 2

def segmentHeader (w0 : UInt32) : Header where
  length := (w0 &&& 0xFFFF).toNat + 1
  tag := (w0 >>> 24).toUInt16
  contentType := ((w0 >>> 16) &&& 0x3F).toNat
  num := 0
  padding := ((w0 >>> 22) &&& 0x3).toNat
  dataOffset := 1

def tagsegmentHeader (w0 : UInt32) : Header where
  length := (w0 &&& 0xFFFF).toNat + 1
  tag := (w0 >>> 20).toUInt16
  contentType := ((w0 >>> 16) &&& 0xF).toNat
  num := 0
  padding := 0
  dataOffset := 1

def readHeader (mem : Mem) (buf : Int) (bankType : Nat) : Exec Halt Obs σ (Option Header) :=
  match bankType with
  | 0xE | 0x10 => do
    let w0 ← readWord mem .parser buf
    let w1 ← readWord mem .parser (buf + 1)
    pure (some (bankHeader w0 w1))
  | 0xD | 0x20 => do
    let w0 ← readWord mem .parser buf
    pure (some (segmentHeader w0))
  | 0xC | 0x40 => do
    let w0 ← readWord mem .parser buf
    pure (some (tagsegmentHeader w0))
  | _ => pure none

/-- The leaf cases of the second switch: the element type, the number of elements for
each word, and the number of elements taken off for padding. -/
def leafCase (contentType : Nat) (padding : Int) : Option (ElemType × Int × Int) :=
  match contentType with
  | 0x0 | 0x1 => some (.prim .uint32, 1, 0)
  | 0x2 => some (.prim .float, 1, 0)
  | 0x3 => some (.string, 4, padding)
  | 0x8 => some (.prim .double, 2, padding / 2)
  | 0xB => some (.prim .int32, 1, 0)
  | 0xF => some (.fadc, 1, 0)
  | 0x4 => some (.prim .int16, 1, 0)
  | 0x5 => some (.prim .uint16, 1, 0)
  | 0x6 => some (.prim .int8, 1, 0)
  | 0x7 => some (.prim .uint8, 1, 0)
  | 0x9 => some (.prim .int64, 1, 0)
  | 0xA => some (.prim .uint64, 1, 0)
  | _ => none

def isContainer (contentType : Nat) : Bool :=
  contentType ∈ [0xC, 0xD, 0xE, 0x10, 0x20, 0x40]

def childMask (contentType : Nat) : UInt32 :=
  if contentType = 0xE ∨ contentType = 0x10 then 0xFFFFFFFF else 0xFFFF

inductive Target
  | self
  | sub (i : Nat)
  deriving DecidableEq

def onLabel (m : Exec Halt Obs BankInfo α) : Exec Halt Obs Bank α :=
  zoom (fun b => some b.label) (fun i b => b.setLabel i) .undefined m

def onSub (i : Nat) (m : Exec Halt Obs Bank α) : Exec Halt Obs Bank α :=
  zoom (fun b => b.subs[i]?) (fun c b => b.setSub i c) .undefined m

def onTarget (t : Option Target) (m : Exec Halt Obs Bank α) : Exec Halt Obs Bank α :=
  match t with
  | some (.sub i) => onSub i m
  | _ => m

def fillSwitch (set : Settings) (mem : Mem) (fill : Nat) (T : ElemType) (buf n : Int)
    (h : Header) : Exec Halt Obs BankInfo Int :=
  match T with
  | .prim t => addOrFillLeaf set.fAutoAdd mem fill t buf n h.tag h.num
  | .string => addOrFillLeafString set.fAutoAdd mem fill buf n h.tag h.num
  | .fadc => addOrFillLeafFADCdata set.fAutoAdd mem fill buf h.tag h.num

def bankStr (tag : UInt16) (num : UInt8) : String :=
  "Bank-" ++ toString tag.toNat ++ "-" ++ toString num.toNat

def containerNodeHandler (set : Settings) (tag : UInt16) (num : UInt8) (depth : Int) :
    Exec Halt Obs Bank (Option Target) :=
  if depth < set.fChopLevel ∨ depth > set.fMaxLevel then do
    modify fun b => b.setLabel (b.label.setTag tag num)
    pure (some .self)
  else do
    let loc ← gets fun b => Bank.findBank b tag num
    let n ← gets fun b => b.subs.length
    match loc, set.fAutoAdd with
    | some i, _ =>
      onSub i (modify fun c => c.setLabel (c.label.setTag tag num))
      pure (some (.sub i))
    | none, true =>
      modify fun b => Bank.addBank b (bankStr tag num) tag num "Auto added Bank"
      onSub n (modify fun c => c.setLabel (c.label.setTag tag num))
      pure (some (.sub n))
    | none, false => pure none

def readLength (mem : Mem) (contentType : Nat) (a : Int) : Exec Halt Obs σ UInt32 := do
  let w ← readWord mem .parser a
  pure (w &&& childMask contentType)

def nextPos (p : Int) (w : UInt32) : Int := toInt32 (p + w.toNat + 1)

def elemCount (len k s : Int) : Exec Halt Obs σ Int := do
  let n ← int32 (len * k)
  int32 (n - s)

def return_ (stat : Int) : Exec Halt Obs σ Int := do
  tell (.returned stat)
  pure stat

mutual
def parseBank (set : Settings) (mem : Mem) (fill : Nat) :
    Nat → (buf : Int) → (bankType : Nat) → (depth : Int) → Exec Halt Obs Bank Int
  | 0, _, _, _ => halt .fuel
  | n + 1, buf, bankType, depth => do
    match ← readHeader mem buf bankType with
    | none => return_ (-4)
    | some h =>
      let len ← int32 (h.length - h.dataOffset)
      match leafCase h.contentType h.padding with
      | some (T, k, s) =>
        let m ← elemCount len k s
        let stat ← onLabel (fillSwitch set mem fill T (buf + h.dataOffset) m h)
        return_ stat
      | none =>
        if isContainer h.contentType then
          let newNode ← containerNodeHandler set h.tag h.num depth
          onTarget newNode
            (children set mem fill n newNode.isSome (buf + h.dataOffset) len h.contentType
              (depth + 1) 0)
          return_ 0
        else return_ (-5)

/-- The loop over the contained banks, at position `p`.  They are walked over, but not
parsed, when the container has no node. -/
def children (set : Settings) (mem : Mem) (fill : Nat) :
    Nat → (live : Bool) → (data bankLen : Int) → (contentType : Nat) → (depth p : Int) →
      Exec Halt Obs Bank Unit
  | 0, _, _, _, _, _, _ => halt .fuel
  | n + 1, live, data, bankLen, contentType, depth, p =>
    if p < bankLen then do
      when live (parseBank set mem fill n (data + p) contentType depth)
      let w ← readLength mem contentType (data + p)
      tell (.child p w (nextPos p w))
      children set mem fill n live data bankLen contentType depth (nextPos p w)
    else pure ()
end

/-- `ParseEvioBuff`, with the event at the address 0. -/
def parseEvioBuff (set : Settings) (mem : Mem) (fill fuel : Nat) : Exec Halt Obs Bank Int := do
  let w1 ← readWord mem .parser 1
  let tag := (w1 >>> 16).toUInt16
  modify fun b => b.setLabel (b.label.setTag tag (w1 &&& 0xFF).toUInt8)
  let contentType := ((w1 >>> 8) &&& 0x3F).toNat
  let pass ← gets fun b => b.label.checkTag tag
  if set.fChopLevel > 0 ∧ contentType ≠ 0x10 ∧ contentType ≠ 0xE then pure (-3)
  else if set.fChopLevel > 0 ∧ !pass then pure 0
  else
    let _ ← parseBank set mem fill fuel 0 0x10 0
    pure 0

end EvioTool
