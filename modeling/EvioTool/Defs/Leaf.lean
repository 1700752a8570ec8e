import EvioTool.Defs.Basic

/-! Leaves: `Leaf<T>` and the class `VTPBank` derived from `Leaf<unsigned int>`. -/

namespace EvioTool

open Lib

/-- The decoded part of a `VTPBank`.  A record is kept as the words that are copied
onto its bit fields. -/
structure VTPBank where
  blockHeader : UInt32
  blockTail : UInt32
  eventHeader : UInt32
  trigTime : UInt64
  clusters : List UInt64 := []
  singletrigs : List UInt32 := []
  pairtrigs : List UInt32 := []
  calibtrigs : List UInt32 := []
  clustermult : List UInt32 := []
  feetrigger : List UInt32 := []
  autoParse : Bool := true
  deriving DecidableEq

namespace VTPBank

/-- `VTPBank::Clear()`.  It takes no argument, so it hides `Leaf::Clear(Option_t*)`
and does not override it. -/
def clear (v : VTPBank) : VTPBank :=
  { v with clusters := [], singletrigs := [], pairtrigs := [], calibtrigs := [],
           clustermult := [], feetrigger := [] }

/-- The loop of `VTPBank::ParseBank` over the words of `data` not yet looked at.  A
word past the end of `data` is read where a continuation word is missing. -/
def parseWords : List UInt32 → VTPBank → Except Halt VTPBank
  | [], v => .ok v
  | w :: rest, v =>
    if w &&& (1 : UInt32) <<< 31 ≠ 0 then
      match ((w >>> 27) &&& 0x0F).toNat with
      | 0 => parseWords rest { v with blockHeader := w }
      | 1 => parseWords rest { v with blockTail := w }
      | 2 => parseWords rest { v with eventHeader := w }
      | 3 => match rest with
        | [] => .error .outside
        | c :: rest => parseWords rest
          { v with trigTime :=
              UInt32.toUInt64 ((w &&& 0x00FFFFFF) + (c &&& 0x00FFFFFF) <<< (24 : UInt32)) }
      | 12 => match ((w >>> 23) &&& 0x0F).toNat with
        | 2 => match rest with
          | [] => .error .outside
          | c :: _ => parseWords rest
            { v with clusters := v.clusters ++ [w.toUInt64 + c.toUInt64 <<< 32] }
        | 3 => parseWords rest { v with singletrigs := v.singletrigs ++ [w] }
        | 4 => parseWords rest { v with pairtrigs := v.pairtrigs ++ [w] }
        | 5 => parseWords rest { v with calibtrigs := v.calibtrigs ++ [w] }
        | 6 => parseWords rest { v with clustermult := v.clustermult ++ [w] }
        | 7 => parseWords rest { v with feetrigger := v.feetrigger ++ [w] }
        | _ => parseWords rest v
      | _ => parseWords rest v
    else parseWords rest v

def parseBank (data : List UInt32) (v : VTPBank) : Except Halt VTPBank :=
  parseWords data v.clear

end VTPBank

inductive LeafClass : ElemType → Type
  | leaf : LeafClass T
  | vtpBank (v : VTPBank) : LeafClass (.prim .uint32)

structure Leaf (T : ElemType) where
  name : String
  title : String
  tag : Int
  num : Int
  data : List T.Val := []
  cls : LeafClass T := .leaf

def Leaf.clear (l : Leaf T) : Leaf T := { l with data := [] }

def Leaf.pushDataArray (l : Leaf T) (xs : List T.Val) : Leaf T := { l with data := l.data ++ xs }

def LeafClass.callBack : LeafClass T → List T.Val → Except Halt (LeafClass T)
  | .leaf, _ => .ok .leaf
  | .vtpBank v, data =>
    if v.autoParse then (VTPBank.parseBank (data.map UInt32.ofBitVec) v).map .vtpBank
    else .ok (.vtpBank v)

def Leaf.callBack (l : Leaf T) : Except Halt (Leaf T) :=
  (l.cls.callBack l.data).map fun c => { l with cls := c }

abbrev LeafPtr := (T : ElemType) × Leaf T

namespace LeafPtr

def tag (l : LeafPtr) : Int := l.2.tag

def num (l : LeafPtr) : Int := l.2.num

def clear (l : LeafPtr) : LeafPtr := ⟨l.1, l.2.clear⟩

/-- `((Leaf<T> *)l)->PushDataArray(xs)`; the cast is not checked in the C++, and
means nothing unless `l` is a `Leaf<T>`. -/
def pushDataArray (l : LeafPtr) (T : ElemType) (xs : List T.Val) : Option LeafPtr :=
  if h : T = l.1 then some ⟨l.1, l.2.pushDataArray (h ▸ xs)⟩ else none

def callBack (l : LeafPtr) : Except Halt LeafPtr := l.2.callBack.map fun m => ⟨l.1, m⟩

end LeafPtr

end EvioTool
