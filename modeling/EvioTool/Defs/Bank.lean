import EvioTool.Lib.Rose
import EvioTool.Defs.Leaf

/-! The dictionary: `Bank` objects with their leaves and sub-banks. -/

namespace EvioTool

open Lib

structure SVTWords where
  w0 : UInt32
  w1 : UInt32
  w2 : UInt32
  w3 : UInt32
  deriving DecidableEq

/-- What `SVTBank` adds to a `Bank`.  `svtLeaf` is the location of the leaf that
`SVTleaf` points to. -/
structure SVTBank where
  svtData : List SVTWords := []
  svtHeaders : List SVTWords := []
  svtTails : List UInt32 := []
  svtLeaf : Nat := 0
  fStoreRaw : Bool := false
  fSaveHeaders : Bool := false
  deriving DecidableEq

/-- `SVTBank::Clear`, which overrides `Bank::Clear` and reaches neither the leaves
nor the sub-banks. -/
def SVTBank.clear (v : SVTBank) : SVTBank :=
  { v with svtData := [], svtHeaders := [], svtTails := [] }

inductive BankClass
  | bank
  | svtBank (v : SVTBank)
  | svtBank2016 (v : SVTBank)
  deriving DecidableEq

def BankClass.mapSVT (f : SVTBank → SVTBank) : BankClass → BankClass
  | .bank => .bank
  | .svtBank v => .svtBank (f v)
  | .svtBank2016 v => .svtBank2016 (f v)

structure BankInfo where
  name : String
  title : String
  tags : List UInt16
  tagMasks : List UInt16 := [0xFFFF]
  num : UInt8 := 0
  thisTag : UInt16 := 0
  thisNum : UInt8 := 0
  nameIndex : List (String × UInt16) := []
  leafs : List LeafPtr := []
  cls : BankClass := .bank

abbrev Bank := Rose BankInfo

namespace BankInfo

def checkTag (b : BankInfo) (tag : UInt16) : Bool :=
  if !b.tags.isEmpty && b.tagMasks.length == 1 then
    b.tagMasks.any fun m => b.tags.contains (tag &&& m)
  else if b.tags.length == b.tagMasks.length then
    (b.tags.zip b.tagMasks).any fun (t, m) => tag &&& m == t
  else true

def freshName (keys : List String) : Nat → String → String
  | 0, name => name
  | n + 1, name => if keys.contains name then freshName keys n (name ++ "+") else name

def storeLocation (b : BankInfo) (name : String) (location : Nat) : String × BankInfo :=
  let keys := b.nameIndex.map Prod.fst
  let name := freshName keys (keys.length + 1) name
  (name, { b with nameIndex := b.nameIndex ++ [(name, UInt16.ofNat location)] })

def addLeaf (b : BankInfo) (T : ElemType) (name : String) (itag : UInt16) (inum : UInt8)
    (desc : String) : BankInfo :=
  let location := b.leafs.length
  let (name, b) := b.storeLocation name location
  { b with leafs := b.leafs ++ [⟨T, { name, title := desc, tag := itag.toNat, num := inum.toNat }⟩] }

def findLeaf (b : BankInfo) (itag : UInt16) (inum : UInt8) : Option Nat :=
  b.leafs.findIdx? fun l =>
    l.tag == (itag.toNat : Int) && (l.num == 0 || l.num == (inum.toNat : Int))

def setTag (b : BankInfo) (tag : UInt16) (num : UInt8) : BankInfo :=
  { b with thisTag := tag, thisNum := num }

end BankInfo

namespace Bank

def findBank (b : Bank) (itag : UInt16) (inum : UInt8) : Option Nat :=
  b.subs.findIdx? fun c => c.label.tags.contains itag &&
    (inum == 0 || c.label.num == 0 || c.label.num == inum)

def new (name : String) (itag : UInt16) (inum : UInt8) (desc : String) : Bank :=
  .node { name, title := desc, tags := [itag], num := inum } []

def addBank (b : Bank) (name : String) (itag : UInt16) (inum : UInt8) (desc : String) : Bank :=
  match findBank b itag inum with
  | some _ => b
  | none => .node b.label (b.subs ++ [new name itag inum desc])

mutual
def clear : Bank → Bank
  | .node b bs => match b.cls with
    | .bank => .node { b with leafs := b.leafs.map LeafPtr.clear } (clearAll bs)
    | .svtBank _ | .svtBank2016 _ => .node { b with cls := b.cls.mapSVT SVTBank.clear } bs

def clearAll : List Bank → List Bank
  | [] => []
  | b :: bs => clear b :: clearAll bs
end

theorem clearAll_eq (bs : List Bank) : clearAll bs = bs.map clear := by
  induction bs with
  | nil => rfl
  | cons b bs ih => simp [clearAll, ih]

def clearFull (b : Bank) : Bank := .node { b.label with leafs := [] } []

end Bank

def emptyTop : Bank := .node { name := "EvioTool", title := "", tags := [0] } []

end EvioTool
