import EvioTool.Defs.ParseBank

/-! The name index of a bank, and the members that add and clear leaves. -/

namespace EvioTool

open Lib Exec

def Leaf_Int : Int := 2
def Leaf_Float : Int := 4
def Leaf_Double : Int := 5
def Leaf_String : Int := 6

def leafOfType (type : Int) : Option ElemType :=
  if type = Leaf_Int then some (.prim .int32)
  else if type = Leaf_Float then some (.prim .float)
  else if type = Leaf_Double then some (.prim .double)
  else if type = Leaf_String then some .string
  else none

namespace BankInfo

/-- `Bank::AddLeaf(name, itag, inum, desc, type)`, with the location that is returned.  The
name is stored before the type is looked at. -/
def addLeafOfType (b : BankInfo) (name : String) (itag : UInt16) (inum : UInt8) (desc : String)
    (type : Int) : Int × BankInfo :=
  match leafOfType type with
  | some T => (b.leafs.length, b.addLeaf T name itag inum desc)
  | none => (-1, (b.storeLocation name b.leafs.length).2)

/-- `AddThisLeaf`: the leaf goes by the name that is stored, but keeps its own. -/
def addThisLeaf (b : BankInfo) (l : LeafPtr) : BankInfo :=
  let (_, b') := b.storeLocation l.2.name b.leafs.length
  { b' with leafs := b.leafs ++ [l] }

/-- `Add_Leaf`: the copy is a `Leaf<T>` whatever the leaf is. -/
def add_Leaf (b : BankInfo) (l : LeafPtr) : BankInfo :=
  b.addThisLeaf ⟨l.1, { l.2 with cls := .leaf }⟩

def findLeafByName (b : BankInfo) (name : String) : Option Nat :=
  (b.nameIndex.lookup name).map UInt16.toNat

end BankInfo

structure Named where
  bank : Bank
  names : List String := []

namespace Named

def register (s : Named) (name : String) (i : BankInfo) : Named where
  bank := s.bank.setLabel i
  names := s.names ++ [(s.bank.label.storeLocation name s.bank.label.leafs.length).1]

def newNames (b c : BankInfo) : List String :=
  (c.leafs.drop b.leafs.length).map fun l => l.2.name

def clearFull (s : Named) : Named :=
  match s.bank.label.cls with
  | .bank => { bank := Bank.clearFull s.bank, names := [] }
  | .svtBank _ | .svtBank2016 _ => { s with bank := Bank.clear s.bank }

end Named

inductive IndexOp
  | addLeaf (T : ElemType) (name : String) (itag : UInt16) (inum : UInt8) (desc : String)
  | addLeafOfType (name : String) (itag : UInt16) (inum : UInt8) (desc : String) (type : Int)
  | add_Leaf (l : LeafPtr)
  | addThisLeaf (l : LeafPtr)
  | parse (set : Settings) (mem : Mem) (fill fuel : Nat) (buf : Int) (bankType : Nat) (depth : Int)
  | clear
  | clearFull

namespace IndexOp

def exec : IndexOp → Exec Halt Obs Named Unit
  | .addLeaf T name itag inum desc =>
    modify fun s => s.register name (s.bank.label.addLeaf T name itag inum desc)
  | .addLeafOfType name itag inum desc type => modify fun s =>
    let (location, i) := s.bank.label.addLeafOfType name itag inum desc type
    if location < 0 then { s with bank := s.bank.setLabel i } else s.register name i
  | .add_Leaf l => modify fun s => s.register l.2.name (s.bank.label.add_Leaf l)
  | .addThisLeaf l => modify fun s => s.register l.2.name (s.bank.label.addThisLeaf l)
  | .parse set mem fill fuel buf bankType depth =>
    zoom (fun s => some s.bank)
      (fun b s => { bank := b, names := s.names ++ Named.newNames s.bank.label b.label })
      .undefined (parseBank set mem fill fuel buf bankType depth >>= fun _ => pure ())
  | .clear => modify fun s => { s with bank := Bank.clear s.bank }
  | .clearFull => modify Named.clearFull

def Succeeds : IndexOp → Prop
  | .addLeafOfType _ _ _ _ type => (leafOfType type).isSome
  | _ => True

end IndexOp

/-- The index is a bijection between the names of the leaves and their locations, and it
finds them. -/
structure Named.Describes (s : Named) : Prop where
  length : s.names.length = s.bank.label.leafs.length
  keys : (s.bank.label.nameIndex.map Prod.fst).Nodup
  locations : (s.bank.label.nameIndex.map fun e => e.2.toNat).Perm
    (List.range s.bank.label.leafs.length)
  found : ∀ k name, s.names[k]? = some name → s.bank.label.findLeafByName name = some k
  other : ∀ name, name ∉ s.names → s.bank.label.findLeafByName name = none

end EvioTool
