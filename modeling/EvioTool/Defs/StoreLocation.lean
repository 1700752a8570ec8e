import EvioTool.Defs.NameIndex

/-! `StoreLocation` as the source has it, and calls that add leaves. -/

namespace EvioTool.BankInfo

/-- `StoreLocation(name, location)`, which calls itself with one more plus sign: the name that it
returns, and the bank after it. -/
def StoreLocation (b : BankInfo) : Nat → String → UInt16 → Option (String × BankInfo)
  | 0, _, _ => none
  | n + 1, name, location =>
    match b.nameIndex.lookup name with
    | none => some (name, { b with nameIndex := b.nameIndex ++ [(name, location)] })
    | some _ => StoreLocation b n (name ++ "+") location

def plus (name : String) (k : Nat) : String := (fun s => s ++ "+")^[k] name

inductive LeafCall
  | addLeaf (T : ElemType) (name : String) (itag : UInt16) (inum : UInt8) (desc : String)
  | addLeafOfType (name : String) (itag : UInt16) (inum : UInt8) (desc : String) (type : Int)
  | add_Leaf (l : LeafPtr)
  | addThisLeaf (l : LeafPtr)

namespace LeafCall

def exec (b : BankInfo) : LeafCall → BankInfo
  | .addLeaf T name itag inum desc => b.addLeaf T name itag inum desc
  | .addLeafOfType name itag inum desc type => (b.addLeafOfType name itag inum desc type).2
  | .add_Leaf l => b.add_Leaf l
  | .addThisLeaf l => b.addThisLeaf l

def name : LeafCall → String
  | .addLeaf _ name _ _ _ | .addLeafOfType name _ _ _ _ => name
  | .add_Leaf l | .addThisLeaf l => l.2.name

end LeafCall

def execAll (b : BankInfo) (calls : List LeafCall) : BankInfo := calls.foldl LeafCall.exec b

def storedNames : BankInfo → List LeafCall → List String
  | _, [] => []
  | b, c :: calls => (b.storeLocation c.name b.leafs.length).1 :: storedNames (c.exec b) calls

end EvioTool.BankInfo
