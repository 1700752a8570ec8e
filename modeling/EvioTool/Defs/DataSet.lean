import EvioTool.Lib.Placed
import EvioTool.Defs.AddBank
import EvioTool.Defs.NameIndex
import EvioTool.Defs.TriggerFilter

/-! The banks of an `HPSEvioReader`, and the choice of a data set. -/

namespace EvioTool

open Lib

/-- An `HPSEvioReader` with the places of its banks on the heap.  A pointer is null or a place,
whether something is still there or not. -/
structure HPSEvioReader where
  info : BankInfo := { name := "EvioTool", title := "The top node of the EVIO tree", tags := [] }
  banks : List (Placed Bank) := []
  /-- The number of objects that have been made. -/
  made : Nat := 0
  ecalCrate : Option Nat := none
  svt : Option Nat := none
  trigTop : Option Nat := none
  trigBot : Option Nat := none
  vtpTop : Option Nat := none
  vtpBot : Option Nat := none
  isEngineeringRun : Bool := false

namespace HPSEvioReader

def bank (r : HPSEvioReader) : Bank := .node r.info (r.banks.map Placed.value)

def live (r : HPSEvioReader) : List Nat := Placed.live r.banks

/-- `RemoveBank(TObject *o)`: only pointers are compared, and nothing is done about a bank that
is not there. -/
def removeBank (r : HPSEvioReader) (o : Nat) : HPSEvioReader :=
  { r with banks := Placed.remove r.banks o }

def removeIf (r : HPSEvioReader) (p : Option Nat) : HPSEvioReader :=
  match p with
  | some o => r.removeBank o
  | none => r

section Make

variable (A : Allocator)

def make (r : HPSEvioReader) : Nat × HPSEvioReader :=
  (A.place r.made r.live, { r with made := r.made + 1 })

def newBank (r : HPSEvioReader) (b : Bank) : Nat × HPSEvioReader :=
  let (o, r) := r.make A
  (o, { r with banks := r.banks ++ [{ address := o, value := b }] })

def newLeaf (r : HPSEvioReader) (o : Nat) (add : BankInfo → BankInfo) : Nat × HPSEvioReader :=
  let (p, r) := r.make A
  let put (x : Placed Bank) : Placed Bank :=
    { x with parts := x.parts ++ [p], value := x.value.setLabel (add x.value.label) }
  (p, { r with banks := Placed.update r.banks o put })

def addBank (r : HPSEvioReader) (c : BankCall) : Nat × HPSEvioReader :=
  match (r.bank.findBank c.itag c.inum).bind fun idx => r.banks[idx]? with
  | some x => (x.address, r)
  | none => r.newBank A c.newbank

def newVTPBank (r : HPSEvioReader) (o : Nat) : Nat × HPSEvioReader :=
  r.newLeaf A o fun b => b.addThisLeaf vtpLeaf

def newSVTBank (r : HPSEvioReader) (tags : List UInt16) (cls : BankClass) : Nat × HPSEvioReader :=
  let (o, r) := r.newBank A (.node { name := "SVT", title := "SVT banks", tags, cls } [])
  let (_, r) := r.newLeaf A o fun b =>
    b.addLeaf (.prim .uint32) "SVTLeaf" 57648 0 "SVT unsigned int data"
  (o, r)

def setSVTLeafTag (b : BankInfo) (tag : Int) : BankInfo :=
  { b with leafs := b.leafs.modify 0 fun l => ⟨l.1, { l.2 with tag }⟩ }

def newSVTBank2016 (r : HPSEvioReader) (tags : List UInt16) : Nat × HPSEvioReader :=
  let (o, r) := r.newSVTBank A tags (.svtBank2016 {})
  let put (x : Placed Bank) : Placed Bank :=
    { x with value := x.value.setLabel (setSVTLeafTag x.value.label 3) }
  (o, { r with banks := Placed.update r.banks o put })

def cleanUp (r : HPSEvioReader) : HPSEvioReader :=
  let r := r.removeIf r.svt
  let r := r.removeIf r.trigTop
  r.removeIf r.trigBot

def set2019Data (r : HPSEvioReader) : HPSEvioReader :=
  let r := r.cleanUp
  let (svt, r) := r.newSVTBank A [2, 3] (.svtBank {})
  let (trigTop, r) := r.addBank A ⟨"TrigTop", 11, 0, "Trigger Bank top"⟩
  let (vtpTop, r) := r.newVTPBank A trigTop
  let (trigBot, r) := r.addBank A ⟨"TrigTop", 12, 0, "Trigger Bank bottom"⟩
  let (vtpBot, r) := r.newVTPBank A trigBot
  { r with svt := some svt, trigTop := some trigTop, vtpTop := some vtpTop,
           trigBot := some trigBot, vtpBot := some vtpBot }

def set2016Data (r : HPSEvioReader) : HPSEvioReader :=
  let r := r.cleanUp
  let (svt, r) :=
    r.newSVTBank2016 A [51, 52, 53, 54, 55, 56, 57, 58, 59, 60, 61, 62, 63, 64, 65]
  { r with svt := some svt, isEngineeringRun := true }

def makeCrates (r : HPSEvioReader) : HPSEvioReader :=
  let (trigCrate, r) := r.addBank A ⟨"Trig", 46, 0, "Trigger bank"⟩
  let (_, r) := r.newLeaf A trigCrate fun b =>
    b.addThisLeaf (uintLeaf "Headbank" "Headbank data" 57615)
  let (_, r) := r.newLeaf A trigCrate fun b =>
    b.addThisLeaf (uintLeaf "TSBank" "TSBank data" 57610)
  let (ecalCrate, r) := r.newBank A
    (.node { name := "ECAL", title := "Ecal banks", tags := [37, 39] } [])
  let (_, r) := r.newLeaf A ecalCrate fun b => b.addLeaf .fadc "FADC" 57601 0 "FADC mode 1 data"
  { r with ecalCrate := some ecalCrate }

def setup (trigfile : Bool) : HPSEvioReader :=
  let r : HPSEvioReader := {}
  let trigConf : LeafPtr :=
    ⟨.string, { name := "TriggerBank", title := "Trigger configuration data.", tag := 0xE10E,
                num := 0 }⟩
  let info := if trigfile then r.info else r.info.addThisLeaf trigConf
  let info := { info with tags := [128, 17], tagMasks := [128, 17] }
  let head := uintLeaf "Header" "Event Header data" 49152
  { r with info := info.addThisLeaf head }.makeCrates A

def construct (trigfile : Bool) (dataset : Int) : HPSEvioReader :=
  let r := setup A trigfile
  if dataset = 2019 ∨ dataset = 2 then r.set2019Data A
  else if dataset = 2015 ∨ dataset = 2016 ∨ dataset = 1 then r.set2016Data A
  else r

end Make

def unlink (r : HPSEvioReader) : HPSEvioReader := (r.removeIf r.svt).removeIf r.ecalCrate

def getTrigTime (r : HPSEvioReader) (head trigger : UInt64) : UInt64 :=
  if r.isEngineeringRun then head else trigger

def members (r : HPSEvioReader) : List (Option Nat) :=
  [r.svt, r.trigTop, r.trigBot, r.vtpTop, r.vtpBot]

def PointsToLive (r : HPSEvioReader) (p : Option Nat) : Prop := ∃ a ∈ p, a ∈ r.live

/-- The pointer is not null, and what it pointed to is gone. -/
def Dangles (r : HPSEvioReader) (p : Option Nat) : Prop := ∃ a ∈ p, a ∉ r.live

instance (r : HPSEvioReader) (p : Option Nat) : Decidable (r.PointsToLive p) :=
  inferInstanceAs (Decidable (∃ a ∈ p, a ∈ r.live))

instance (r : HPSEvioReader) (p : Option Nat) : Decidable (r.Dangles p) :=
  inferInstanceAs (Decidable (∃ a ∈ p, a ∉ r.live))

/-- The readers are set up alike: they have the same banks, the same members point to live
objects, and they return the same trigger time. -/
structure SetUpAlike (r r' : HPSEvioReader) : Prop where
  banks : r.bank.subs = r'.bank.subs
  members : List.Forall₂ (fun p p' => r.PointsToLive p ↔ r'.PointsToLive p') r.members r'.members
  time : ∀ head trigger, r.getTrigTime head trigger = r'.getTrigTime head trigger

end HPSEvioReader

inductive DataSet
  | set2019 | set2016
  deriving DecidableEq

namespace DataSet

def set (A : Allocator) (r : HPSEvioReader) : DataSet → HPSEvioReader
  | .set2019 => r.set2019Data A
  | .set2016 => r.set2016Data A

def setAll (A : Allocator) (r : HPSEvioReader) (calls : List DataSet) : HPSEvioReader :=
  calls.foldl (set A) r

def ofDataset (dataset : Int) : Option DataSet :=
  if dataset = 2019 ∨ dataset = 2 then some .set2019
  else if dataset = 2015 ∨ dataset = 2016 ∨ dataset = 1 then some .set2016
  else none

end DataSet

end EvioTool
