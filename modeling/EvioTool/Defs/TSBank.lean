import Mathlib.Data.List.Basic
import EvioTool.Lib.Text

/-! `TSBank`: the trigger bits of an event, and the names of the triggers. -/

namespace EvioTool

open Lib

namespace TSBank

def oldTriggerBits : List (UInt32 × UInt32) :=
  [(4, 24), (0, 24), (5, 25), (1, 25), (8, 26), (9, 27), (13, 28), (15, 29)]

/-- `GetTriggerBits().intval`, where `uninit` is what the uninitialised union holds. -/
def getTriggerBits (uninit : UInt32) (data : List UInt32) : UInt32 :=
  if data.length = 7 then data.getD 4 0
  else if data.length = 5 then
    oldTriggerBits.foldl (fun w (k, n) =>
      if data.getD 0 0 &&& (1 : UInt32) <<< n ≠ 0 then w ||| (1 : UInt32) <<< k
      else w &&& ~~~((1 : UInt32) <<< k)) uninit
  else 0

def getTriggerInt (uninit : UInt32) (data : List UInt32) : UInt32 :=
  if data.length = 7 then data.getD 4 0
  else if data.length = 5 then getTriggerBits uninit data
  else 0

def isExactTrigger (uninit : UInt32) (data : List UInt32) (test : UInt32) : Bool :=
  getTriggerInt uninit data == test

def isTrigger (uninit : UInt32) (data : List UInt32) (test : UInt32) : Bool :=
  getTriggerInt uninit data &&& test != 0

def isFCup (data : List UInt32) : Bool :=
  if data.length = 5 then data.getD 0 0 &&& (1 : UInt32) <<< 29 != 0
  else if data.length = 7 ∧ data.getD 5 0 &&& (1 : UInt32) <<< 15 ≠ 0 then true
  else false

def bit (k : Nat) (w : UInt32) : Bool := w.toBitVec.getLsbD k

def isFEE (uninit : UInt32) (data : List UInt32) : Bool :=
  bit 19 (getTriggerBits uninit data) || bit 18 (getTriggerBits uninit data)

def isPair3 (uninit : UInt32) (data : List UInt32) : Bool := bit 11 (getTriggerBits uninit data)

def isMult0 (uninit : UInt32) (data : List UInt32) : Bool := bit 16 (getTriggerBits uninit data)

abbrev NameTable := Std.TreeMap Str UInt8

def triggerNumbers : List (Str × UInt8) :=
  [(str "Single_0_Top", 0), (str "Single_1_Top", 1), (str "Single_2_Top", 2),
   (str "Single_3_Top", 3), (str "Single_0_Bot", 4), (str "Single_1_Bot", 5),
   (str "Single_2_Bot", 6), (str "Single_3_Bot", 7), (str "Pair_0", 8), (str "Pair_1", 9),
   (str "Pair_2", 10), (str "Pair_3", 11), (str "LED", 12), (str "Cosmic", 13),
   (str "Hodoscope", 14), (str "Pulser", 15), (str "Mult_0", 16), (str "Mult_1", 17),
   (str "FEE_Top", 18), (str "FEE_Bot", 19)]

def TriggerNames : NameTable := .ofList triggerNumbers

/-- `IsTrigger(name)`.  The look-up `TriggerNames[name]` enters a name that is missing,
with the number 0. -/
def isTriggerNamed (uninit : UInt32) (data : List UInt32) (name : Str) (names : NameTable) :
    Bool × NameTable :=
  let trig := getTriggerInt uninit data
  let (bits, names) := names.getThenInsertIfNew? name 0
  (trig &&& (1 : UInt32) <<< (bits.getD 0).toUInt32 != 0, names)

def getTriggerName (num : UInt8) (names : NameTable) : Str :=
  match names.toList.find? (·.2 == num) with
  | some entry => entry.1
  | none => str "NA"

/-- A query by name or for a name; each bank that is asked has its own data. -/
inductive NameQuery
  | isTrigger (uninit : UInt32) (data : List UInt32) (name : Str)
  | getTriggerName (num : UInt8)

def NameQuery.exec (names : NameTable) : NameQuery → (Bool ⊕ Str) × NameTable
  | isTrigger uninit data name =>
    let (answer, names) := isTriggerNamed uninit data name names
    (.inl answer, names)
  | getTriggerName num => (.inr (TSBank.getTriggerName num names), names)

def runQueries (names : NameTable) : List NameQuery → List (Bool ⊕ Str) × NameTable
  | [] => ([], names)
  | q :: qs =>
    let (answer, names) := q.exec names
    let (answers, names) := runQueries names qs
    (answer :: answers, names)

end TSBank

end EvioTool
