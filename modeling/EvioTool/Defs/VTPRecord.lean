import EvioTool.Lib.BitField
import EvioTool.Defs.Leaf

/-! VTP records: the structures that the words of a record are copied onto, and the words
of a record by the data format. -/

namespace EvioTool

open Lib

structure BlockHeader where
  blocklevel : BitVec 8
  blocknum : BitVec 10
  nothing : BitVec 4
  slotid : BitVec 5
  type : BitVec 4
  istype : BitVec 1
  deriving DecidableEq

def BlockHeader.read : StateM Nat BlockHeader := do
  let blocklevel ← field 8
  let blocknum ← field 10
  let nothing ← field 4
  let slotid ← field 5
  let type ← field 4
  let istype ← field 1
  pure { blocklevel, blocknum, nothing, slotid, type, istype }

structure BlockTail where
  nwords : BitVec 22
  slotid : BitVec 5
  type : BitVec 4
  istype : BitVec 1
  deriving DecidableEq

def BlockTail.read : StateM Nat BlockTail := do
  let nwords ← field 22
  let slotid ← field 5
  let type ← field 4
  let istype ← field 1
  pure { nwords, slotid, type, istype }

structure EventHeader where
  eventnum : BitVec 27
  type : BitVec 4
  istype : BitVec 1
  deriving DecidableEq

def EventHeader.read : StateM Nat EventHeader := do
  let eventnum ← field 27
  let type ← field 4
  let istype ← field 1
  pure { eventnum, type, istype }

/-- The fields `X` and `Y` are of type `int`, so their highest bit is a sign. -/
structure HPSCluster_t where
  X : Int
  Y : Int
  E : BitVec 13
  subtype : BitVec 4
  type : BitVec 4
  istype : BitVec 1
  T : BitVec 10
  N : BitVec 4
  nothing : BitVec 18
  deriving DecidableEq

def HPSCluster_t.read : StateM Nat HPSCluster_t := do
  let X ← field 6
  let Y ← field 4
  let E ← field 13
  let subtype ← field 4
  let type ← field 4
  let istype ← field 1
  let T ← field 10
  let N ← field 4
  let nothing ← field 18
  pure { X := X.toInt, Y := Y.toInt, E, subtype, type, istype, T, N, nothing }

structure HPSClusterMult_t where
  T : BitVec 10
  multtop : BitVec 4
  multbot : BitVec 4
  multtot : BitVec 4
  bitinst : BitVec 1
  subtype : BitVec 4
  type : BitVec 4
  istype : BitVec 1
  deriving DecidableEq

def HPSClusterMult_t.read : StateM Nat HPSClusterMult_t := do
  let T ← field 10
  let multtop ← field 4
  let multbot ← field 4
  let multtot ← field 4
  let bitinst ← field 1
  let subtype ← field 4
  let type ← field 4
  let istype ← field 1
  pure { T, multtop, multbot, multtot, bitinst, subtype, type, istype }

structure HPSFEETrig_t where
  T : BitVec 10
  region : BitVec 7
  reserved : BitVec 6
  subtype : BitVec 4
  type : BitVec 4
  istype : BitVec 1
  deriving DecidableEq

def HPSFEETrig_t.read : StateM Nat HPSFEETrig_t := do
  let T ← field 10
  let region ← field 7
  let reserved ← field 6
  let subtype ← field 4
  let type ← field 4
  let istype ← field 1
  pure { T, region, reserved, subtype, type, istype }

/-- What a VTP word can start, with the contents of each bit range; bits without a
meaning are arbitrary, but for bit 31 of a continuation word. -/
inductive VTPRecord
  | blockHeader (slotid : BitVec 5) (unused : BitVec 4) (blockNumber : BitVec 10)
      (blockLevel : BitVec 8)
  | blockTail (slotid : BitVec 5) (nwords : BitVec 22)
  | eventHeader (eventnum : BitVec 27)
  | trigTime (unused : BitVec 3) (timel : BitVec 24) (unused' : BitVec 7) (timeh : BitVec 24)
  | cluster (E : BitVec 13) (Y : BitVec 4) (X : BitVec 6) (unused : BitVec 17) (N : BitVec 4)
      (T : BitVec 10)
  | singleTrig (fields : BitVec 23)
  | pairTrig (fields : BitVec 23)
  | calibTrig (fields : BitVec 23)
  | multTrig (inst : BitVec 1) (multTot multBot multTop : BitVec 4) (T : BitVec 10)
  | feeTrig (reserved : BitVec 6) (region : BitVec 7) (T : BitVec 10)
  | unknownType (type : BitVec 4) (fields : BitVec 27)
      (h : type ∉ [0, 1, 2, 3, 12])
  | unknownSubtype (subtype : BitVec 4) (fields : BitVec 23) (h : subtype ∉ [2, 3, 4, 5, 6, 7])
  | continuation (fields : BitVec 31)

namespace VTPRecord

def word (type : BitVec 4) (fields : BitVec 27) : UInt32 := .ofBitVec (1#1 ++ type ++ fields)

def expansion (subtype : BitVec 4) (fields : BitVec 23) : UInt32 := word 12 (subtype ++ fields)

def continuationWord (fields : BitVec 31) : UInt32 := .ofBitVec (0#1 ++ fields)

def encode : VTPRecord → List UInt32
  | blockHeader slotid unused blockNumber blockLevel =>
    [word 0 (slotid ++ unused ++ blockNumber ++ blockLevel)]
  | blockTail slotid nwords => [word 1 (slotid ++ nwords)]
  | eventHeader eventnum => [word 2 eventnum]
  | trigTime unused timel unused' timeh =>
    [word 3 (unused ++ timel), continuationWord (unused' ++ timeh)]
  | cluster E Y X unused N T => [expansion 2 (E ++ Y ++ X), continuationWord (unused ++ N ++ T)]
  | singleTrig fields => [expansion 3 fields]
  | pairTrig fields => [expansion 4 fields]
  | calibTrig fields => [expansion 5 fields]
  | multTrig inst multTot multBot multTop T =>
    [expansion 6 (inst ++ multTot ++ multBot ++ multTop ++ T)]
  | feeTrig reserved region T => [expansion 7 (reserved ++ region ++ T)]
  | unknownType type fields _ => [word type fields]
  | unknownSubtype subtype fields _ => [expansion subtype fields]
  | continuation fields => [continuationWord fields]

def blockHeader? : VTPRecord → Option BlockHeader
  | blockHeader slotid unused blockNumber blockLevel =>
    some { blocklevel := blockLevel, blocknum := blockNumber, nothing := unused, slotid, type := 0,
           istype := 1 }
  | _ => none

def blockTail? : VTPRecord → Option BlockTail
  | blockTail slotid nwords => some { nwords, slotid, type := 1, istype := 1 }
  | _ => none

def eventHeader? : VTPRecord → Option EventHeader
  | eventHeader eventnum => some { eventnum, type := 2, istype := 1 }
  | _ => none

def cluster? : VTPRecord → Option HPSCluster_t
  | cluster E Y X unused N T =>
    some { X := X.toInt, Y := Y.toInt, E, subtype := 2, type := 12, istype := 1, T, N,
           nothing := 0#1 ++ unused }
  | _ => none

def multTrig? : VTPRecord → Option HPSClusterMult_t
  | multTrig inst multTot multBot multTop T =>
    some { T, multtop := multTop, multbot := multBot, multtot := multTot, bitinst := inst,
           subtype := 6, type := 12, istype := 1 }
  | _ => none

def feeTrig? : VTPRecord → Option HPSFEETrig_t
  | feeTrig reserved region T =>
    some { T, region, reserved, subtype := 7, type := 12, istype := 1 }
  | _ => none

def isSingleTrig : VTPRecord → Bool
  | singleTrig _ => true
  | _ => false

def isPairTrig : VTPRecord → Bool
  | pairTrig _ => true
  | _ => false

def isCalibTrig : VTPRecord → Bool
  | calibTrig _ => true
  | _ => false

end VTPRecord

namespace VTPBank

def blockHeaderRecord (v : VTPBank) : BlockHeader := (BlockHeader.read.run v.blockHeader.toNat).1

def blockTailRecord (v : VTPBank) : BlockTail := (BlockTail.read.run v.blockTail.toNat).1

def eventHeaderRecord (v : VTPBank) : EventHeader := (EventHeader.read.run v.eventHeader.toNat).1

def clusterRecords (v : VTPBank) : List HPSCluster_t :=
  v.clusters.map fun w => (HPSCluster_t.read.run w.toNat).1

def multRecords (v : VTPBank) : List HPSClusterMult_t :=
  v.clustermult.map fun w => (HPSClusterMult_t.read.run w.toNat).1

def feeRecords (v : VTPBank) : List HPSFEETrig_t :=
  v.feetrigger.map fun w => (HPSFEETrig_t.read.run w.toNat).1

end VTPBank

end EvioTool
