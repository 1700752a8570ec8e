import EvioTool.Lib.Layout
import EvioTool.Defs.Leaf

/-! The trigger records of `VTPBank`, whose structures have a structure nested in them, and
the bits of their words by the data format. -/

namespace EvioTool

open Lib

structure SinglePass where
  emin : BitVec 1
  emax : BitVec 1
  nmin : BitVec 1
  xmin : BitVec 1
  pose : BitVec 1
  hodo1c : BitVec 1
  hodo2c : BitVec 1
  hodogeo : BitVec 1
  hodoecal : BitVec 1
  deriving DecidableEq

structure HPSSingleTrig_t where
  T : BitVec 10
  Pass : SinglePass
  topnbot : BitVec 1
  inst : BitVec 3
  subtype : BitVec 4
  type : BitVec 4
  istype : BitVec 1
  deriving DecidableEq

def SinglePass.layout : Layout SinglePass :=
  SinglePass.mk <$> .bits 8 1 <*> .bits 8 1 <*> .bits 8 1 <*> .bits 8 1 <*> .bits 8 1 <*>
    .bits 8 1 <*> .bits 8 1 <*> .bits 8 1 <*> .bits 8 1

def HPSSingleTrig_t.layout : Layout HPSSingleTrig_t :=
  HPSSingleTrig_t.mk <$> .bits 32 10 <*> .nested SinglePass.layout <*> .bits 8 1 <*>
    .bits 32 3 <*> .bits 32 4 <*> .bits 32 4 <*> .bits 8 1

structure PairPass where
  clusesum : BitVec 1
  clusedif : BitVec 1
  eslope : BitVec 1
  coplane : BitVec 1
  dummy : BitVec 5
  deriving DecidableEq

structure HPSPairTrig_t where
  T : BitVec 10
  Pass : PairPass
  topnbot : BitVec 1
  inst : BitVec 3
  subtype : BitVec 4
  type : BitVec 4
  istype : BitVec 1
  deriving DecidableEq

def PairPass.layout : Layout PairPass :=
  PairPass.mk <$> .bits 8 1 <*> .bits 8 1 <*> .bits 8 1 <*> .bits 8 1 <*> .bits 32 5

def HPSPairTrig_t.layout : Layout HPSPairTrig_t :=
  HPSPairTrig_t.mk <$> .bits 32 10 <*> .nested PairPass.layout <*> .bits 8 1 <*>
    .bits 32 3 <*> .bits 32 4 <*> .bits 32 4 <*> .bits 8 1

structure CalibType where
  cosmic : BitVec 1
  led : BitVec 1
  hodoscope : BitVec 1
  pulser : BitVec 1
  deriving DecidableEq

structure HPSCalibTrig_t where
  T : BitVec 10
  reserved : BitVec 9
  trigtype : CalibType
  subtype : BitVec 4
  type : BitVec 4
  istype : BitVec 1
  deriving DecidableEq

def CalibType.layout : Layout CalibType :=
  CalibType.mk <$> .bits 8 1 <*> .bits 8 1 <*> .bits 8 1 <*> .bits 8 1

def HPSCalibTrig_t.layout : Layout HPSCalibTrig_t :=
  HPSCalibTrig_t.mk <$> .bits 32 10 <*> .bits 32 9 <*> .nested CalibType.layout <*>
    .bits 32 4 <*> .bits 32 4 <*> .bits 8 1

-- the third bit field of `Pass` starts two bytes behind the start of `T`, not at bit 12
example : (HPSSingleTrig_t.layout.get (0x00040000 : BitVec 64)).Pass.nmin = 1 := by decide

/-- The bits `0(hi:lo)` of the format comment. -/
def HPSSingleTrig_t.documented (word : UInt32) : HPSSingleTrig_t :=
  let w := word.toBitVec
  { T := w.extractLsb 9 0
    Pass :=
      { emin := w.extractLsb 10 10
        emax := w.extractLsb 11 11
        nmin := w.extractLsb 12 12
        xmin := w.extractLsb 13 13
        pose := w.extractLsb 14 14
        hodo1c := w.extractLsb 15 15
        hodo2c := w.extractLsb 16 16
        hodogeo := w.extractLsb 17 17
        hodoecal := w.extractLsb 18 18 }
    topnbot := w.extractLsb 19 19
    inst := w.extractLsb 22 20
    subtype := w.extractLsb 26 23
    type := w.extractLsb 30 27
    istype := w.extractLsb 31 31 }

def HPSPairTrig_t.documented (word : UInt32) : HPSPairTrig_t :=
  let w := word.toBitVec
  { T := w.extractLsb 9 0
    Pass :=
      { clusesum := w.extractLsb 10 10
        clusedif := w.extractLsb 11 11
        eslope := w.extractLsb 12 12
        coplane := w.extractLsb 13 13
        dummy := w.extractLsb 18 14 }
    topnbot := w.extractLsb 19 19
    inst := w.extractLsb 22 20
    subtype := w.extractLsb 26 23
    type := w.extractLsb 30 27
    istype := w.extractLsb 31 31 }

def HPSCalibTrig_t.documented (word : UInt32) : HPSCalibTrig_t :=
  let w := word.toBitVec
  { T := w.extractLsb 9 0
    reserved := w.extractLsb 18 10
    trigtype :=
      { cosmic := w.extractLsb 19 19
        led := w.extractLsb 20 20
        hodoscope := w.extractLsb 21 21
        pulser := w.extractLsb 22 22 }
    subtype := w.extractLsb 26 23
    type := w.extractLsb 30 27
    istype := w.extractLsb 31 31 }

namespace VTPBank

abbrev IsType (k : Nat) (w : UInt32) : Prop :=
  w &&& (1 : UInt32) <<< 31 ≠ 0 ∧ ((w >>> 27) &&& 0x0F).toNat = k

abbrev IsHPS (k : Nat) (w : UInt32) : Prop :=
  IsType 12 w ∧ ((w >>> 23) &&& 0x0F).toNat = k

def put (w c : UInt32) (v : VTPBank) : VTPBank :=
  if w &&& (1 : UInt32) <<< 31 ≠ 0 then
    match ((w >>> 27) &&& 0x0F).toNat with
    | 0 => { v with blockHeader := w }
    | 1 => { v with blockTail := w }
    | 2 => { v with eventHeader := w }
    | 3 =>
      { v with trigTime :=
          UInt32.toUInt64 ((w &&& 0x00FFFFFF) + (c &&& 0x00FFFFFF) <<< (24 : UInt32)) }
    | 12 => match ((w >>> 23) &&& 0x0F).toNat with
      | 2 => { v with clusters := v.clusters ++ [w.toUInt64 + c.toUInt64 <<< 32] }
      | 3 => { v with singletrigs := v.singletrigs ++ [w] }
      | 4 => { v with pairtrigs := v.pairtrigs ++ [w] }
      | 5 => { v with calibtrigs := v.calibtrigs ++ [w] }
      | 6 => { v with clustermult := v.clustermult ++ [w] }
      | 7 => { v with feetrigger := v.feetrigger ++ [w] }
      | _ => v
    | _ => v
  else v

/-- `parseWords` where `past` is what a read past the end of `data` finds. -/
def parseWordsPast (past : UInt32) : List UInt32 → VTPBank → VTPBank
  | [], v => v
  | w :: rest, v =>
    let u := v.put w (rest.head?.getD past)
    if IsType 3 w then
      -- the `i++` of a trigger time
      match rest with
      | [] => u
      | _ :: rest => parseWordsPast past rest u
    else parseWordsPast past rest u

def parseBankPast (past : UInt32) (data : List UInt32) (v : VTPBank) : VTPBank :=
  parseWordsPast past data v.clear

def vtpWords : List UInt32 → List UInt32
  | [] => []
  | w :: rest =>
    if IsType 3 w then
      match rest with
      | [] => [w]
      | _ :: rest => w :: vtpWords rest
    else w :: vtpWords rest

def trigWords (k : Nat) (ws : List UInt32) : List UInt32 := (vtpWords ws).filter (IsHPS k)

/-- What the memory of a local `strig`, `ptrig` or `ctrig` holds behind the word that is
copied onto it, at the `k`-th record of its kind. -/
structure Leftover where
  strig : Nat → BitVec 32
  ptrig : Nat → BitVec 64
  ctrig : Nat → BitVec 32

def singleRecords (left : Leftover) (v : VTPBank) : List HPSSingleTrig_t :=
  v.singletrigs.mapIdx fun k w => HPSSingleTrig_t.layout.get (left.strig k ++ w.toBitVec)

def pairRecords (left : Leftover) (v : VTPBank) : List HPSPairTrig_t :=
  v.pairtrigs.mapIdx fun k w => HPSPairTrig_t.layout.get (left.ptrig k ++ w.toBitVec)

def calibRecords (left : Leftover) (v : VTPBank) : List HPSCalibTrig_t :=
  v.calibtrigs.mapIdx fun k w => HPSCalibTrig_t.layout.get (left.ctrig k ++ w.toBitVec)

end VTPBank

end EvioTool
