import EvioTool.Defs.AddOrFillLeaf

/-! Slot records of FADC composite banks. -/

namespace EvioTool

open Lib

inductive FADCFormat
  | samples | values | chanVals
  deriving DecidableEq

namespace FADCFormat

def tag : FADCFormat → UInt16
  | samples => 57601
  | values => 57650
  | chanVals => 57622

def Entry : FADCFormat → Type
  | samples => UInt8 × List UInt16
  | values => UInt32
  | chanVals => UInt8 × UInt16

def entryBytes : (f : FADCFormat) → f.Entry → List UInt8
  | samples, (chan, ss) => chan :: (toBytes 4 ss.length ++ pack 2 (ss.map UInt16.toBitVec))
  | values, v => toBytes 4 v.toNat
  | chanVals, (chan, val) => chan :: toBytes 2 val.toNat

/-- The record of an entry in a slot of which `d` is known. -/
def hit (d : FADCdata) : (f : FADCFormat) → f.Entry → FADCdata
  | samples, (chan, ss) => { d with chan, samples := ss }
  | values, v => { d with iAdc := v }
  | chanVals, (chan, val) => { d with chan, adc := val }

end FADCFormat

structure FADCSlot (f : FADCFormat) where
  slot : UInt8
  trig : UInt32
  time : UInt64
  entries : List f.Entry

namespace FADCSlot

variable {f : FADCFormat}

def bytes (s : FADCSlot f) : List UInt8 :=
  s.slot :: (toBytes 4 s.trig.toNat ++ (toBytes 8 s.time.toNat ++
    (toBytes 4 s.entries.length ++ s.entries.flatMap f.entryBytes)))

def hits (crate : UInt8) (s : FADCSlot f) : List FADCdata :=
  s.entries.map (f.hit { crate, slot := s.slot, trig := s.trig, reftime := s.time })

end FADCSlot

def fadcPayload (head : UInt32) (format : List UInt32) (dataTag : UInt32) (data : List UInt32) :
    List UInt32 :=
  head :: (format ++ UInt32.ofNat (data.length + 1) :: dataTag :: data)

/-- The head gives the length of the format, and the data are the packed slots, filled up
to whole words. -/
structure Packs {f : FADCFormat} (slots : List (FADCSlot f)) (head : UInt32)
    (format data : List UInt32) : Prop where
  format : (head &&& 0xFFFF).toNat = format.length
  data : ∃ pad, pad.length < 4 ∧ Mem.wordBytes data = slots.flatMap FADCSlot.bytes ++ pad

end EvioTool
