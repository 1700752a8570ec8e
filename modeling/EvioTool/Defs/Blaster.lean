import EvioTool.Defs.EvioTool
import EvioTool.Lib.Interleave

/-! `et_evio_blaster`: the events of files are put on an ET ring. -/

namespace EvioTool

open Lib Exec

def EOF : Int := -1
def ET_ERROR_WAKEUP : Int := -4
def ET_ERROR_TIMEOUT : Int := -5
def ET_ERROR_BUSY : Int := -7
def ET_ERROR_DEAD : Int := -8

structure BlasterArgs where
  chunk : Nat := 1
  et_event_size_max : Int32 := 32768

structure EvioFile where
  evOpen : Int := S_SUCCESS
  events : List (List UInt32) := []
  ending : Int := EOF
  ended : ending ≠ S_SUCCESS := by decide

/-- What ET answers to the `k`-th `et_events_new` and to the put that follows it. -/
structure EtSystem where
  new : Nat → GetAnswer
  put : Nat → Int

inductive BlasterStop
  | fuel | outside | exit
  deriving DecidableEq

structure Blaster where
  evio : EvioFile := {}
  requests : Nat := 0
  fresh : Nat := 0
  put : List EtEvent := []

def recordHeader (mylen : UInt32) : List UInt32 :=
  [mylen + 8, 1, 8, 1, 0, 0x204, 0, 0xc0da0100]

def EtData.copyEvent (d : EtData) (evio : List UInt32) : Option EtData :=
  let evio_buflen := UInt32.ofNat evio.length
  let ws := recordHeader evio_buflen ++ evio.take evio_buflen.toNat
  if h : ws.length ≤ d.words.length then
    some
      { words := ws ++ d.words.drop ws.length
        length := 4 * (evio_buflen + 8).toNat
        fits := by
          have hws : (evio_buflen + 8).toNat ≤ ws.length := by
            have hadd : (evio_buflen + 8).toNat ≤ evio_buflen.toNat + 8 := Nat.mod_le _ _
            have hlen : evio_buflen.toNat ≤ evio.length := Nat.mod_le _ _
            simp only [ws, recordHeader, List.length_append, List.length_cons, List.length_nil,
              List.length_take]
            omega
          simp only [List.length_append, List.length_drop]
          omega }
  else none

def evReadNoCopy : Exec BlasterStop Empty Blaster (Int × List UInt32) := do
  let evio ← gets Blaster.evio
  match evio.events with
  | [] => pure (evio.ending, [])
  | event :: events =>
    modify fun s => { s with evio := { evio with events } }
    pure (S_SUCCESS, event)

def fillEvents (args : BlasterArgs) :
    List EtEvent → Exec BlasterStop Empty Blaster (List EtEvent × Bool)
  | [] => pure ([], true)
  | e :: es => do
    let (status, evio) ← evReadNoCopy
    if status ≠ S_SUCCESS then pure (e :: es, false)
    else
      let evio_buflen := UInt32.ofNat evio.length
      if args.et_event_size_max.toUInt32 < evio_buflen + 16 then pure (e :: es, true)
      else
        let data ← demand .outside (e.data.copyEvent evio)
        let (es, evio_has_events) ← fillEvents args es
        pure ({ e with data } :: es, evio_has_events)

def ET_breaks : List Int :=
  [ET_ERROR_DEAD, ET_ERROR_TIMEOUT, ET_ERROR_EMPTY, ET_ERROR_BUSY, ET_ERROR_WAKEUP]

def putChunk (args : BlasterArgs) (et : EtSystem) : Exec BlasterStop Empty Blaster Bool := do
  let s ← get
  let answer := et.new s.requests
  modify fun s => { s with requests := s.requests + 1 }
  if answer.status = ET_OK then
    let granted := answer.events (max 1 args.chunk) s.fresh
    modify fun s => { s with fresh := s.fresh + granted.length }
    let (es, evio_has_events) ← fillEvents args granted
    modify fun s => { s with put := s.put ++ es }
    let status := et.put s.requests
    if status = ET_OK then pure evio_has_events
    else if status = ET_ERROR_DEAD then pure false
    else halt .exit
  else if answer.status ∈ ET_breaks then pure false
  else halt .exit

def blastFile (args : BlasterArgs) (et : EtSystem) : Nat → Exec BlasterStop Empty Blaster Unit
  | 0 => halt .fuel
  | fuel + 1 => do
    let more ← putChunk args et
    if more then blastFile args et fuel else pure ()

def blastFiles (args : BlasterArgs) (et : EtSystem) (fuel : Nat) :
    List EvioFile → Exec BlasterStop Empty Blaster Unit
  | [] => pure ()
  | file :: files => do
    if file.evOpen ≠ S_SUCCESS then halt .exit
    else
      modify fun s => { s with evio := file }
      blastFile args et fuel
      blastFiles args et fuel files

def EtData.used (d : EtData) : List UInt32 := d.words.take (d.length / 4)

def record (event : List UInt32) : List UInt32 :=
  recordHeader (UInt32.ofNat event.length) ++ event

def BlasterArgs.Fits (args : BlasterArgs) (event : List UInt32) : Prop :=
  event.length + 16 ≤ args.et_event_size_max.toInt

instance (args : BlasterArgs) : DecidablePred args.Fits := fun _ => inferInstanceAs (Decidable (_ ≤ _))

def fileEvents (files : List EvioFile) : List (List UInt32) := files.flatMap EvioFile.events

def BlasterArgs.requested (args : BlasterArgs) : Nat :=
  (args.et_event_size_max.toInt64.toUInt64 * 4).toNat

/-- ET always grants events of the size that is asked for, and takes them back. -/
structure EtSystem.Grants (et : EtSystem) (args : BlasterArgs) : Prop where
  new : ∀ k, ∃ d ds, et.new k = .ok d ds ∧ ∀ x ∈ d :: ds, args.requested ≤ 4 * x.words.length
  put : ∀ k, et.put k = ET_OK

structure World.Waits (w : World) : Prop where
  et : w.tool.fReadFromEt = true
  ended : w.tool.fEventValid = false
  chunk : w.tool.fCurrentChunk < 0
  size : 0 < w.tool.fEtReadChunkSize
  buffer : ∃ b, w.tool.fPEventBuffer = some b ∧ b ≠ []

def EtData.Recovers (d : EtData) (event : List UInt32) : Prop :=
  ∀ w : World, w.Waits → ∃ t b, Returns (nextNoParse { get := .ok d [] }) w ET_OK t ∧
    t.tool.fEvioBuf = some b ∧ (b.words.drop b.offset).take event.length = event

structure PutsOnce (args : BlasterArgs) (files : List EvioFile) (put : List EtEvent) : Prop where
  records : put.map (fun e => e.data.used) =
    ((fileEvents files).filter fun event => args.Fits event).map record
  recovers : ∀ e ∈ put, ∃ event, e.data.used = record event ∧ e.data.Recovers event

end EvioTool
