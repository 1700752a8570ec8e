import Mathlib.Logic.Function.Basic
import EvioTool.Defs.DAQMap
import EvioTool.Lib.CInt
import EvioTool.Lib.Exec
import EvioTool.Lib.Text

/-! `TriggerConfig`: the configuration of the trigger, from a file or from a leaf of strings. -/

namespace EvioTool

open Lib Exec

/-- Thresholds are floats that are assigned from `int`s; they are kept as those. -/
structure FADC250_slot_t where
  slot : Int := 0
  NSB : Int := 0
  NSA : Int := 0
  npeak : Int := 0
  w_offset : Int := 0
  window : Int := 0
  pedestal : List Rat := List.replicate 16 0
  gain : List Rat := List.replicate 16 0
  threshold : List Int := List.replicate 16 0
  subsystem : List Int := List.replicate 16 0
  ix : List Int := List.replicate 16 0
  iy : List Int := List.replicate 16 0
  deriving DecidableEq

inductive Setting
  | NSB | NSA | NPEAK | TET | W_OFFSET | W_WIDTH
  deriving DecidableEq

namespace FADC250_slot_t

def set_sxy (s : FADC250_slot_t) (chan : Nat) (sub x y : Int) : FADC250_slot_t :=
  { s with
    subsystem := s.subsystem.set chan sub
    ix := s.ix.set chan x
    iy := s.iy.set chan y }

def put (s : FADC250_slot_t) (v : Int) : Setting → FADC250_slot_t
  | .NSB => { s with NSB := v }
  | .NSA => { s with NSA := v }
  | .NPEAK => { s with npeak := v }
  | .TET => { s with threshold := s.threshold.map fun _ => v }
  | .W_OFFSET => { s with w_offset := v }
  | .W_WIDTH => { s with window := v }

end FADC250_slot_t

structure FADC250_crate_t where
  crate : Nat := 0
  mode : Int := 0
  all_slots : FADC250_slot_t := {}
  slots : Int → Option FADC250_slot_t := fun _ => none

namespace FADC250_crate_t

/-- A change of `slots[k]`; the slot is created when there is none. -/
def onSlot (c : FADC250_crate_t) (k : Int) (f : FADC250_slot_t → FADC250_slot_t) :
    FADC250_crate_t :=
  { c with slots := Function.update c.slots k (some (f ((c.slots k).getD {}))) }

def addSlot (c : FADC250_crate_t) (k : Int) : FADC250_crate_t :=
  match c.slots k with
  | some _ => c
  | none =>
    let all := c.all_slots
    c.onSlot k fun s =>
      { s with
        slot := k, NSB := all.NSB, NSA := all.NSA, npeak := all.npeak, w_offset := all.w_offset,
        window := all.window, pedestal := all.pedestal, gain := all.gain,
        threshold := all.threshold }

def putAll (c : FADC250_crate_t) (v : Int) (f : Setting) : FADC250_crate_t :=
  { c with
    all_slots := c.all_slots.put v f
    slots := fun k => (c.slots k).map (·.put v f) }

end FADC250_crate_t

def growCrates (n : Nat) (crates : List FADC250_crate_t) : List FADC250_crate_t :=
  crates ++ (List.range' crates.length (n + 1 - crates.length)).map fun k => { crate := k }

structure TriggerConfig where
  data : List Str := []
  raw_data : List Str := []
  vtp_configs : Str → Option (List (Str → Option (List Rat))) := fun _ => none
  vtp_other : Str → Option (List Rat) := fun _ => none
  crates : List FADC250_crate_t := []

namespace TriggerConfig

def parse_configs : List Str := [str "SINGLE", str "PAIR", str "MULT"]

instance (config : Str) : Decidable (config ∈ parse_configs) :=
  inferInstanceAs (Decidable (config ∈ [str "SINGLE", str "PAIR", str "MULT"]))

def onCrate (t : TriggerConfig) (crnum : Nat) (f : FADC250_crate_t → FADC250_crate_t) :
    TriggerConfig :=
  { t with crates := t.crates.modify crnum f }

def setConfig (t : TriggerConfig) (config : Str) (maps : List (Str → Option (List Rat))) :
    TriggerConfig :=
  { t with vtp_configs := Function.update t.vtp_configs config (some maps) }

def setOther (t : TriggerConfig) (key : Str) (values : List Rat) : TriggerConfig :=
  { t with vtp_other := Function.update t.vtp_other key (some values) }

end TriggerConfig

/-- An exception of the standard library, or a write outside a vector. -/
inductive ConfigStop
  | exception | outside
  deriving DecidableEq

/-- What the uninitialised locals hold when an extraction leaves them as they are: one value each,
which stands for what is found there in every line of a run. -/
structure Uninit where
  chan : Int
  thres : Int
  prescale_val : Rat

structure ParseVars where
  vtp_parse_area : Bool := false
  fadc_crate_number : Nat := 0
  fadc_current_slot : Int := 0
  config_num : Int := 0

structure ParseState extends ParseVars where
  config : TriggerConfig

def lineTok (line : Str) : Str := line.takeWhile (!Str.isBlank ·)

def lineDat (line : Str) : Str :=
  let dat := match line.dropWhile (!Str.isBlank ·) with
    | [] => line
    | _ :: dat => dat
  dat.trimLeft.trimRight

def onConfig (f : TriggerConfig → TriggerConfig) : Exec ConfigStop Int ParseState Unit :=
  modify fun s => { s with config := f s.config }

def toSize (n : Int) : Nat := (n % 2 ^ 64).toNat

def max_size : Nat := (2 ^ 63 - 1) / 48

/-- Maps are added until there are `config_num + 1`; that there is memory for `max_size` of
them is taken for granted. -/
def growConfigs (config_num : Int) (maps : List (Str → Option (List Rat))) :
    Option (List (Str → Option (List Rat))) :=
  let size := toSize (toInt32 (config_num + 1))
  if size ≤ maps.length then some maps
  else if size ≤ max_size then some (maps ++ List.replicate (size - maps.length) fun _ => none)
  else none

def fee (item dat : Str) : Exec ConfigStop Int ParseState Unit :=
  let fee_item := str "FEE" ++ str "_" ++ item
  let iss : IStream := { rest := dat }
  if item = str "PRESCALE" then
    let (prescale_num, iss) := iss.word []
    onConfig (·.setOther (fee_item ++ str "_" ++ prescale_num) iss.doubles)
  else onConfig (·.setOther fee_item iss.doubles)

def prescale (u : Uninit) (config dat : Str) : Exec ConfigStop Int ParseState Unit :=
  let (prescale_num, iss) := IStream.word { rest := dat } []
  let (prescale_val, _) := iss.double u.prescale_val
  onConfig (·.setOther (config ++ str "_" ++ prescale_num) [prescale_val])

def vtpConfig (config item dat : Str) : Exec ConfigStop Int ParseState Unit := do
  onConfig fun t => if (t.vtp_configs config).isSome then t else t.setConfig config []
  let (config_num, iss) := IStream.int { rest := dat } (← gets fun s => s.config_num)
  modify fun s => { s with config_num }
  let maps ← gets fun s => (s.config.vtp_configs config).getD []
  let maps ← demand .exception (growConfigs config_num maps)
  onConfig (·.setConfig config
    (maps.modify (toSize config_num) fun m => Function.update m item (some iss.doubles)))

def vtpLine (u : Uninit) (tok dat : Str) : Exec ConfigStop Int ParseState Unit :=
  if tok.take 8 = str "VTP_HPS_" then
    let pos_third_underscore := Str.find tok 95 9
    let config := match pos_third_underscore with
      | some pos => (tok.drop 8).take (pos - 8)
      | none => tok.drop 8
    let item := match pos_third_underscore with
      | some pos => if pos > 255 then [] else tok.drop (pos + 1)
      | none => []
    if config = str "FEE" then fee item dat
    else if config = str "PRESCALE" then prescale u config dat
    else if config ∈ TriggerConfig.parse_configs then vtpConfig config item dat
    else onConfig (·.setOther (config ++ str "_" ++ item) (IStream.doubles { rest := dat }))
  else pure ()

def setting (crnum : Nat) (dat : Str) (f : Setting) : Exec ConfigStop Int ParseState Unit := do
  let v ← demand .exception (Str.stoi dat)
  let cur ← gets fun s => s.fadc_current_slot
  onConfig (·.onCrate crnum fun c => if cur = 0 then c.putAll v f else c.onSlot cur (·.put v f))

/-- A setting that a slot has to be named for; the log has the channels that are written. -/
def channelThreshold (u : Uninit) (crnum : Nat) (dat : Str) :
    Exec ConfigStop Int ParseState Unit := do
  let cur ← gets fun s => s.fadc_current_slot
  if cur = 0 then pure ()
  else
    let (chan, iss) := IStream.int { rest := dat } u.chan
    let (thres, _) := iss.int u.thres
    onConfig (·.onCrate crnum (·.onSlot cur id))
    let size ← gets fun s => (((s.config.crates.getD crnum {}).slots cur).getD {}).threshold.length
    tell chan
    if 0 ≤ chan ∧ chan < size then
      onConfig (·.onCrate crnum (·.onSlot cur fun s =>
        { s with threshold := s.threshold.set chan.toNat thres }))
    else halt .outside

def channelValues (crnum : Nat) (f : FADC250_slot_t → FADC250_slot_t) :
    Exec ConfigStop Int ParseState Unit := do
  let cur ← gets fun s => s.fadc_current_slot
  if cur = 0 then pure ()
  else onConfig (·.onCrate crnum (·.onSlot cur f))

def fadcLine (u : Uninit) (crnum : Nat) (tok dat : Str) : Exec ConfigStop Int ParseState Unit := do
  onConfig fun t => { t with crates := growCrates crnum t.crates }
  if tok = str "FADC250_SLOT" then
    if dat = str "all" then modify fun s => { s with fadc_current_slot := 0 }
    else do
      let k ← demand .exception (Str.stoi dat)
      modify fun s => { s with fadc_current_slot := k }
      onConfig (·.onCrate crnum (·.addSlot k))
  else if tok = str "FADC250_MODE" then do
    let v ← demand .exception (Str.stoi dat)
    onConfig (·.onCrate crnum fun c => { c with mode := v })
  else if tok = str "FADC250_NSB" then setting crnum dat .NSB
  else if tok = str "FADC250_NSA" then setting crnum dat .NSA
  else if tok = str "FADC250_NPEAK" then setting crnum dat .NPEAK
  else if tok = str "FADC250_TET" then setting crnum dat .TET
  else if tok = str "FADC250_W_OFFSET" then setting crnum dat .W_OFFSET
  else if tok = str "FADC250_W_WIDTH" then setting crnum dat .W_WIDTH
  else if tok = str "FADC250_CH_TET" then channelThreshold u crnum dat
  else if tok = str "FADC250_ALLCH_GAIN" then
    channelValues crnum fun s => { s with gain := IStream.floats { rest := dat } }
  else if tok = str "FADC250_ALLCH_PED" then
    channelValues crnum fun s => { s with pedestal := IStream.floats { rest := dat } }
  else pure ()

def VTP_CRATE (dat : Str) (vtp_parse_area : Bool) : Bool :=
  if dat = str "all" then true else if dat = str "end" then false else vtp_parse_area

def FADC250_CRATE (dat : Str) (fadc_crate_number : Nat) : Nat :=
  if dat = str "hps1" then 1
  else if dat = str "hps2" then 2
  else if dat = str "end" then 0
  else fadc_crate_number

def parseLine (u : Uninit) (line : Str) : Exec ConfigStop Int ParseState Unit := do
  let tok := lineTok line
  let dat := lineDat line
  if tok = str "VTP_CRATE" then
    modify fun s => { s with vtp_parse_area := VTP_CRATE dat s.vtp_parse_area }
  else if tok = str "FADC250_CRATE" then
    modify fun s => { s with fadc_crate_number := FADC250_CRATE dat s.fadc_crate_number }
  else
    let vtp_parse_area ← gets fun s => s.vtp_parse_area
    when vtp_parse_area (vtpLine u tok dat)
    let fadc_crate_number ← gets fun s => s.fadc_crate_number
    when (fadc_crate_number ≠ 0) (fadcLine u fadc_crate_number tok dat)

def parseLines (u : Uninit) : List Str → Exec ConfigStop Int ParseState Unit
  | [] => pure ()
  | line :: lines => do
    parseLine u line
    parseLines u lines

namespace TriggerConfig

def Parse_raw_data (u : Uninit) : Exec ConfigStop Int TriggerConfig Unit := do
  let raw_data ← gets fun t => t.raw_data
  zoom (fun t => some { config := t }) (fun s _ => s.config) .exception (parseLines u raw_data)

def rawLines (lines : List Str) : List Str :=
  (lines.map Str.trimLeft).filter fun line => line.length ≥ 1 ∧ line.head? ≠ some 35

def Parse_trigger_file (u : Uninit) (lines : List Str) : Exec ConfigStop Int TriggerConfig Unit := do
  modify fun t => { t with raw_data := rawLines lines }
  Parse_raw_data u

def Parse_evio_bank (u : Uninit) : Exec ConfigStop Int TriggerConfig Unit := do
  modify fun t => { t with raw_data := rawLines t.data }
  Parse_raw_data u

def CallBack (u : Uninit) : Exec ConfigStop Int TriggerConfig Unit := Parse_evio_bank u

def setSxy (crates : List FADC250_crate_t) (m : DAQChannel) : List FADC250_crate_t :=
  crates.modify m.crate fun c => c.onSlot m.slot (·.set_sxy m.chan m.sub m.x m.y)

def numberSlots (c : FADC250_crate_t) : FADC250_crate_t :=
  { c with slots := fun k => (c.slots k).map fun s => { s with slot := k } }

def InitDAQMaps (t : TriggerConfig) : TriggerConfig :=
  { t with crates := (daqMap.foldl setSxy (growCrates 2 t.crates)).map numberSlots }

def ofFile (u : Uninit) (lines : List Str) : Exec ConfigStop Int TriggerConfig Unit := do
  Parse_trigger_file u lines
  modify InitDAQMaps

/-- The constructor on a bank, without the lines of its leaf. -/
def ofBank : TriggerConfig := InitDAQMaps {}

def fill (u : Uninit) (lines : List Str) : Exec ConfigStop Int TriggerConfig Unit := do
  modify fun t => { t with data := lines }
  CallBack u

end TriggerConfig

end EvioTool
