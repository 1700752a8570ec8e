import EvioTool.Defs.TriggerConfig
import EvioTool.Lib.Writes

/-! What the lines of a configuration ask of each crate, slot and field, read off the lines
alone. -/

namespace EvioTool

open Lib Exec

inductive SlotEdit
  | setting (f : Setting) (v : Int)
  | threshold (chan thres : Int)
  | gain (xs : List Rat)
  | pedestal (xs : List Rat)

inductive Edit
  | slot (k : Int)
  | mode (v : Int)
  | all (f : Setting) (v : Int)
  | own (k : Int) (e : SlotEdit)

def SlotEdit.run (s : FADC250_slot_t) : SlotEdit → FADC250_slot_t
  | .setting f v => s.put v f
  | .threshold chan thres => { s with threshold := s.threshold.set chan.toNat thres }
  | .gain xs => { s with gain := xs }
  | .pedestal xs => { s with pedestal := xs }

namespace Edit

def run (c : FADC250_crate_t) : Edit → FADC250_crate_t
  | .slot k => c.addSlot k
  | .mode v => { c with mode := v }
  | .all f v => c.putAll v f
  | .own k e => c.onSlot k e.run

def channels : Edit → List Int
  | .own _ (.threshold chan _) => [chan]
  | _ => []

def Names (k : Int) : Edit → Prop
  | .slot j => j = k
  | .own j _ => j = k
  | _ => False

instance (k : Int) : DecidablePred (Names k)
  | .slot j => inferInstanceAs (Decidable (j = k))
  | .own j _ => inferInstanceAs (Decidable (j = k))
  | .mode _ => isFalse id
  | .all _ _ => isFalse id

end Edit

structure Cursor where
  crate : Nat := 0
  slot : Int := 0

def settingEdit (dat : Str) (cur : Int) (f : Setting) : Option (Int × List Edit) :=
  (Str.stoi dat).map fun v => (cur, [if cur = 0 then .all f v else .own cur (.setting f v)])

def ownEdit (cur : Int) (e : SlotEdit) : Option (Int × List Edit) :=
  some (cur, if cur = 0 then [] else [.own cur e])

def thresholdEdit (u : Uninit) (dat : Str) : SlotEdit :=
  let (chan, iss) := IStream.int { rest := dat } u.chan
  .threshold chan (iss.int u.thres).1

def fadcEdit (u : Uninit) (tok dat : Str) (cur : Int) : Option (Int × List Edit) :=
  if tok = str "FADC250_SLOT" then
    if dat = str "all" then some (0, [])
    else (Str.stoi dat).map fun k => (k, [.slot k])
  else if tok = str "FADC250_MODE" then (Str.stoi dat).map fun v => (cur, [.mode v])
  else if tok = str "FADC250_NSB" then settingEdit dat cur .NSB
  else if tok = str "FADC250_NSA" then settingEdit dat cur .NSA
  else if tok = str "FADC250_NPEAK" then settingEdit dat cur .NPEAK
  else if tok = str "FADC250_TET" then settingEdit dat cur .TET
  else if tok = str "FADC250_W_OFFSET" then settingEdit dat cur .W_OFFSET
  else if tok = str "FADC250_W_WIDTH" then settingEdit dat cur .W_WIDTH
  else if tok = str "FADC250_CH_TET" then ownEdit cur (thresholdEdit u dat)
  else if tok = str "FADC250_ALLCH_GAIN" then ownEdit cur (.gain (IStream.floats { rest := dat }))
  else if tok = str "FADC250_ALLCH_PED" then
    ownEdit cur (.pedestal (IStream.floats { rest := dat }))
  else some (cur, [])

def lineEdits (u : Uninit) (line : Str) (p : Cursor) : Cursor × List (Nat × Edit) :=
  let tok := lineTok line
  let dat := lineDat line
  if tok = str "VTP_CRATE" then (p, [])
  else if tok = str "FADC250_CRATE" then ({ p with crate := FADC250_CRATE dat p.crate }, [])
  else if p.crate = 0 then (p, [])
  else
    let (slot, es) := (fadcEdit u tok dat p.slot).getD (p.slot, [])
    ({ p with slot }, es.map fun e => (p.crate, e))

def edits (u : Uninit) : List Str → Cursor → List (Nat × Edit)
  | [], _ => []
  | line :: lines, p =>
    let (q, es) := lineEdits u line p
    es ++ edits u lines q

def ofCrate (c : Nat) (es : List (Nat × Edit)) : List Edit :=
  es.filterMap fun (k, e) => if k = c then some e else none

def crateEdits (u : Uninit) (lines : List Str) (c : Nat) : List Edit :=
  ofCrate c (edits u lines {})

def tokConfig (tok : Str) : Str :=
  match Str.find tok 95 9 with
  | some pos => (tok.drop 8).take (pos - 8)
  | none => tok.drop 8

def vtpVars (tok dat : Str) (v : ParseVars) : Option ParseVars :=
  if tok.take 8 = str "VTP_HPS_" ∧ tokConfig tok ∈ TriggerConfig.parse_configs then
    let config_num := (IStream.int { rest := dat } v.config_num).1
    if toSize (toInt32 (config_num + 1)) ≤ max_size then some { v with config_num } else none
  else some v

/-- The variables behind a line of a crate; there are none when `stoi` throws, or when the line is
for a channel that a slot does not have. -/
def fadcVars (u : Uninit) (tok dat : Str) (v : ParseVars) : Option ParseVars := do
  let (slot, es) ← fadcEdit u tok dat v.fadc_current_slot
  if ∀ e ∈ es, ∀ chan ∈ e.channels, 0 ≤ chan ∧ chan < 16 then
    some { v with fadc_current_slot := slot }
  else none

def lineVars (u : Uninit) (line : Str) (v : ParseVars) : Option ParseVars :=
  let tok := lineTok line
  let dat := lineDat line
  if tok = str "VTP_CRATE" then
    some { v with vtp_parse_area := VTP_CRATE dat v.vtp_parse_area }
  else if tok = str "FADC250_CRATE" then
    some { v with fadc_crate_number := FADC250_CRATE dat v.fadc_crate_number }
  else
    (if v.vtp_parse_area = true then vtpVars tok dat v else some v) >>= fun v =>
      if v.fadc_crate_number ≠ 0 then fadcVars u tok dat v else some v

def linesVars (u : Uninit) : List Str → ParseVars → Option ParseVars
  | [], v => some v
  | line :: lines, v => lineVars u line v >>= linesVars u lines

/-- The parser gets to the end of the lines of a leaf. -/
def Parses (u : Uninit) (lines : List Str) : Prop :=
  (linesVars u (TriggerConfig.rawLines lines) {}).isSome = true

instance (u : Uninit) : DecidablePred (Parses u) := fun _ => inferInstanceAs (Decidable (_ = true))

def before (k : Int) (es : List Edit) : List Edit := es.takeWhile fun e => ¬e.Names k

def since (k : Int) (es : List Edit) : List Edit := es.dropWhile fun e => ¬e.Names k

inductive Field
  | NSB | NSA | npeak | w_offset | window | threshold (chan : Fin 16)

def Field.get (s : FADC250_slot_t) : Field → Int
  | .NSB => s.NSB
  | .NSA => s.NSA
  | .npeak => s.npeak
  | .w_offset => s.w_offset
  | .window => s.window
  | .threshold chan => s.threshold.getD chan 0

def Setting.sets : Setting → Field → Bool
  | .NSB, .NSB | .NSA, .NSA | .NPEAK, .npeak | .W_OFFSET, .w_offset | .W_WIDTH, .window
  | .TET, .threshold _ => true
  | _, _ => false

def SlotEdit.value (q : Field) : SlotEdit → Option Int
  | .setting f v => if f.sets q then some v else none
  | .threshold chan thres =>
    match q with
    | .threshold i => if chan.toNat = i then some thres else none
    | _ => none
  | _ => none

namespace Edit

def value (k : Int) (q : Field) : Edit → Option Int
  | .all f v => (SlotEdit.setting f v).value q
  | .own j e => if j = k then e.value q else none
  | _ => none

def gainLength (k : Int) : Edit → Option Nat
  | .own j (.gain xs) => if j = k then some xs.length else none
  | _ => none

def pedestalLength (k : Int) : Edit → Option Nat
  | .own j (.pedestal xs) => if j = k then some xs.length else none
  | _ => none

end Edit

def FADC250_slot_t.content (s : FADC250_slot_t) : FADC250_slot_t := { s with slot := 0 }

structure FADC250_crate_t.Same (c d : FADC250_crate_t) : Prop where
  mode : c.mode = d.mode
  all_slots : c.all_slots = d.all_slots
  slots : ∀ k, (c.slots k).map FADC250_slot_t.content = (d.slots k).map FADC250_slot_t.content

structure TriggerConfig.Same (t v : TriggerConfig) : Prop where
  length : t.crates.length = v.crates.length
  crates : ∀ c, (t.crates.getD c {}).Same (v.crates.getD c {})
  vtp_configs : t.vtp_configs = v.vtp_configs
  vtp_other : t.vtp_other = v.vtp_other

/-- A field of slot `k` that a line for all slots sets to something else than 0 before any
line names the slot, when the first line that does is not `FADC250_SLOT` and no line from it
on sets the field. -/
def Forgotten (es : List Edit) (k : Int) (q : Field) : Prop :=
  (∀ e, (since k es).head? = some e → e ≠ .slot k) ∧
    (∀ e ∈ since k es, e.value k q = none) ∧
    written ((before k es).map (Edit.value k q)) 0 ≠ 0

structure FADC250_slot_t.WellShaped (s : FADC250_slot_t) (k : Int) : Prop where
  slot : s.slot = k
  pedestal : s.pedestal.length = 16
  gain : s.gain.length = 16
  threshold : s.threshold.length = 16
  subsystem : s.subsystem.length = 16
  ix : s.ix.length = 16
  iy : s.iy.length = 16

def TriggerConfig.WellShaped (t : TriggerConfig) : Prop :=
  ∀ c k s, (t.crates.getD c {}).slots k = some s → s.WellShaped k

/-- A `TriggerConfig` that one of the constructors has made. -/
inductive TriggerConfig.Constructed (u : Uninit) : TriggerConfig → Prop
  | bank : Constructed u ofBank
  | file {lines : List Str} {t : TriggerConfig} :
    Returns (ofFile u lines) {} () t → Constructed u t

/-- The lines of a crate, where `o` is what the crate has as slot `k` before: the slot exists
or the first line that names it is `FADC250_SLOT`, and the last lines with its gains and
with its pedestals have 16 of them. -/
structure SlotLines (es : List Edit) (o : Option FADC250_slot_t) (k : Int) : Prop where
  named : o = none → ∀ e, (since k es).head? = some e → e = .slot k
  gain : written (es.map (Edit.gainLength k)) (o.elim 16 fun s => s.gain.length) = 16
  pedestal : written (es.map (Edit.pedestalLength k)) (o.elim 16 fun s => s.pedestal.length) = 16

structure ShapedLines (u : Uninit) (lines : List Str) (t : TriggerConfig) : Prop where
  channels : ∀ m ∈ edits u lines {}, ∀ chan ∈ m.2.channels, 0 ≤ chan ∧ chan < 16
  slots : ∀ c k, SlotLines (crateEdits u lines c) ((t.crates.getD c {}).slots k) k

end EvioTool
