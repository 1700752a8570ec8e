import EvioTool.Defs.TriggerConfig
import EvioTool.Lib.Writes

/-! What the lines of the `VTP_CRATE` areas ask of the maps `vtp_configs` and `vtp_other`,
read off the lines alone. -/

namespace EvioTool

open Lib Exec

def vtpToken (tok : Str) : Option (Str × Str) :=
  if tok.take 8 = str "VTP_HPS_" then
    let pos_third_underscore := Str.find tok 95 9
    let config := match pos_third_underscore with
      | some pos => (tok.drop 8).take (pos - 8)
      | none => tok.drop 8
    let item := match pos_third_underscore with
      | some pos => if pos > 255 then [] else tok.drop (pos + 1)
      | none => []
    some (config, item)
  else none

def lineNumber (dat : Str) : Option Int :=
  let (config_num, iss) := IStream.int { rest := dat } 0
  if iss.fail then none else some config_num

def lineNumbers (dat : Str) : List Rat := (IStream.int { rest := dat } 0).2.doubles

def TwoNumbers (dat : Str) : Prop :=
  (IStream.double (IStream.word { rest := dat } []).2 0).2.fail = false

inductive VTPEntry
  | config (config item dat : Str)
  | other (key : Str) (values : List Rat)

def feeEntry (item dat : Str) : VTPEntry :=
  let fee_item := str "FEE" ++ str "_" ++ item
  if item = str "PRESCALE" then
    let (prescale_num, iss) := IStream.word { rest := dat } []
    .other (fee_item ++ str "_" ++ prescale_num) iss.doubles
  else .other fee_item (IStream.doubles { rest := dat })

def vtpEntry (old : Rat) (tok dat : Str) : Option VTPEntry :=
  (vtpToken tok).map fun (config, item) =>
    if config = str "FEE" then feeEntry item dat
    else if config = str "PRESCALE" then
      let (prescale_num, iss) := IStream.word { rest := dat } []
      .other (config ++ str "_" ++ prescale_num) [(iss.double old).1]
    else if config ∈ TriggerConfig.parse_configs then .config config item dat
    else .other (config ++ str "_" ++ item) (IStream.doubles { rest := dat })

def CanCount (n : Int) : Prop := -1 ≤ n ∧ n < 2 ^ 31 - 1

instance (n : Int) : Decidable (CanCount n) := inferInstanceAs (Decidable (_ ∧ _))

/-- The lines between `VTP_CRATE all` and `VTP_CRATE end`; `area` says that the first is
already behind. -/
def areaLines : List Str → Bool → List Str
  | [], _ => []
  | line :: lines, area =>
    if lineTok line = str "VTP_CRATE" then areaLines lines (VTP_CRATE (lineDat line) area)
    else if area then line :: areaLines lines area
    else areaLines lines area

structure VTPStore where
  vtp_configs : Str → Option (List (Str → Option (List Rat))) := fun _ => none
  vtp_other : Str → Option (List Rat) := fun _ => none
  config_num : Int := 0

namespace VTPStore

def maps (s : VTPStore) (config : Str) : List (Str → Option (List Rat)) :=
  (s.vtp_configs config).getD []

def put (s : VTPStore) : VTPEntry → Option VTPStore
  | .other key values => some { s with vtp_other := Function.update s.vtp_other key (some values) }
  | .config config item dat =>
    let (config_num, iss) := IStream.int { rest := dat } s.config_num
    (growConfigs config_num (s.maps config)).map fun maps =>
      { s with
        config_num
        vtp_configs := Function.update s.vtp_configs config
          (some (maps.modify (toSize config_num) fun m => Function.update m item (some iss.doubles))) }

def step (s : VTPStore) : Option VTPEntry → Option VTPStore
  | some e => s.put e
  | none => some s

def lines (old : Rat) (s : VTPStore) (ls : List Str) : Option VTPStore :=
  ls.foldlM (fun s line => s.step (vtpEntry old (lineTok line) (lineDat line))) s

def entry (s : VTPStore) (config : Str) (n : Nat) (item : Str) : Option (List Rat) :=
  (s.maps config)[n]? >>= fun m => m item

end VTPStore

def ParseState.store (s : ParseState) : VTPStore :=
  ⟨s.config.vtp_configs, s.config.vtp_other, s.config_num⟩

def TriggerConfig.entry (t : TriggerConfig) (config : Str) (n : Nat) (item : Str) :
    Option (List Rat) :=
  ((t.vtp_configs config).getD [])[n]? >>= fun m => m item

def configValue (config : Str) (n : Nat) (item line : Str) : Option (List Rat) :=
  if config ∈ TriggerConfig.parse_configs ∧
      lineTok line = str "VTP_HPS_" ++ config ++ str "_" ++ item ∧
      lineNumber (lineDat line) = some (n : Int) then
    some (lineNumbers (lineDat line))
  else none

def otherValue (old : Rat) (key line : Str) : Option (List Rat) :=
  match vtpEntry old (lineTok line) (lineDat line) with
  | some (.other k values) => if k = key then some values else none
  | _ => none

def ConfigLines (ls : List Str) : Prop :=
  ∀ line ∈ ls, ∀ config item, vtpToken (lineTok line) = some (config, item) →
    config ∈ TriggerConfig.parse_configs →
    item ≠ [] ∧ ∃ n : Nat, lineNumber (lineDat line) = some (n : Int) ∧ n < 2 ^ 31 - 1

/-- In the areas, the lines of configs are as they should be, and those of `PRESCALE` have two
numbers. -/
structure StoreLines (lines : List Str) : Prop where
  configs : ConfigLines (areaLines lines false)
  prescale : ∀ line ∈ areaLines lines false, ∀ item,
    vtpToken (lineTok line) = some (str "PRESCALE", item) → TwoNumbers (lineDat line)

end EvioTool
