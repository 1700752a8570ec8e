import EvioTool.Defs.EcalConfig
import EvioTool.Defs.ConfigEdits
import EvioTool.Defs.EcalHit
import EvioTool.Defs.Mode7

/-! `EcalBank::Parse`: the hit map from the entries of the FADC leaf. -/

namespace EvioTool

open Lib Exec

inductive EcalObs
  | access (a : Access)
  | taken (fadc_idx : Nat)
  deriving DecidableEq

structure EcalHit (F : Type) where
  fadc_index : Nat
  ixy : Ecal_point_t
  hits : List (FADC_Hit F)

abbrev HitMap (F : Type) := Ecal_point_t → Option (EcalHit F)

def ecalAt {σ α : Type} (xs : List α) (i : Nat) : Exec Halt EcalObs σ α :=
  mapLog .access (vectorAt xs i)

namespace TriggerConfig

def GetCrateNum (t : TriggerConfig) (crate : UInt8) : Nat :=
  if crate = 37 then 1
  else if crate = 39 then 2
  else if crate.toNat > t.crates.length then 0
  else crate.toNat

def GetSlot {σ : Type} (t : TriggerConfig) (crate slot : UInt8) :
    Exec Halt EcalObs σ (Option FADC250_slot_t) := do
  let c ← ecalAt t.crates (t.GetCrateNum crate)
  let _ ← ecalAt t.crates (t.GetCrateNum crate)
  pure (c.slots slot.toNat)

end TriggerConfig

namespace HitMap

section

variable {F : Type} [IntCast F]

abbrev Call (F : Type) :=
  Nat → FADCdata → F → F → Int → Int → Int → F → Exec Halt EcalObs (HitMap F) (List (FADC_Hit F))

/-- The body of the loop; `round` makes a float of a number, and the buffer `hits` has nothing
in it from before, since the call clears it. -/
def parseEntry (call : Call F) (round : Rat → F) (t : TriggerConfig) (fadc_idx : Nat)
    (fadc : FADCdata) : Exec Halt EcalObs (HitMap F) Unit := do
  match ← t.GetSlot fadc.crate fadc.slot with
  | none => pure ()
  | some slot =>
    let chan := fadc.chan.toNat
    let subsystem ← ecalAt slot.subsystem chan
    if subsystem ≠ 2 then pure ()
    else
      tell (.taken fadc_idx)
      let ix ← ecalAt slot.ix chan
      let iy ← ecalAt slot.iy chan
      let threshold ← ecalAt slot.threshold chan
      let pedestal ← ecalAt slot.pedestal chan
      let gain ← ecalAt slot.gain chan
      let hits ← call fadc_idx fadc threshold (round pedestal) slot.NSB slot.NSA slot.npeak
        (round gain)
      modify fun m => Function.update m (ix, iy) (some ⟨fadc_idx, (ix, iy), hits⟩)

def parseEntries (call : Call F) (round : Rat → F) (t : TriggerConfig) :
    Nat → List FADCdata → Exec Halt EcalObs (HitMap F) Unit
  | _, [] => pure ()
  | fadc_idx, fadc :: data => do
    parseEntry call round t fadc_idx fadc
    parseEntries call round t (fadc_idx + 1) data

def Parse (call : Call F) (round : Rat → F) (t : TriggerConfig) (data : List FADCdata) :
    Exec Halt EcalObs (HitMap F) Unit := do
  modify fun _ _ => none
  parseEntries call round t 0 data

end

section

variable {F : Type} [Add F] [Sub F] [Mul F] [Div F] [IntCast F] [LT F] [DecidableLT F] [LE F]
  [DecidableLE F]

/-- A call that finds `past idx` behind the samples of the entry `idx`. -/
def compute (past : Nat → Nat → UInt16) (fuel : Nat) : Call F :=
  fun fadc_idx d thres pedestal NSB NSA npeak gain =>
    demand .fuel (d.computeMode7fast (past fadc_idx) fuel thres pedestal NSB NSA npeak gain)

/-- A call that has to find its samples in the entry. -/
def read (fuel : Nat) : Call F :=
  fun _ d thres pedestal NSB NSA npeak gain =>
    mapLog (fun i => .access ⟨i, d.samples.length⟩)
      (zoom (fun _ => some ()) (fun _ m => m) .outside
        (d.readMode7fast fuel thres pedestal NSB NSA npeak gain))

end

end HitMap

def DAQChannel.Of (m : DAQChannel) (d : FADCdata) : Prop :=
  m.sub = 2 ∧ m.crate = (if d.crate = 37 then 1 else 2) ∧ m.slot = d.slot.toNat ∧
    m.chan = d.chan.toNat

def FADCdata.SameChannel (d d' : FADCdata) : Prop :=
  d.crate = d'.crate ∧ d.slot = d'.slot ∧ d.chan = d'.chan

instance (d d' : FADCdata) : Decidable (d.SameChannel d') :=
  inferInstanceAs (Decidable (_ ∧ _ ∧ _))

def TriggerConfig.slotOf (t : TriggerConfig) (d : FADCdata) : Option FADC250_slot_t :=
  (t.crates.getD (t.GetCrateNum d.crate) {}).slots d.slot.toNat

/-- The hits that `ComputeMode7fast` returns for an entry with the settings of its slot. -/
def FADC250_slot_t.HitsOf {F : Type} [Add F] [Sub F] [Mul F] [Div F] [IntCast F] [LT F]
    [DecidableLT F] [LE F] [DecidableLE F] (s : FADC250_slot_t) (past : Nat → UInt16)
    (round : Rat → F) (d : FADCdata) (hits : List (FADC_Hit F)) : Prop :=
  ∃ fuel, d.computeMode7fast past fuel ((s.threshold.getD d.chan.toNat 0 : Int) : F)
    (round (s.pedestal.getD d.chan.toNat 0)) s.NSB s.NSA s.npeak
    (round (s.gain.getD d.chan.toNat 0)) = some hits

/-- A configuration from one of the constructors, and from the events that fill it. -/
inductive TriggerConfig.Mapped (u : Uninit) : TriggerConfig → Prop
  | constructed {t : TriggerConfig} : Constructed u t → Mapped u t
  | filled {lines : List Str} {t t' : TriggerConfig} :
    Mapped u t → Returns (fill u lines) t () t' → Mapped u t'

def TriggerConfig.Full (t : TriggerConfig) : Prop :=
  ∀ c k s, (t.crates.getD c {}).slots k = some s →
    s.pedestal.length = 16 ∧ s.gain.length = 16 ∧ s.threshold.length = 16 ∧
      s.subsystem.length = 16 ∧ s.ix.length = 16 ∧ s.iy.length = 16

end EvioTool
