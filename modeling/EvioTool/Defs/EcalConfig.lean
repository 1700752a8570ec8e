import EvioTool.Defs.Basic
import EvioTool.Defs.EcalBank
import EvioTool.Defs.VTPStore

/-! `EcalBank::Config`: the parameters of the clusters, from the configuration. -/

namespace EvioTool

open Lib Exec

structure Access where
  index : Nat
  size : Nat
  deriving DecidableEq

def Access.InRange (a : Access) : Prop := a.index < a.size

instance : DecidablePred Access.InRange := fun a => inferInstanceAs (Decidable (a.index < a.size))

structure ConfiguredEcal extends EcalBank where
  DAQconfig : Option TriggerConfig := none
  is_configured : Bool := false

def vectorAt {σ α : Type} (xs : List α) (i : Nat) : Exec Halt Access σ α := do
  tell ⟨i, xs.length⟩
  demand .outside xs[i]?

/-- `(int)x`, for an `x` whose integer part is one. -/
def truncInt (x : Rat) : Option Int :=
  let n := x.num.tdiv x.den
  if FitsInt n then some n else none

namespace TriggerConfig

def vtpOther (key : Str) : Exec Halt Access TriggerConfig (List Rat) := do
  modify fun t => if (t.vtp_other key).isSome then t else t.setOther key []
  gets fun t => (t.vtp_other key).getD []

end TriggerConfig

namespace ConfiguredEcal

def SEED_THR : Str := str "ECAL_CLUSTER_SEED_THR"

def HIT_DT : Str := str "ECAL_CLUSTER_HIT_DT"

def first (key : Str) : Exec Halt Access ConfiguredEcal Int := do
  let values ← zoom DAQconfig (fun t b => { b with DAQconfig := some t }) .undefined
    (TriggerConfig.vtpOther key)
  let x ← vectorAt values 0
  demand .undefined (truncInt x)

def Config : Exec Halt Access ConfiguredEcal Unit := do
  match ← gets DAQconfig with
  | some t =>
    match t.vtp_other SEED_THR with
    | none => modify fun b => { b with is_configured := false }
    | some _ => do
      let cluster_seed_thresh ← first SEED_THR
      modify fun b => { b with cluster_seed_thresh }
      let cluster_hit_dt ← first HIT_DT
      modify fun b => { b with cluster_hit_dt }
      modify fun b => { b with is_configured := true }
  | none => modify fun b => { b with is_configured := false }

/-- `Config` on a bank with the configuration `t`: it comes to its end, every index is in its
vector, no key is added, and the bank is configured from the first numbers of both keys or
not at all. -/
structure WellConfigured (b : ConfiguredEcal) (t : TriggerConfig) (b' : ConfiguredEcal) : Prop where
  returns : Returns Config b () b'
  indexes : Logs Access.InRange Config b
  keys : ∃ t', b'.DAQconfig = some t' ∧ ∀ key, (t'.vtp_other key).isSome = (t.vtp_other key).isSome
  configured : b'.is_configured = false ∨
    ∃ x xs y ys, t.vtp_other SEED_THR = some (x :: xs) ∧ t.vtp_other HIT_DT = some (y :: ys) ∧
      truncInt x = some b'.cluster_seed_thresh ∧ truncInt y = some b'.cluster_hit_dt ∧
      b'.is_configured = true

end ConfiguredEcal

def ecalLines (key : Str) (lines : List Str) (old : Option (List Rat)) : Option (List Rat) :=
  written ((areaLines lines false).map fun line =>
    if lineTok line = str "VTP_HPS_" ++ key then some (some (IStream.doubles { rest := lineDat line }))
    else none) old

def HasInt (values : Option (List Rat)) : Prop :=
  ∃ x xs, values = some (x :: xs) ∧ truncInt x ≠ none

end EvioTool
