import EvioTool.Defs.Mode7

/-! `ComputeMode3` and `ComputeMode7Single`: one hit for a waveform, and the indices at which they
read the samples. -/

namespace EvioTool

open Lib Exec

/-- The hit that is returned by both: five arguments, so that the maximum and its index come
as `time_thr, max`. -/
def FADC_Hit.ofFive [IntCast F] (integ time pedest : F) (max max_loc : Int) : FADC_Hit F :=
  .new integ time pedest (max : F) max_loc (-1) ((0 : Int) : F)

namespace FADCdata

def asInt (x : Int) : Exec Halt Int Unit Int := if FitsInt x then pure x else halt .undefined

def overSamples {σ : Type} (f : σ → Nat → UInt16 → σ) : Nat → List UInt16 → σ → Exec Halt Int Unit σ
  | _, [], s => pure s
  | i, x :: xs, s => do
    tell i
    let _ ← asInt (i + 1)
    overSamples f (i + 1) xs (f s i x)

/-- What the loop has seen so far.  The sum of four samples fits in its `unsigned int`. -/
structure Seen where
  max : Int := 0
  max_loc : Int := -1
  thres_loc : Int := -1
  pedest : Int := 0
  deriving DecidableEq

section

variable [Add F] [Sub F] [Mul F] [Div F] [IntCast F] [LT F] [DecidableLT F] [LE F] [DecidableLE F]

def Seen.next (thres : F) (s : Seen) (i : Nat) (w : UInt16) : Seen :=
  let x : Int := w.toNat
  let pedest := if i < N_PEDESTAL then s.pedest + x else s.pedest
  { max := if x > s.max then x else s.max
    max_loc := if x > s.max then i else s.max_loc
    thres_loc :=
      if i ≥ N_PEDESTAL ∧ (x : F) > thres + ((pedest / N_PEDESTAL : Int) : F) ∧ s.thres_loc = -1
      then i else s.thres_loc
    pedest := pedest }

def Seen.mean (s : Seen) : F := (s.pedest : F) / ((N_PEDESTAL : Int) : F)

def computeMode3 (d : FADCdata) (thres : F) : Exec Halt Int Unit (FADC_Hit F) := do
  let (s, sum) ← overSamples (fun (s, sum) i x => (Seen.next thres s i x, sum + x.toUInt32))
    0 d.samples (({}, 0) : Seen × UInt32)
  let pedestal : F := s.mean
  let integral : F := ((sum.toNat : Int) : F) - ((d.samples.length : Int) : F) * pedestal
  let time : F := if s.thres_loc < 0 then ((0 : Int) : F) else (s.thres_loc : F)
  pure (FADC_Hit.ofFive integral time pedestal s.max s.max_loc)

def readAt (d : FADCdata) (past : Int → UInt16) (i : Int) : Exec Halt Int Unit UInt16 := do
  tell i
  pure (if 0 ≤ i then d.samples.getD i.toNat (past i) else past i)

def overWindow (d : FADCdata) (past : Int → UInt16) (half_max : F) :
    List Nat → UInt32 → Int → Exec Halt Int Unit (UInt32 × Int)
  | [], sum, half_max_loc_p1 => pure (sum, half_max_loc_p1)
  | i :: is, sum, half_max_loc_p1 => do
    let x ← d.readAt past i
    overWindow d past half_max is (sum + x.toUInt32)
      (if half_max_loc_p1 = -1 ∧ ((x.toNat : Int) : F) > half_max then i else half_max_loc_p1)

def computeMode7Single (d : FADCdata) (past : Int → UInt16) (thres pedestal : F) (NSB NSA : Int) :
    Exec Halt Int Unit (FADC_Hit F) := do
  let s ← overSamples (Seen.next thres) 0 d.samples {}
  let pedestal : F := if pedestal ≤ ((0 : Int) : F) then s.mean else pedestal
  let start ← asInt (s.thres_loc - NSB)
  let stop ← asInt (s.thres_loc + NSA)
  let stop ← asInt (stop + 1)
  let start := if s.thres_loc ≤ NSB then 0 else start
  -- The comparison is one of 64-bit unsigned numbers.
  let stop := if stop % 2 ^ 64 ≥ d.samples.length then (d.samples.length : Int) - 1 else stop
  let half_max : F := ((s.max : F) + pedestal) / ((2 : Int) : F)
  let (sum, half_max_loc_p1) ← d.overWindow past half_max (indices start stop) 0 (-1)
  if s.thres_loc < 0 then
    pure (FADC_Hit.ofFive ((0 : Int) : F) ((0 : Int) : F) ((0 : Int) : F) 0 0)
  else do
    let here ← d.readAt past half_max_loc_p1
    let before ← d.readAt past (half_max_loc_p1 - 1)
    let here : Int := here.toNat
    let before : Int := before.toNat
    let time : F :=
      if here > before then
        (half_max - (before : F)) / ((here - before : Int) : F) + (half_max_loc_p1 : F) -
          ((1 : Int) : F)
      else ((0 : Int) : F)
    let integral : F := ((sum.toNat : Int) : F) - pedestal * ((stop - start : Int) : F)
    pure (FADC_Hit.ofFive integral time pedestal s.max s.max_loc)

end

end FADCdata

end EvioTool
