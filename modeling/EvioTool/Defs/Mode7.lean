import EvioTool.Defs.Basic

/-! `ComputeMode7fast`: the pulses of a waveform, as Mode 7 of the FADC reports them. -/

namespace EvioTool

open Lib Exec

structure FADC_Hit (F : Type) where
  energy : F
  integral : F
  time : F
  pedestal : F
  time_thresh : F
  max_adc : Int
  max_loc : Int
  deriving DecidableEq

def FADC_Hit.new (integ time pedest time_thr : F) (max max_loc : Int) (energ : F) :
    FADC_Hit F where
  energy := energ
  integral := integ
  time := time
  pedestal := pedest
  time_thresh := time_thr
  max_adc := max
  max_loc := max_loc

namespace FADCdata

def N_PEDESTAL : Nat := 4

/-- `samples[i]` as an `int`.  What lies in memory behind the samples is `past`. -/
def sample (d : FADCdata) (past : Nat → UInt16) (i : Nat) : Int :=
  (d.samples.getD i (past i)).toNat

section

variable [Add F] [Sub F] [Mul F] [Div F] [IntCast F] [LT F] [DecidableLT F] [LE F] [DecidableLE F]

def Crosses (s : Nat → Int) (thr : F) (i : Nat) : Prop :=
  (s i : F) > thr ∧ (s (i - 1) : F) < thr

instance (s : Nat → Int) (thr : F) : DecidablePred (Crosses s thr) :=
  fun _ => inferInstanceAs (Decidable (_ ∧ _))

/-- The search loop with its `int` index, which is compared as a `size_t`.  An index that overflows,
which C++ leaves undefined, wraps around. -/
def searchInt (s : Nat → Int) (size : Nat) (thr : F) (NSA npeak : Int) :
    Nat → Int → List Nat → Option (List Nat)
  | 0, _, _ => none
  | k + 1, i, threshold_crossings =>
    if i % 2 ^ 64 < size then
      if Crosses s thr i.toNat then
        let threshold_crossings := threshold_crossings ++ [i.toNat]
        let i := toInt32 (i + (NSA.tdiv 4 - 1))
        if npeak > 0 ∧ threshold_crossings.length ≥ npeak then some threshold_crossings
        else searchInt s size thr NSA npeak k (toInt32 (i + 1)) threshold_crossings
      else searchInt s size thr NSA npeak k (toInt32 (i + 1)) threshold_crossings
    else some threshold_crossings

/-- The search loop with the index unbounded, which is the same for all waveforms that the
decoder can make (`searchInt_eq`). -/
def search (s : Nat → Int) (size : Nat) (thr : F) (NSA npeak : Int) :
    Nat → Nat → List Nat → Option (List Nat)
  | 0, _, _ => none
  | k + 1, i, threshold_crossings =>
    if i < size then
      if Crosses s thr i then
        let threshold_crossings := threshold_crossings ++ [i]
        if npeak > 0 ∧ threshold_crossings.length ≥ npeak then some threshold_crossings
        else search s size thr NSA npeak k (i + (NSA.tdiv 4 - 1) + 1).toNat threshold_crossings
      else search s size thr NSA npeak k (i + 1) threshold_crossings
    else some threshold_crossings

def firstCrossings (s : Nat → Int) (thr : F) : List Nat := if (s 0 : F) > thr then [0] else []

def thresholdCrossings (d : FADCdata) (past : Nat → UInt16) (fuel : Nat) (thr : F)
    (NSA npeak : Int) : Option (List Nat) :=
  search (d.sample past) d.samples.length thr NSA npeak fuel 1 (firstCrossings (d.sample past) thr)

def pedestalOf (d : FADCdata) (past : Nat → UInt16) (pedestal : F) : F :=
  if pedestal ≤ ((0 : Int) : F) then
    ((((List.range N_PEDESTAL).map (d.sample past)).sum : Int) : F) / ((N_PEDESTAL : Int) : F)
  else pedestal

/-- The sum, the maximum and its index after the samples at `is`.  The sum is an `int`, and one that
overflows, which C++ leaves undefined, wraps around. -/
def scan (s : Nat → Int) : List Nat → Int × Int × Int → Int × Int × Int
  | [], acc => acc
  | i :: is, (adc, max, max_loc) =>
    let adc := toInt32 (adc + s i)
    if max < s i then scan s is (adc, s i, i) else scan s is (adc, max, max_loc)

def indices (start stop : Int) : List Nat :=
  (List.range (stop - start).toNat).map (start.toNat + ·)

/-- The hit for a crossing; the last two arguments of `emplace_back` before the maximum
come as `time_thr, pedestal`. -/
def hitAt (d : FADCdata) (past : Nat → UInt16) (pedestal : F) (NSB NSA : Int) (gain : F)
    (cross : Nat) : FADC_Hit F :=
  let s := d.sample past
  let start : Int := if cross - NSB.tdiv 4 ≥ 0 then cross - NSB.tdiv 4 else 0
  let stop : Int := if cross + NSA.tdiv 4 < d.samples.length then cross + NSA.tdiv 4
    else d.samples.length
  let (adc, max, max_loc) := scan s (indices start stop) (0, 0, -1)
  let time_thr : F := ((cross : Int) : F) * ((4 : Int) : F)
  let integral : F := (adc : F) - ((stop - start : Int) : F) * pedestal
  let half_max : F := ((max : F) + pedestal) / ((2 : Int) : F)
  let time_fine : F :=
    match (indices start stop).find? fun i =>
      (s (i + 1) : F) > half_max ∧ (s i : F) < half_max with
    | some i => (((i : Int) : F) + (half_max - (s i : F)) / ((s (i + 1) - s i : Int) : F)) *
        ((4 : Int) : F)
    | none => time_thr
  .new integral time_fine time_thr pedestal max max_loc (integral * gain)

def computeMode7fast (d : FADCdata) (past : Nat → UInt16) (fuel : Nat) (thres pedestal : F)
    (NSB NSA npeak : Int) (gain : F) : Option (List (FADC_Hit F)) :=
  if NSA ≤ 0 then some []
  else do
    let pedestal := d.pedestalOf past pedestal
    let threshold_crossings ← d.thresholdCrossings past fuel (thres + pedestal) NSA npeak
    some (threshold_crossings.map (d.hitAt past pedestal NSB NSA gain))

def readSample (d : FADCdata) (i : Nat) : Exec Halt Nat Unit Int := do
  tell i
  demand .outside (d.samples[i]?.map fun w => (w.toNat : Int))

def readCrosses (d : FADCdata) (thr : F) (i : Nat) : Exec Halt Nat Unit Bool := do
  let here ← d.readSample i
  if (here : F) > thr then
    let before ← d.readSample (i - 1)
    pure (decide ((before : F) < thr))
  else pure false

def readSearch (d : FADCdata) (thr : F) (NSA npeak : Int) :
    Nat → Nat → List Nat → Exec Halt Nat Unit (List Nat)
  | 0, _, _ => halt .fuel
  | k + 1, i, threshold_crossings =>
    if i < d.samples.length then do
      if ← d.readCrosses thr i then
        let threshold_crossings := threshold_crossings ++ [i]
        if npeak > 0 ∧ threshold_crossings.length ≥ npeak then pure threshold_crossings
        else readSearch d thr NSA npeak k (i + (NSA.tdiv 4 - 1) + 1).toNat threshold_crossings
      else readSearch d thr NSA npeak k (i + 1) threshold_crossings
    else pure threshold_crossings

def readPedestal (d : FADCdata) (pedestal : F) : Exec Halt Nat Unit F :=
  if pedestal ≤ ((0 : Int) : F) then do
    let pedest ← each d.readSample (List.range N_PEDESTAL)
    pure (((pedest.sum : Int) : F) / ((N_PEDESTAL : Int) : F))
  else pure pedestal

def readScan (d : FADCdata) : List Nat → Int × Int × Int → Exec Halt Nat Unit (Int × Int × Int)
  | [], acc => pure acc
  | i :: is, (adc, max, max_loc) => do
    let x ← d.readSample i
    let adc := toInt32 (adc + x)
    if max < x then readScan d is (adc, x, i) else readScan d is (adc, max, max_loc)

def readHalf (d : FADCdata) (half_max : F) : List Nat → Exec Halt Nat Unit (Option (Nat × Int × Int))
  | [] => pure none
  | i :: is => do
    let next ← d.readSample (i + 1)
    if (next : F) > half_max then
      let here ← d.readSample i
      if (here : F) < half_max then pure (some (i, here, next)) else readHalf d half_max is
    else readHalf d half_max is

def readHit (d : FADCdata) (pedestal : F) (NSB NSA : Int) (gain : F) (cross : Nat) :
    Exec Halt Nat Unit (FADC_Hit F) := do
  let start : Int := if cross - NSB.tdiv 4 ≥ 0 then cross - NSB.tdiv 4 else 0
  let stop : Int := if cross + NSA.tdiv 4 < d.samples.length then cross + NSA.tdiv 4
    else d.samples.length
  let (adc, max, max_loc) ← d.readScan (indices start stop) (0, 0, -1)
  let time_thr : F := ((cross : Int) : F) * ((4 : Int) : F)
  let integral : F := (adc : F) - ((stop - start : Int) : F) * pedestal
  let half_max : F := ((max : F) + pedestal) / ((2 : Int) : F)
  let time_fine : F := match ← d.readHalf half_max (indices start stop) with
    | some (i, here, next) =>
      (((i : Int) : F) + (half_max - (here : F)) / ((next - here : Int) : F)) * ((4 : Int) : F)
    | none => time_thr
  pure (.new integral time_fine time_thr pedestal max max_loc (integral * gain))

def readMode7fast (d : FADCdata) (fuel : Nat) (thres pedestal : F) (NSB NSA npeak : Int)
    (gain : F) : Exec Halt Nat Unit (List (FADC_Hit F)) :=
  if NSA ≤ 0 then pure []
  else do
    let pedestal ← d.readPedestal pedestal
    let first ← d.readSample 0
    let threshold_crossings := if (first : F) > thres + pedestal then [0] else []
    let threshold_crossings ← d.readSearch (thres + pedestal) NSA npeak fuel 1 threshold_crossings
    each (d.readHit pedestal NSB NSA gain) threshold_crossings

end

end FADCdata

end EvioTool
