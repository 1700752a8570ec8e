import EvioTool.Lib.Stoi

/-! The argument of `-T`: what `HPS_Trigger_Filter` makes of a trigger specifier. -/

namespace EvioTool

open Lib

inductive TriggerBit
  | Single_0_Top | Single_1_Top | Single_2_Top | Single_3_Top
  | Single_0_Bot | Single_1_Bot | Single_2_Bot | Single_3_Bot
  | Pair_0 | Pair_1 | Pair_2 | Pair_3
  | LED | Cosmic | Hodoscope | Pulser
  | Mult_0 | Mult_1 | FEE_Top | FEE_Bot
  deriving DecidableEq

def TriggerBit.number : TriggerBit → UInt32
  | Single_0_Top => 0
  | Single_1_Top => 1
  | Single_2_Top => 2
  | Single_3_Top => 3
  | Single_0_Bot => 4
  | Single_1_Bot => 5
  | Single_2_Bot => 6
  | Single_3_Bot => 7
  | Pair_0 => 8
  | Pair_1 => 9
  | Pair_2 => 10
  | Pair_3 => 11
  | LED => 12
  | Cosmic => 13
  | Hodoscope => 14
  | Pulser => 15
  | Mult_0 => 16
  | Mult_1 => 17
  | FEE_Top => 18
  | FEE_Bot => 19

structure TriggerFilter where
  trigger_setting : UInt32 := 0
  Filter_FCup : Bool := false
  deriving DecidableEq

def TriggerFilter.set (f : TriggerFilter) (b : TriggerBit) : TriggerFilter :=
  { f with trigger_setting := f.trigger_setting ||| (1 : UInt32) <<< b.number }

inductive Specified
  | filter (f : TriggerFilter)
  | exit (status : Int) (output : List Str)
  | uncaught (e : Str.StoiError)
  deriving DecidableEq

namespace TriggerSpecifier

def filterOptions : List Str :=
  [str "Trigger filter arguments to the -T (-trigger) option:\n",
   str " 'FEE'        - FEE either top or bottom\n",
   str " 'FEE_Top'    - FEE top only.\n",
   str " 'FEE_Bot'    - FEE bottom only\n",
   str " 'muon'       - Pair3 mu+mu- trigger\n",
   str " 'moller'     - Standard moller single0 trigger, Top+Bottom \n",
   str " 'moller_pde' - Moller with pde cut: single1, Top+Bottom\n",
   str " 'moller_pair'- Moller pair trigger.\n",
   str " 'moller_all' - All moller triggers combined.\n",
   str " '2gamma'     - Multiplicity-0 or 2 photon trigger.\n",
   str " '3gamma'     - Multiplicity-1 or 3 photon trigger.\n",
   str " 'pulser'     - Pulser trigger bit. \n",
   str " 'fcup'       - Faraday Cup trigger \n",
   str " 'random'     - Faraday Cup + pulser trigger.\n",
   str " 'pair#'      - select pair0, pair1, pair2 or pair3.\n",
   str " 'single#'    - select single0, single1, single2, or single3.\n",
   str " '######'     - Where ##### is an integer value (int, hex, bin) whose bits represent the trigger you want.\n"]

def named (trigger_name : Str) : Option TriggerFilter :=
  let start : TriggerFilter := {}
  if trigger_name = str "FEE" then some ((start.set .FEE_Bot).set .FEE_Top)
  else if trigger_name = str "FEE_Top" then some (start.set .FEE_Top)
  else if trigger_name = str "FEE_Bot" then some (start.set .FEE_Bot)
  else if trigger_name = str "pair0" ∨ trigger_name = str "old_aprime" then some (start.set .Pair_0)
  else if trigger_name = str "pair1" ∨ trigger_name = str "moller_pair" then some (start.set .Pair_1)
  else if trigger_name = str "pair2" then some (start.set .Pair_2)
  else if trigger_name = str "muon" ∨ trigger_name = str "pair3" then some (start.set .Pair_3)
  else if trigger_name = str "single0" ∨ trigger_name = str "moller" then
    some ((start.set .Single_0_Top).set .Single_0_Bot)
  else if trigger_name = str "single1" ∨ trigger_name = str "moller_pde" then
    some ((start.set .Single_1_Top).set .Single_1_Bot)
  else if trigger_name = str "moller_all" then
    some (((((start.set .Single_1_Top).set .Single_1_Bot).set .Single_0_Top).set .Single_0_Bot).set
      .Pair_1)
  else if trigger_name = str "single2" ∨ trigger_name = str "positron" then
    some ((start.set .Single_2_Top).set .Single_2_Bot)
  else if trigger_name = str "single3" ∨ trigger_name = str "positron_hodo" then
    some ((start.set .Single_3_Top).set .Single_3_Bot)
  else if trigger_name = str "2gamma" ∨ trigger_name = str "Mult-0" ∨
      trigger_name = str "Multiplicity-0" then some (start.set .Mult_0)
  else if trigger_name = str "3gamma" ∨ trigger_name = str "Mult-1" ∨
      trigger_name = str "Multiplicity-1" then some (start.set .Mult_1)
  else if trigger_name = str "pulser" then some (start.set .Pulser)
  else if trigger_name = str "fcup" then some { start with Filter_FCup := true }
  else if trigger_name = str "random" then some { start.set .Pulser with Filter_FCup := true }
  else none

/-- The text that is given to `stoi`, and its base: what follows the first `x`, or else what
follows the first `b`, or else all of it. -/
def converted (trigger_name : Str) : Nat × Str :=
  match trigger_name.find 120 0 with
  | some loc => (16, trigger_name.drop (loc + 1))
  | none =>
    match trigger_name.find 98 0 with
    | some loc => (2, trigger_name.drop (loc + 1))
    | none => (10, trigger_name)

/-- What `stoi` gives is taken; of its exceptions only `invalid_argument` is caught. -/
def setNumber (trigger_name : Str) : Except Str.StoiError Int → Specified
  | .ok n => .filter { trigger_setting := .ofInt n }
  | .error .invalid_argument =>
    .exit 1 (str "Unknown trigger specifier to -T argument: " :: trigger_name :: str "\n" ::
      filterOptions)
  | .error .out_of_range => .uncaught .out_of_range

def parse (trigger_name : Str) : Specified :=
  match named trigger_name with
  | some f => .filter f
  | none =>
    let (base, number) := converted trigger_name
    setNumber trigger_name (Str.stoiIn base number)

def names : List (Str × List TriggerBit × Bool) :=
  [(str "FEE", [.FEE_Top, .FEE_Bot], false),
   (str "FEE_Top", [.FEE_Top], false),
   (str "FEE_Bot", [.FEE_Bot], false),
   (str "pair0", [.Pair_0], false),
   (str "pair1", [.Pair_1], false),
   (str "pair2", [.Pair_2], false),
   (str "pair3", [.Pair_3], false),
   (str "single0", [.Single_0_Top, .Single_0_Bot], false),
   (str "single1", [.Single_1_Top, .Single_1_Bot], false),
   (str "single2", [.Single_2_Top, .Single_2_Bot], false),
   (str "single3", [.Single_3_Top, .Single_3_Bot], false),
   (str "muon", [.Pair_3], false),
   (str "moller", [.Single_0_Top, .Single_0_Bot], false),
   (str "moller_pde", [.Single_1_Top, .Single_1_Bot], false),
   (str "moller_pair", [.Pair_1], false),
   (str "moller_all", [.Single_0_Top, .Single_0_Bot, .Single_1_Top, .Single_1_Bot, .Pair_1], false),
   (str "old_aprime", [.Pair_0], false),
   (str "positron", [.Single_2_Top, .Single_2_Bot], false),
   (str "positron_hodo", [.Single_3_Top, .Single_3_Bot], false),
   (str "2gamma", [.Mult_0], false),
   (str "Mult-0", [.Mult_0], false),
   (str "Multiplicity-0", [.Mult_0], false),
   (str "3gamma", [.Mult_1], false),
   (str "Mult-1", [.Mult_1], false),
   (str "Multiplicity-1", [.Mult_1], false),
   (str "pulser", [.Pulser], false),
   (str "fcup", [], true),
   (str "random", [.Pulser], true)]

inductive Literal : Str → Nat → Prop
  | decimal {s : Str} : s ≠ [] → (∀ c ∈ s, Str.isDigitIn 10 c) → Literal s (Str.natIn 10 s)
  | hex {s : Str} : s ≠ [] → (∀ c ∈ s, Str.isDigitIn 16 c) →
    Literal (48 :: 120 :: s) (Str.natIn 16 s)
  | binary {s : Str} : s ≠ [] → (∀ c ∈ s, Str.isDigitIn 2 c) →
    Literal (48 :: 98 :: s) (Str.natIn 2 s)

inductive StandsFor : Str → TriggerFilter → Prop
  | name {s : Str} {bits : List TriggerBit} {fcup : Bool} : (s, bits, fcup) ∈ names →
    StandsFor s { bits.foldl TriggerFilter.set {} with Filter_FCup := fcup }
  | number {s : Str} {p : Nat} : Literal s p → p < 2 ^ 32 →
    StandsFor s { trigger_setting := .ofNat p }

/-- A specifier gives its filter, and any other text prints the options and returns 1. -/
def Follows (s : Str) (r : Specified) : Prop :=
  (∀ f, StandsFor s f → r = .filter f) ∧
    ((∀ f, ¬StandsFor s f) → ∃ first, r = .exit 1 (first ++ filterOptions))

end TriggerSpecifier

end EvioTool
