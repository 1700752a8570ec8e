import Mathlib.Data.Rat.Defs

/-! Crystals of the ECAL, the hits on them, and the iterator over the crystals around one. -/

namespace EvioTool

/-- The members of a hit that clustering looks at.  Energies and times are exact. -/
structure FADC_Hit_t where
  energy : Rat
  time : Rat
  deriving DecidableEq

abbrev Ecal_point_t := Int × Int

structure EcalHit_t where
  fadc_index : Int := -1
  ixy : Ecal_point_t
  hits : List FADC_Hit_t
  deriving DecidableEq

structure BlockIterator where
  ixy : Ecal_point_t
  ixy0 : Ecal_point_t
  span : Int := 1
  deriving DecidableEq

namespace BlockIterator

def ecal_min_x : Int := -23
def ecal_min_y : Int := -5
def ecal_max_x : Int := 23
def ecal_max_y : Int := 5

def new (start : Ecal_point_t) : BlockIterator := { ixy := start, ixy0 := start }

def InHole (p : Ecal_point_t) : Prop := p.2.natAbs = 1 ∧ p.1 > -11 ∧ p.1 < -1

instance : DecidablePred InHole := fun _ => inferInstanceAs (Decidable (_ ∧ _))

def lastX (it : BlockIterator) : Int :=
  if it.ixy0.1 < -it.span ∨ it.ixy0.1 > 0 then it.ixy0.1 + it.span else it.ixy0.1 + it.span + 1

def move (it : BlockIterator) : BlockIterator :=
  let x := it.ixy.1 + 1
  let x := if x = 0 then 1 else x
  if x > it.lastX ∨ x > ecal_max_x then
    let x := it.ixy0.1 - it.span
    let x := if x = 0 then -1 else x
    let x := if x < ecal_min_x then ecal_min_x else x
    { it with ixy := (x, it.ixy.2 + 1) }
  else { it with ixy := (x, it.ixy.2) }

/-- `operator++`, which calls itself to get over the centre and out of the hole. -/
def incr : Nat → BlockIterator → Option BlockIterator
  | 0, _ => none
  | n + 1, it =>
    let it := it.move
    (if it.ixy = it.ixy0 then incr n it else some it).bind fun it =>
      if InHole it.ixy then incr n it else some it

def corner (it : BlockIterator) (dist : Int) : BlockIterator :=
  let ix := it.ixy.1 - dist
  let ix := if ix < ecal_min_x then ecal_min_x else ix
  let ix := if ix = 0 then -1 else ix
  let iy := it.ixy.2 - dist
  let iy := if it.ixy.2 > 0 ∧ iy < 1 then 1 else iy
  let ix := if iy < ecal_min_y ∧ ix = ecal_min_x then ecal_min_x + 1 else ix
  let iy := if iy < ecal_min_y then ecal_min_y else iy
  { ixy := (ix, iy), ixy0 := it.ixy0 }

def begin (fuel : Nat) (it : BlockIterator) (dist : Int := 1) : Option BlockIterator :=
  let start := it.corner dist
  if InHole start.ixy then incr fuel start else some start

def end_ (fuel : Nat) (it : BlockIterator) (dist : Int := 1) : Option BlockIterator :=
  let ix := it.ixy.1 + dist
  let ix := if ix = 0 then 1 else ix
  let ix := if ix > ecal_max_x then ecal_max_x else ix
  let iy := it.ixy.2 + dist
  let iy := if it.ixy.2 < 0 ∧ iy > -1 then -1 else iy
  let iy := if iy > ecal_max_y then ecal_max_y else iy
  incr fuel { ixy := (ix, iy), ixy0 := it.ixy0 }

def points (fin : BlockIterator) : Nat → BlockIterator → Option (List Ecal_point_t)
  | 0, _ => none
  | n + 1, it =>
    if it.ixy = fin.ixy then some []
    else do
      let next ← it.incr n
      let ps ← points fin n next
      some (it.ixy :: ps)

end BlockIterator

/-- There are no crystals in column 0, in row 0 and in the hole. -/
def IsCrystal (p : Ecal_point_t) : Prop :=
  (-23 ≤ p.1 ∧ p.1 ≤ 23 ∧ p.1 ≠ 0) ∧ (-5 ≤ p.2 ∧ p.2 ≤ 5 ∧ p.2 ≠ 0) ∧ ¬BlockIterator.InHole p

instance : DecidablePred IsCrystal := fun _ => inferInstanceAs (Decidable (_ ∧ _))

def around (fuel : Nat) (p : Ecal_point_t) : Option (List Ecal_point_t) := do
  let first ← (BlockIterator.new p).begin fuel
  let fin ← (BlockIterator.new p).end_ fuel
  BlockIterator.points fin fuel first

end EvioTool
