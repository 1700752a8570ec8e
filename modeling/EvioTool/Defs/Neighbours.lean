import Mathlib.Algebra.Order.Group.Unbundled.Int
import EvioTool.Defs.EcalHit

/-! The crystals around one, and the points that the block iterator visits for them. -/

namespace EvioTool

def visited (fuel : Nat) (p : Ecal_point_t) (dist : Int) : Option (List Ecal_point_t) := do
  let first ← (BlockIterator.new p).begin fuel dist
  let fin ← (BlockIterator.new p).end_ fuel dist
  BlockIterator.points fin fuel first

def column (x : Int) : Int := if x < 0 then x + 1 else x

/-- A crystal within `dist` columns and rows of the one at `p`, in the same half. -/
structure Neighbour (p : Ecal_point_t) (dist : Int) (q : Ecal_point_t) : Prop where
  crystal : IsCrystal q
  ne : q ≠ p
  half : 0 < q.2 ↔ 0 < p.2
  columns : |column q.1 - column p.1| ≤ dist
  rows : |q.2 - p.2| ≤ dist

/-- The loop comes to its end, and visits each neighbour once and nothing else. -/
def VisitsNeighbours (p : Ecal_point_t) (dist : Int) : Prop :=
  ∃ ps, (∃ F, ∀ fuel, F ≤ fuel → visited fuel p dist = some ps) ∧ ps.Nodup ∧
    ∀ q, q ∈ ps ↔ Neighbour p dist q

end EvioTool
