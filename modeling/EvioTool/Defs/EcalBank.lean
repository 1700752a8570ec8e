import Mathlib.Algebra.Order.Ring.Rat
import Mathlib.Data.Prod.Lex
import EvioTool.Defs.EcalHit

/-! `EcalBank`: the hit map and its clusters. -/

namespace EvioTool

structure EcalGTPCluster where
  seed_ixy : Ecal_point_t
  seed_idx : Int := -1
  hit_ixy : List Ecal_point_t := []
  hit_idx : List Nat := []
  energy : Rat := 0
  time : Rat := 0
  deriving DecidableEq

namespace EcalGTPCluster

def new (hit : EcalHit_t) (hit_id : Fin hit.hits.length) : EcalGTPCluster where
  seed_ixy := hit.ixy
  seed_idx := hit_id
  energy := (hit.hits.get hit_id).energy
  time := (hit.hits.get hit_id).time

def addHit (c : EcalGTPCluster) (hit : EcalHit_t) (hit_i : Fin hit.hits.length) :
    EcalGTPCluster :=
  { c with
    hit_ixy := c.hit_ixy ++ [hit.ixy]
    hit_idx := c.hit_idx ++ [hit_i.val]
    energy := c.energy + (hit.hits.get hit_i).energy }

def hits (c : EcalGTPCluster) : List (Ecal_point_t × Nat) := c.hit_ixy.zip c.hit_idx

end EcalGTPCluster

structure EcalHitMap_t where
  entries : List EcalHit_t
  sorted : entries.Pairwise fun e f => toLex e.ixy < toLex f.ixy
  crystals : ∀ e ∈ entries, IsCrystal e.ixy

def EcalHitMap_t.find (m : EcalHitMap_t) (p : Ecal_point_t) : Option EcalHit_t :=
  m.entries.find? fun e => e.ixy = p

structure EcalBank where
  hitmap : EcalHitMap_t
  GTPClusters : List EcalGTPCluster := []
  cluster_seed_thresh : Int := 100
  cluster_hit_dt : Int := 16

namespace EcalBank

def testHits (b : EcalBank) (seed : FADC_Hit_t) (testh : EcalHit_t) :
    List (Fin testh.hits.length) → EcalGTPCluster → Bool × EcalGTPCluster
  | [], c => (true, c)
  | hit_i :: is, c =>
    if (testh.hits.get hit_i).energy > seed.energy then (false, c)
    else if |(testh.hits.get hit_i).time - seed.time| > b.cluster_hit_dt then (true, c)
    else b.testHits seed testh is (c.addHit testh hit_i)

def testPoints (b : EcalBank) (seed : FADC_Hit_t) (fin : BlockIterator) :
    Nat → BlockIterator → Bool → EcalGTPCluster → Option EcalGTPCluster
  | 0, _, _, _ => none
  | n + 1, it, cluster_seed_ok, c =>
    if it.ixy ≠ fin.ixy ∧ cluster_seed_ok then do
      let (ok, c) := match b.hitmap.find it.ixy with
        | some testh => b.testHits seed testh (List.finRange testh.hits.length) c
        | none => (cluster_seed_ok, c)
      let it ← it.incr n
      b.testPoints seed fin n it ok c
    else some c

/-- The loop over the hits of a crystal.  A cluster is started with hit 0, and stored
whatever `cluster_seed_ok` is. -/
def seedHits (b : EcalBank) (fuel : Nat) (seed : EcalHit_t) :
    List (Fin seed.hits.length) → Option (List EcalGTPCluster)
  | [] => some []
  | seed_i :: is =>
    if (seed.hits.get seed_i).energy < b.cluster_seed_thresh then b.seedHits fuel seed is
    else do
      let this_cluster := EcalGTPCluster.new seed ⟨0, seed_i.pos⟩
      let first ← (BlockIterator.new seed.ixy).begin fuel
      let fin ← (BlockIterator.new seed.ixy).end_ fuel
      let c ← b.testPoints (seed.hits.get seed_i) fin fuel first true this_cluster
      let cs ← b.seedHits fuel seed is
      some (c :: cs)

def findGTPClusters (fuel : Nat) (b : EcalBank) : Option EcalBank := do
  let css ← b.hitmap.entries.mapM fun seed =>
    b.seedHits fuel seed (List.finRange seed.hits.length)
  some { b with GTPClusters := css.flatten }

abbrev Seed := (e : EcalHit_t) × Fin e.hits.length

namespace Seed

def hit (s : Seed) : FADC_Hit_t := s.1.hits.get s.2

end Seed

def seeds (b : EcalBank) : List Seed :=
  b.hitmap.entries.flatMap fun e => (List.finRange e.hits.length).map fun i => ⟨e, i⟩

def near (b : EcalBank) (p : Ecal_point_t) : List EcalHit_t :=
  ((around 20 p).getD []).filterMap b.hitmap.find

def OverThresh (b : EcalBank) (s : Seed) : Prop := b.cluster_seed_thresh ≤ s.hit.energy

instance : Decidable (OverThresh b s) := inferInstanceAs (Decidable (_ ≤ _))

def InTime (b : EcalBank) (s : Seed) (h : FADC_Hit_t) : Prop :=
  |h.time - s.hit.time| ≤ b.cluster_hit_dt

instance : DecidablePred (InTime b s) := fun _ => inferInstanceAs (Decidable (_ ≤ _))

def Contested (b : EcalBank) (s : Seed) : Prop :=
  ∃ e ∈ b.near s.1.ixy, ∃ h ∈ e.hits, b.InTime s h ∧ s.hit.energy < h.energy

instance : Decidable (Contested b s) := inferInstanceAs (Decidable (∃ e ∈ _, ∃ h ∈ _, _))

/-- The local maxima over the threshold. -/
def maxima (b : EcalBank) : List Seed := b.seeds.filter fun s => b.OverThresh s ∧ ¬b.Contested s

end EcalBank

end EvioTool
