import Mathlib.Data.List.FinRange
import EvioTool.Lib.Memory
import EvioTool.Defs.EcalBank
import EvioTool.Laws.BlockIterator

namespace EvioTool

namespace EcalBank

variable {b : EcalBank} {s : Seed} {c : EcalGTPCluster} {fuel n : Nat}

def Taken (b : EcalBank) (s : Seed) (h : FADC_Hit_t) : Prop :=
  ¬s.hit.energy < h.energy ∧ b.InTime s h

instance : DecidablePred (Taken b s) := fun _ => inferInstanceAs (Decidable (_ ∧ _))

def passes (b : EcalBank) (s : Seed) (e : EcalHit_t) : Bool :=
  (e.hits.find? fun h => ¬b.Taken s h).all fun h => ¬s.hit.energy < h.energy

def taken (b : EcalBank) (s : Seed) (e : EcalHit_t) : List Seed :=
  ((List.finRange e.hits.length).takeWhile fun i => b.Taken s (e.hits.get i)).map fun i => ⟨e, i⟩

def listed (b : EcalBank) (s : Seed) : List EcalHit_t → List Seed
  | [] => []
  | e :: es => b.taken s e ++ if b.passes s e then b.listed s es else []

def stored (b : EcalBank) (s : Seed) : EcalGTPCluster :=
  (b.listed s (b.near s.1.ixy)).foldl (fun c t => c.addHit t.1 t.2)
    (EcalGTPCluster.new s.1 ⟨0, s.2.pos⟩)

theorem testHits_eq (e : EcalHit_t) (is : List (Fin e.hits.length)) (c : EcalGTPCluster) :
    b.testHits s.hit e is c =
      (((is.map e.hits.get).find? fun h => ¬b.Taken s h).all fun h => ¬s.hit.energy < h.energy,
        (is.takeWhile fun i => b.Taken s (e.hits.get i)).foldl (fun c i => c.addHit e i) c) := by
  induction is generalizing c with
  | nil => rfl
  | cons i is ih =>
    rw [testHits, List.map_cons, List.find?_cons, List.takeWhile_cons]
    by_cases hlt : s.hit.energy < (e.hits.get i).energy
    · have ht : ¬b.Taken s (e.hits.get i) := fun h => h.1 hlt
      simp only [gt_iff_lt, hlt, ht, if_true, not_true, not_false_eq_true, decide_true, decide_false,
        Option.all_some, Bool.false_eq_true, if_false, List.foldl_nil]
    · by_cases hin : b.InTime s (e.hits.get i)
      · have ht : b.Taken s (e.hits.get i) := ⟨hlt, hin⟩
        have hle : ¬|(e.hits.get i).time - s.hit.time| > b.cluster_hit_dt := not_lt.mpr hin
        simp only [gt_iff_lt, hlt, ht, if_false, hle, not_true, decide_true, decide_false, if_true,
          List.foldl_cons]
        exact ih _
      · have ht : ¬b.Taken s (e.hits.get i) := fun h => hin h.2
        have hgt : |(e.hits.get i).time - s.hit.time| > b.cluster_hit_dt := not_le.mp hin
        simp only [gt_iff_lt, hlt, ht, if_false, hgt, not_false_eq_true, decide_true, decide_false,
          if_true, Option.all_some, Bool.false_eq_true, List.foldl_nil]

theorem testPoints_eq {fin it : BlockIterator} {ps : List Ecal_point_t}
    (h : BlockIterator.points fin n it = some ps) (ok : Bool) (c : EcalGTPCluster) :
    b.testPoints s.hit fin n it ok c =
      some ((if ok then b.listed s (ps.filterMap b.hitmap.find) else []).foldl
        (fun c t => c.addHit t.1 t.2) c) := by
  induction n generalizing it ps ok c with
  | zero => cases h
  | succ n ih =>
    rw [BlockIterator.points] at h
    rw [testPoints]
    cases ok with
    | false => simp
    | true =>
      split at h <;> rename_i hfin
      · obtain rfl := Option.some.inj h
        simp [hfin, listed]
      · simp only [Option.bind_eq_bind, Option.bind_eq_some_iff, Option.some.injEq] at h
        obtain ⟨next, hnext, qs, hqs, rfl⟩ := h
        rw [if_pos ⟨hfin, rfl⟩, hnext]
        cases hf : b.hitmap.find it.ixy with
        | none => simp [hf, ih hqs]
        | some e =>
          simp only [testHits_eq, List.map_get_finRange, Option.bind_eq_bind, Option.bind_some, ih hqs, hf,
            List.filterMap_cons, listed, if_true]
          simp only [List.foldl_append, taken, List.foldl_map, passes]
          rfl

theorem seedHits_eq {e : EcalHit_t} {first fin : BlockIterator} {ps : List Ecal_point_t}
    (hfirst : (BlockIterator.new e.ixy).begin fuel = some first)
    (hfin : (BlockIterator.new e.ixy).end_ fuel = some fin)
    (hps : BlockIterator.points fin fuel first = some ps)
    (hnear : b.near e.ixy = ps.filterMap b.hitmap.find) (is : List (Fin e.hits.length)) :
    b.seedHits fuel e is = some (((is.map fun i => (⟨e, i⟩ : Seed)).filter
      fun s => b.OverThresh s).map b.stored) := by
  induction is with
  | nil => rfl
  | cons i is ih =>
    rw [seedHits, List.map_cons, List.filter_cons]
    by_cases hover : b.OverThresh ⟨e, i⟩
    · have hlt : ¬(e.hits.get i).energy < b.cluster_seed_thresh := not_lt.mpr hover
      have hpoints := testPoints_eq (b := b) (s := ⟨e, i⟩) hps true (.new e ⟨0, i.pos⟩)
      rw [if_neg hlt, hfirst, hfin]
      simp only [Seed.hit] at hpoints
      simp only [Option.bind_eq_bind, Option.bind_some, ih, hpoints, hover, decide_true, if_true,
        List.map_cons, stored, hnear]
    · have hlt : (e.hits.get i).energy < b.cluster_seed_thresh := not_le.mp hover
      rw [if_pos hlt, ih]
      simp [hover]

theorem begin_end {p : Ecal_point_t} (hp : IsCrystal p) (hfuel : 20 ≤ fuel) :
    ∃ first fin ps, (BlockIterator.new p).begin fuel = some first ∧
      (BlockIterator.new p).end_ fuel = some fin ∧
      BlockIterator.points fin fuel first = some ps ∧ b.near p = ps.filterMap b.hitmap.find := by
  obtain ⟨ps, hps, -⟩ := around_crystal hp
  have hnear : b.near p = ps.filterMap b.hitmap.find := by rw [near, hps, Option.getD_some]
  simp only [around, Option.bind_eq_bind, Option.bind_eq_some_iff] at hps
  obtain ⟨first, hfirst, fin, hfin, hpoints⟩ := hps
  exact ⟨first, fin, ps, BlockIterator.begin_mono hfirst hfuel, BlockIterator.end_mono hfin hfuel,
    BlockIterator.points_mono hpoints hfuel, hnear⟩

theorem findGTPClusters_eq (hfuel : 20 ≤ fuel) : b.findGTPClusters fuel =
    some { b with GTPClusters := (b.seeds.filter fun s => b.OverThresh s).map b.stored } := by
  have hseed : ∀ e ∈ b.hitmap.entries, b.seedHits fuel e (List.finRange e.hits.length) =
      some ((((List.finRange e.hits.length).map fun i => (⟨e, i⟩ : Seed)).filter
        fun s => b.OverThresh s).map b.stored) := by
    intro e he
    obtain ⟨first, fin, ps, hfirst, hfin, hps, hnear⟩ :=
      begin_end (b := b) (b.hitmap.crystals e he) hfuel
    exact seedHits_eq hfirst hfin hps hnear _
  rw [findGTPClusters, Lib.Mem.mapM_of_forall hseed]
  simp only [Option.bind_eq_bind, Option.bind_some, ← List.flatMap_def, seeds, List.filter_flatMap,
    List.map_flatMap]

theorem foldl_addHit (ts : List Seed) (c : EcalGTPCluster) :
    ts.foldl (fun c t => c.addHit t.1 t.2) c =
      { c with
        hit_ixy := c.hit_ixy ++ ts.map fun t => t.1.ixy
        hit_idx := c.hit_idx ++ ts.map fun t => t.2.val
        energy := c.energy + (ts.map fun t => t.hit.energy).sum } := by
  induction ts generalizing c with
  | nil => simp
  | cons t ts ih =>
    rw [List.foldl_cons, ih]
    simp [EcalGTPCluster.addHit, Seed.hit, add_assoc]

@[simp] theorem seed_ixy_stored : (b.stored s).seed_ixy = s.1.ixy := by
  rw [stored, foldl_addHit]
  rfl

@[simp] theorem seed_idx_stored : (b.stored s).seed_idx = 0 := by
  rw [stored, foldl_addHit]
  rfl

/-- Every hit over the threshold is the first one of its crystal, and in no competition with a
larger one. -/
def Uncontested (b : EcalBank) : Prop := ∀ s ∈ b.seeds, b.OverThresh s → s.2.val = 0 ∧ ¬b.Contested s

theorem map_key_filter_eq_iff (l : List Seed) :
    (l.map fun s => (s.1.ixy, (0 : Int))) =
      ((l.filter fun s => ¬b.Contested s).map fun s => (s.1.ixy, (s.2.val : Int))) ↔
        ∀ s ∈ l, s.2.val = 0 ∧ ¬b.Contested s := by
  constructor
  · intro h
    have hlen := congrArg List.length h
    simp only [List.length_map] at hlen
    have hall := List.length_filter_eq_length_iff.mp hlen.symm
    rw [List.filter_eq_self.mpr hall, List.map_inj_left] at h
    intro s hs
    have hidx := congrArg Prod.snd (h s hs)
    exact ⟨Int.ofNat_eq_zero.mp hidx.symm, of_decide_eq_true (hall s hs)⟩
  · intro h
    have hall : ∀ s ∈ l, decide ¬b.Contested s := fun s hs => decide_eq_true (h s hs).2
    rw [List.filter_eq_self.mpr hall, List.map_inj_left]
    intro s hs
    rw [(h s hs).1]
    rfl

/-- The clusters are those of the local maxima exactly when every hit over the threshold is one, and
the first one of its crystal. -/
theorem findGTPClusters_maxima (b : EcalBank) : ∃ F cs,
    (∀ fuel, F ≤ fuel → b.findGTPClusters fuel = some { b with GTPClusters := cs }) ∧
      ((cs.map fun c => (c.seed_ixy, c.seed_idx)) = (b.maxima.map fun s => (s.1.ixy, (s.2.val : Int))) ↔
        b.Uncontested) := by
  refine ⟨20, _, fun fuel hfuel => findGTPClusters_eq hfuel, ?_⟩
  have hmax : b.maxima = (b.seeds.filter fun s => b.OverThresh s).filter fun s => ¬b.Contested s := by
    simp only [maxima, List.filter_filter, Bool.decide_and, Bool.and_comm]
  simp only [List.map_map, Function.comp_def, seed_ixy_stored, seed_idx_stored, hmax]
  rw [map_key_filter_eq_iff]
  simp only [List.mem_filter, decide_eq_true_eq, and_imp, Uncontested]

def neighbours : EcalBank where
  hitmap :=
    { entries := [{ ixy := (1, 1), hits := [⟨200, 0⟩] }, { ixy := (2, 1), hits := [⟨300, 0⟩] }]
      sorted := by decide
      crystals := by decide }

theorem neighbours_not_maxima :
    (neighbours.findGTPClusters 20).map (fun b => b.GTPClusters.map fun c => (c.seed_ixy, c.seed_idx)) =
      some [((1, 1), 0), ((2, 1), 0)] ∧
        (neighbours.maxima.map fun s => (s.1.ixy, (s.2.val : Int))) = [((2, 1), 0)] := by
  decide +kernel

end EcalBank

end EvioTool
