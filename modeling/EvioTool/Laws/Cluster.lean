import Mathlib.Data.List.Find
import EvioTool.Lib.Prefix
import EvioTool.Laws.EcalBank

/-! What the stored clusters hold. -/

namespace EvioTool

open Lib

namespace EcalBank

variable {b : EcalBank} {s : Seed} {e : EcalHit_t} {es : List EcalHit_t}

def inTime (b : EcalBank) (s : Seed) (e : EcalHit_t) : List Seed :=
  ((List.finRange e.hits.length).filter fun i => b.InTime s (e.hits.get i)).map fun i => ⟨e, i⟩

/-- The first hit of `e` that is out of time has larger energy than the seed. -/
def Stops (b : EcalBank) (s : Seed) (e : EcalHit_t) : Prop :=
  ∃ h, (e.hits.find? fun h => ¬b.InTime s h) = some h ∧ s.hit.energy < h.energy

theorem taken_sublist (e : EcalHit_t) : (b.taken s e).Sublist (b.inTime s e) := by
  refine List.Sublist.map _ (takeWhile_sublist_filter fun i hi => ?_)
  exact decide_eq_true (of_decide_eq_true hi).2

theorem listed_sublist (es : List EcalHit_t) :
    (b.listed s es).Sublist (es.flatMap (b.inTime s)) := by
  induction es with
  | nil => exact .slnil
  | cons e es ih =>
    rw [listed, List.flatMap_cons]
    refine (taken_sublist e).append ?_
    split
    · exact ih
    · exact List.nil_sublist _

theorem taken_eq_iff : b.taken s e = b.inTime s e ↔
    (∀ h ∈ e.hits, b.InTime s h → ¬s.hit.energy < h.energy) ∧
      e.hits.Pairwise fun h h' => b.InTime s h' → b.InTime s h := by
  have hmap := List.map_get_finRange e.hits
  have hiff := takeWhile_eq_filter_iff (l := List.finRange e.hits.length)
    (p := fun i => decide (b.InTime s (e.hits.get i)))
    (q := fun i => decide (b.Taken s (e.hits.get i))) fun i hi =>
      decide_eq_true (of_decide_eq_true hi).2
  have hinj : Function.Injective fun i : Fin e.hits.length => (⟨e, i⟩ : Seed) := fun i j hij =>
    eq_of_heq (Sigma.mk.inj hij).2
  rw [taken, inTime, hinj.list_map.eq_iff, hiff]
  simp only [decide_eq_true_eq]
  conv => rhs; rw [← hmap]
  rw [List.forall_mem_map, List.pairwise_map]
  refine and_congr_left' (forall₂_congr fun i _ => ?_)
  exact ⟨fun h hin => (h hin).1, fun h hin => ⟨h hin, hin⟩⟩

theorem passes_iff (hle : ∀ h ∈ e.hits, b.InTime s h → ¬s.hit.energy < h.energy) :
    b.passes s e ↔ ¬b.Stops s e := by
  have hfind : (e.hits.find? fun h => ¬b.Taken s h) = e.hits.find? fun h => ¬b.InTime s h := by
    refine List.find?_congr fun h hh => ?_
    rw [decide_eq_decide, not_iff_not]
    exact ⟨fun ht => ht.2, fun hin => ⟨hle h hh hin, hin⟩⟩
  rw [passes, hfind, Stops]
  cases (e.hits.find? fun h => ¬b.InTime s h) <;> simp

theorem inTime_eq_nil_iff : b.inTime s e = [] ↔ ∀ h ∈ e.hits, ¬b.InTime s h := by
  have hmap := List.map_get_finRange e.hits
  rw [inTime, List.map_eq_nil_iff, List.filter_eq_nil_iff]
  conv => rhs; rw [← hmap]
  rw [List.forall_mem_map]
  simp only [decide_eq_true_eq]

theorem listed_eq_iff (es : List EcalHit_t) : b.listed s es = es.flatMap (b.inTime s) ↔
    (∀ e ∈ es, ∀ h ∈ e.hits, b.InTime s h → ¬s.hit.energy < h.energy) ∧
      (∀ e ∈ es, e.hits.Pairwise fun h h' => b.InTime s h' → b.InTime s h) ∧
      es.Pairwise fun e e' => b.Stops s e → ∀ h ∈ e'.hits, ¬b.InTime s h := by
  induction es with
  | nil => simp [listed]
  | cons e es ih =>
    have hrest : (if b.passes s e then b.listed s es else []).Sublist (es.flatMap (b.inTime s)) := by
      split
      · exact listed_sublist es
      · exact List.nil_sublist _
    rw [listed, List.flatMap_cons, append_eq_append_iff_of_sublist (taken_sublist e) hrest,
      taken_eq_iff, List.forall_mem_cons, List.forall_mem_cons, List.pairwise_cons]
    have hnil : [] = es.flatMap (b.inTime s) ↔ ∀ e' ∈ es, ∀ h ∈ e'.hits, ¬b.InTime s h := by
      rw [eq_comm, List.flatMap_eq_nil_iff]
      exact forall₂_congr fun e' _ => inTime_eq_nil_iff
    constructor
    · rintro ⟨⟨hle, hgroup⟩, hlist⟩
      by_cases hstop : b.Stops s e
      · rw [if_neg (by rw [passes_iff hle]; exact not_not.mpr hstop), hnil] at hlist
        refine ⟨⟨hle, fun e' he' h hh hin => absurd hin (hlist e' he' h hh)⟩,
          ⟨hgroup, fun e' he' => ?_⟩, fun e' he' _ => hlist e' he', ?_⟩
        · exact List.pairwise_of_forall_mem_list fun _ _ h' hh' hin => absurd hin (hlist e' he' h' hh')
        · exact List.pairwise_of_forall_mem_list fun _ _ e' he' _ => hlist e' he'
      · rw [if_pos ((passes_iff hle).mpr hstop), ih] at hlist
        exact ⟨⟨hle, hlist.1⟩, ⟨hgroup, hlist.2.1⟩, fun e' _ hs => absurd hs hstop, hlist.2.2⟩
    · rintro ⟨⟨hle, hles⟩, ⟨hgroup, hgroups⟩, hclear, hclears⟩
      refine ⟨⟨hle, hgroup⟩, ?_⟩
      split <;> rename_i hpass
      · exact ih.mpr ⟨hles, hgroups, hclears⟩
      · rw [passes_iff hle, not_not] at hpass
        exact hnil.mpr fun e' he' => hclear e' he' hpass

def key (t : Seed) : Ecal_point_t × Nat := (t.1.ixy, t.2.val)

def energyAt (b : EcalBank) (k : Ecal_point_t × Nat) : Rat :=
  (((b.hitmap.find k.1).bind fun e => e.hits[k.2]?).map FADC_Hit_t.energy).getD 0

/-- The cluster is that of the seed `s`, with all hits around it that are in time. -/
structure Describes (b : EcalBank) (s : Seed) (c : EcalGTPCluster) : Prop where
  seed_ixy : c.seed_ixy = s.1.ixy
  seed_idx : c.seed_idx = s.2.val
  aligned : c.hit_ixy.length = c.hit_idx.length
  once : c.hits.Nodup
  hits : ∀ p i, (p, i) ∈ c.hits ↔
    ∃ e ∈ b.near s.1.ixy, e.ixy = p ∧ ∃ h, e.hits[i]? = some h ∧ b.InTime s h
  energy : c.energy = s.hit.energy + (c.hits.map b.energyAt).sum

/-- The seed is the first hit of its crystal, no hit in time is larger, hits in time come
first in their crystals, and behind a crystal where the scan is stopped there are none. -/
structure Unobstructed (b : EcalBank) (s : Seed) : Prop where
  first : s.2.val = 0
  largest : ¬b.Contested s
  grouped : ∀ e ∈ b.near s.1.ixy, e.hits.Pairwise fun h h' => b.InTime s h' → b.InTime s h
  clear : (b.near s.1.ixy).Pairwise fun e e' => b.Stops s e → ∀ h ∈ e'.hits, ¬b.InTime s h

theorem find_ixy {p : Ecal_point_t} (h : b.hitmap.find p = some e) : e.ixy = p :=
  of_decide_eq_true (List.find?_some (p := fun e : EcalHit_t => decide (e.ixy = p)) h)

theorem near_sublist (ps : List Ecal_point_t) :
    ((ps.filterMap b.hitmap.find).map EcalHit_t.ixy).Sublist ps := by
  induction ps with
  | nil => exact .slnil
  | cons p ps ih =>
    cases hf : b.hitmap.find p with
    | none =>
      rw [List.filterMap_cons_none hf]
      exact ih.cons p
    | some e =>
      rw [List.filterMap_cons_some hf, List.map_cons, find_ixy hf]
      exact ih.cons_cons p

theorem nodup_near {p : Ecal_point_t} (hp : IsCrystal p) :
    ((b.near p).map EcalHit_t.ixy).Nodup := by
  obtain ⟨ps, hps, hnodup⟩ := around_crystal hp
  rw [near, hps, Option.getD_some]
  exact (near_sublist ps).nodup hnodup

theorem find_near {p : Ecal_point_t} (h : e ∈ b.near p) : b.hitmap.find e.ixy = some e := by
  obtain ⟨q, -, hq⟩ := List.mem_filterMap.mp h
  rw [find_ixy hq, hq]

theorem mem_inTime {t : Seed} : t ∈ b.inTime s e ↔ t.1 = e ∧ b.InTime s t.hit := by
  simp only [inTime, List.mem_map, List.mem_filter, List.mem_finRange, true_and, decide_eq_true_eq]
  constructor
  · rintro ⟨i, hi, rfl⟩
    exact ⟨rfl, hi⟩
  · obtain ⟨f, i⟩ := t
    rintro ⟨rfl, hi⟩
    exact ⟨i, hi, rfl⟩

theorem nodup_inTime (e : EcalHit_t) : ((b.inTime s e).map key).Nodup := by
  rw [inTime, List.map_map]
  refine ((List.nodup_finRange _).filter _).map fun i j hij => ?_
  exact Fin.ext (Prod.mk.inj hij).2

theorem nodup_flatMap_inTime (h : (es.map EcalHit_t.ixy).Nodup) :
    ((es.flatMap (b.inTime s)).map key).Nodup := by
  induction es with
  | nil => exact List.nodup_nil
  | cons e es ih =>
    rw [List.map_cons, List.nodup_cons] at h
    rw [List.flatMap_cons, List.map_append]
    refine (nodup_inTime e).append (ih h.2) ?_
    intro k hk hk'
    obtain ⟨t, ht, rfl⟩ := List.mem_map.mp hk
    obtain ⟨t', ht', heq⟩ := List.mem_map.mp hk'
    obtain ⟨e', he', ht'⟩ := List.mem_flatMap.mp ht'
    refine h.1 (List.mem_map.mpr ⟨e', he', ?_⟩)
    rw [← (mem_inTime.mp ht).1, ← (mem_inTime.mp ht').1]
    exact congrArg Prod.fst heq

theorem mem_keys {p : Ecal_point_t} {i : Nat} : (p, i) ∈ (es.flatMap (b.inTime s)).map key ↔
    ∃ e ∈ es, e.ixy = p ∧ ∃ h, e.hits[i]? = some h ∧ b.InTime s h := by
  simp only [List.mem_map, List.mem_flatMap, mem_inTime, key, Prod.mk.injEq]
  constructor
  · rintro ⟨⟨f, j⟩, ⟨e, he, rfl, hin⟩, rfl, rfl⟩
    exact ⟨f, he, rfl, _, List.getElem?_eq_getElem j.isLt, hin⟩
  · rintro ⟨e, he, rfl, h, hh, hin⟩
    obtain ⟨hi, rfl⟩ := List.getElem?_eq_some_iff.mp hh
    exact ⟨⟨e, ⟨i, hi⟩⟩, ⟨e, he, rfl, hin⟩, rfl, rfl⟩

theorem hits_stored : (b.stored s).hits = (b.listed s (b.near s.1.ixy)).map key := by
  rw [stored, foldl_addHit]
  simp only [EcalGTPCluster.hits, EcalGTPCluster.new, List.nil_append, List.zip_map']
  rfl

theorem sum_energyAt {ts : List Seed} {p : Ecal_point_t} (h : ∀ t ∈ ts, t.1 ∈ b.near p) :
    ((ts.map key).map b.energyAt).sum = (ts.map Seed.hit |>.map FADC_Hit_t.energy).sum := by
  rw [List.map_map, List.map_map]
  congr 1
  refine List.map_congr_left fun t ht => ?_
  simp [energyAt, key, find_near (h t ht), Seed.hit]

theorem mem_near_of_listed {t : Seed} (h : t ∈ b.listed s es) : t.1 ∈ es := by
  obtain ⟨e, he, ht⟩ := List.mem_flatMap.mp ((listed_sublist es).subset h)
  rw [(mem_inTime.mp ht).1]
  exact he

theorem describes_stored_iff (hs : IsCrystal s.1.ixy) :
    b.Describes s (b.stored s) ↔ b.Unobstructed s := by
  have hlist := listed_eq_iff (b := b) (s := s) (b.near s.1.ixy)
  have hcontest : (∀ e ∈ b.near s.1.ixy, ∀ h ∈ e.hits, b.InTime s h → ¬s.hit.energy < h.energy) ↔
      ¬b.Contested s := by
    simp [Contested]
  rw [hcontest] at hlist
  have hnodup := nodup_flatMap_inTime (b := b) (s := s) (nodup_near (b := b) hs)
  have hidx : (b.stored s).seed_idx = 0 := by
    rw [stored, foldl_addHit]
    rfl
  constructor
  · intro h
    have hfirst : s.2.val = 0 := by exact_mod_cast h.seed_idx.symm.trans hidx
    have hall := sublist_eq_of_mem_iff (listed_sublist (b := b) (s := s) (b.near s.1.ixy)) hnodup
      fun k hk => by
        rw [← hits_stored]
        exact (h.hits k.1 k.2).mpr (mem_keys.mp hk)
    obtain ⟨hl, hg, hc⟩ := hlist.mp hall
    exact ⟨hfirst, hl, hg, hc⟩
  · intro h
    have hall := hlist.mpr ⟨h.largest, h.grouped, h.clear⟩
    refine ⟨seed_ixy_stored, ?_, ?_, ?_, fun p i => ?_, ?_⟩
    · rw [hidx, h.first]
      rfl
    · rw [stored, foldl_addHit]
      simp [EcalGTPCluster.new]
    · rw [hits_stored, hall]
      exact hnodup
    · rw [hits_stored, hall]
      exact mem_keys
    · rw [hits_stored, sum_energyAt fun t ht => mem_near_of_listed ht, stored, foldl_addHit]
      have hzero : (⟨0, s.2.pos⟩ : Fin s.1.hits.length) = s.2 := Fin.ext h.first.symm
      simp only [EcalGTPCluster.new, hzero, List.map_map]
      rfl

theorem crystal_of_mem_seeds (h : s ∈ b.seeds) : IsCrystal s.1.ixy := by
  obtain ⟨e, he, hs⟩ := List.mem_flatMap.mp h
  obtain ⟨i, -, rfl⟩ := List.mem_map.mp hs
  exact b.hitmap.crystals e he

/-- All stored clusters are right exactly when nothing obstructs the hits over the threshold. -/
theorem findGTPClusters_describes (b : EcalBank) : ∃ F cs,
    (∀ fuel, F ≤ fuel → b.findGTPClusters fuel = some { b with GTPClusters := cs }) ∧
      (List.Forall₂ b.Describes (b.seeds.filter fun s => b.OverThresh s) cs ↔
        ∀ s ∈ b.seeds, b.OverThresh s → b.Unobstructed s) := by
  refine ⟨20, _, fun fuel hfuel => findGTPClusters_eq hfuel, ?_⟩
  rw [List.forall₂_map_right_iff, List.forall₂_same]
  constructor
  · intro h s hs hover
    exact (describes_stored_iff (crystal_of_mem_seeds hs)).mp
      (h s (List.mem_filter.mpr ⟨hs, decide_eq_true hover⟩))
  · intro h s hs
    obtain ⟨hmem, hover⟩ := List.mem_filter.mp hs
    exact (describes_stored_iff (crystal_of_mem_seeds hmem)).mpr
      (h s hmem (of_decide_eq_true hover))

def twoHits : EcalBank where
  hitmap :=
    { entries := [{ ixy := (1, 1), hits := [⟨150, 0⟩, ⟨200, 100⟩] }]
      sorted := by decide
      crystals := by decide }

theorem twoHits_not_describes : (twoHits.findGTPClusters 20).map (fun b => b.GTPClusters) =
      some [{ seed_ixy := (1, 1), seed_idx := 0, energy := 150 },
        { seed_ixy := (1, 1), seed_idx := 0, energy := 150 }] ∧
    ¬List.Forall₂ twoHits.Describes (twoHits.seeds.filter fun s => twoHits.OverThresh s)
      [{ seed_ixy := (1, 1), seed_idx := 0, energy := 150 },
        { seed_ixy := (1, 1), seed_idx := 0, energy := 150 }] := by
  refine ⟨by decide +kernel, fun h => ?_⟩
  have hseeds : (twoHits.seeds.filter fun s => twoHits.OverThresh s).map (fun s => s.2.val) =
      [0, 1] := by decide +kernel
  have hidx : List.Forall₂ (fun (n : Nat) (c : EcalGTPCluster) => c.seed_idx = n) _ _ :=
    List.forall₂_map_left_iff.mpr (h.imp fun _ _ hd => hd.seed_idx)
  rw [hseeds] at hidx
  simp at hidx

end EcalBank

end EvioTool
