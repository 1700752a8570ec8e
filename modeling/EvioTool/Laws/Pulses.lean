import Mathlib.Data.Rat.Cast.Order
import EvioTool.Laws.Mode7

/-! The pulses that the search misses. -/

namespace EvioTool

open Lib

namespace FADCdata

variable {d : FADCdata} {past : Nat → UInt16} {thres pedestal thr gain : Rat} {NSB NSA : Int}
  {w j : Nat} {cs l : List Nat} {R : Set Nat}

def Exceeds (d : FADCdata) (past : Nat → UInt16) (thr : Rat) (j : Nat) : Prop :=
  1 ≤ j ∧ j < d.samples.length ∧ (d.sample past j : Rat) > thr ∧ (d.sample past (j - 1) : Rat) ≤ thr

def MissesNone (d : FADCdata) (past : Nat → UInt16) (thr : Rat) (w : Nat) (cs : List Nat) : Prop :=
  ∀ j, Exceeds d past thr j → (∀ c ∈ cs, c < j → ¬j < c + w) → j ∈ cs

/-- The call without a limit misses no pulse, and a waveform that rises above the threshold
has a hit. -/
def FindsAll (d : FADCdata) (past : Nat → UInt16) (thres pedestal : Rat) (NSB NSA : Int)
    (gain : Rat) : Prop :=
  let thr := thres + d.pedestalOf past pedestal
  ∃ cs hits, Collects d past thr NSA 0 cs ∧ Mode7 d past thres pedestal NSB NSA 0 gain hits ∧
    MissesNone d past thr (window NSA) cs ∧
    ((d.sample past 0 : Rat) ≤ thr → (∃ j < d.samples.length, (d.sample past j : Rat) > thr) →
      hits ≠ [])

def strictCrossings (d : FADCdata) (past : Nat → UInt16) (thr : Rat) : Set Nat :=
  {j | 1 ≤ j ∧ j < d.samples.length ∧ Crosses (d.sample past) thr j}

/-- A pulse that starts from a sample at the threshold itself lies within the window of a
strict crossing, of those that a dead time of one window leaves, or of the first sample. -/
def TouchesCovered (d : FADCdata) (past : Nat → UInt16) (thr : Rat) (w : Nat) : Prop :=
  ∃ R, DeadTime (strictCrossings d past thr) w R ∧
    ∀ j, Exceeds d past thr j → (d.sample past (j - 1) : Rat) = thr →
      (d.sample past 0 : Rat) > thr ∧ j < w ∨ ∃ c ∈ R, c < j ∧ j < c + w

theorem mem_firstCrossings {c : Nat} :
    c ∈ firstCrossings (d.sample past) thr ↔ c = 0 ∧ (d.sample past 0 : Rat) > thr := by
  rcases firstCrossings_cases (d.sample past) thr with ⟨hfirst, hf⟩ | ⟨hfirst, hf⟩ <;> rw [hf]
  · simp only [List.mem_singleton, hfirst, and_true]
  · simp only [List.not_mem_nil, hfirst, and_false]

theorem above_of_mem (h : Scan (Crosses (d.sample past) thr) d.samples.length w 1 l) {c : Nat}
    (hc : c ∈ firstCrossings (d.sample past) thr ++ l) : (d.sample past c : Rat) > thr := by
  rcases List.mem_append.mp hc with hc | hc
  · obtain ⟨rfl, hfirst⟩ := mem_firstCrossings.mp hc
    exact hfirst
  · exact (h.bounds c hc).2.2.1

theorem missesNone_of_covered (h : Scan (Crosses (d.sample past) thr) d.samples.length w 1 l)
    (hcov : TouchesCovered d past thr w) :
    MissesNone d past thr w (firstCrossings (d.sample past) thr ++ l) := by
  obtain ⟨R, hR, htouch⟩ := hcov
  obtain rfl := hR.unique h.deadTime
  intro j hj hout
  rcases lt_or_eq_of_le hj.2.2.2 with hlt | heq
  · obtain ⟨c, hc, hcj, hlt⟩ := h.covers j hj.1 hj.2.1 ⟨hj.2.2.1, hlt⟩
    rcases Nat.eq_or_lt_of_le hcj with rfl | hcj
    · exact List.mem_append_right _ hc
    · exact (hout c (List.mem_append_right _ hc) hcj hlt).elim
  · rcases htouch j hj heq with ⟨hfirst, hlt⟩ | ⟨c, hc, hcj, hlt⟩
    · have hzero := List.mem_append_left l (mem_firstCrossings.mpr ⟨rfl, hfirst⟩)
      exact (hout 0 hzero hj.1 (by omega)).elim
    · exact (hout c (List.mem_append_right _ hc) hcj hlt).elim

theorem MissesNone.covered (h : Scan (Crosses (d.sample past) thr) d.samples.length w 1 l)
    (hm : MissesNone d past thr w (firstCrossings (d.sample past) thr ++ l)) :
    TouchesCovered d past thr w := by
  refine ⟨{c | c ∈ l}, h.deadTime, fun j hj heq => ?_⟩
  by_contra hout
  push Not at hout
  have hmem : j ∈ firstCrossings (d.sample past) thr ++ l := by
    apply hm j hj
    intro c hc hcj hlt
    rcases List.mem_append.mp hc with hc | hc
    · obtain ⟨rfl, hfirst⟩ := mem_firstCrossings.mp hc
      have := hout.1 hfirst
      omega
    · have := hout.2 c hc hcj
      omega
  rcases List.mem_append.mp hmem with hc | hc
  · have := (mem_firstCrossings.mp hc).1
    have := hj.1
    omega
  · exact (h.bounds j hc).2.2.2.ne heq

theorem MissesNone.ne_nil (h : Scan (Crosses (d.sample past) thr) d.samples.length w 1 l)
    (hm : MissesNone d past thr w (firstCrossings (d.sample past) thr ++ l))
    (hfirst : (d.sample past 0 : Rat) ≤ thr)
    (habove : ∃ j < d.samples.length, (d.sample past j : Rat) > thr) :
    firstCrossings (d.sample past) thr ++ l ≠ [] := by
  classical
  obtain ⟨hlt, hj⟩ := Nat.find_spec habove
  have hmin {i : Nat} (hi : i < Nat.find habove) : ¬(d.sample past i : Rat) > thr :=
    fun hgt => Nat.find_min habove hi ⟨hi.trans hlt, hgt⟩
  have hpos : 1 ≤ Nat.find habove := by
    by_contra hzero
    have : Nat.find habove = 0 := by omega
    rw [this] at hj
    exact absurd hj (not_lt.mpr hfirst)
  have hexc : Exceeds d past thr (Nat.find habove) :=
    ⟨hpos, hlt, hj, not_lt.mp (hmin (by omega))⟩
  exact List.ne_nil_of_mem (hm _ hexc fun c hc hcj => (hmin hcj (above_of_mem h hc)).elim)

theorem covered_of_no_touch (hw : 0 < w)
    (h : ∀ j, Exceeds d past thr j → (d.sample past (j - 1) : Rat) ≠ thr) :
    TouchesCovered d past thr w := by
  obtain ⟨l, hl⟩ : ∃ l, Scan (Crosses (d.sample past) thr) d.samples.length w 1 l :=
    Scan.exists_of_pos hw 1
  exact ⟨{c | c ∈ l}, hl.deadTime, fun j hj heq => (h j hj heq).elim⟩

/-- No pulse is missed exactly when those that touch the threshold are covered. -/
theorem computeMode7fast_findsAll_iff (d : FADCdata) (past : Nat → UInt16)
    (thres pedestal : Rat) (NSB NSA : Int) (gain : Rat) (hNSA : 4 ≤ NSA) :
    FindsAll d past thres pedestal NSB NSA gain ↔
      TouchesCovered d past (thres + d.pedestalOf past pedestal) (window NSA) := by
  have hpos : 0 < NSA := by omega
  obtain ⟨l, hl, hall⟩ := exists_scan d past (thres + d.pedestalOf past pedestal) hNSA
  have hcs : Collects d past (thres + d.pedestalOf past pedestal) NSA 0
      (firstCrossings (d.sample past) (thres + d.pedestalOf past pedestal) ++ l) := hall 0
  constructor
  · rintro ⟨cs, -, hcs', -, hm, -⟩
    obtain rfl := hcs'.unique hcs
    exact hm.covered hl
  · intro hcov
    have hm := missesNone_of_covered hl hcov
    refine ⟨_, _, hcs, (mode7_iff hpos).mpr ⟨_, hcs, rfl⟩, hm, fun hfirst habove hnil => ?_⟩
    exact hm.ne_nil hl hfirst habove (List.map_eq_nil_iff.mp hnil)

theorem onePulse_findsAll : FindsAll onePulse (fun _ => 0) 5 1 5 4 1 := by
  apply (computeMode7fast_findsAll_iff onePulse (fun _ => 0) 5 1 5 4 1 (by decide)).mpr
  apply covered_of_no_touch (by decide)
  rintro j ⟨-, hj, -⟩
  have hne : ∀ j < 8, (onePulse.sample (fun _ => 0) (j - 1) : Rat) ≠
      5 + onePulse.pedestalOf (fun _ => 0) 1 := by decide +kernel
  exact hne j hj

def touchingPulse : FADCdata := { samples := [1, 1, 1, 6, 9, 5, 1, 1] }

theorem touchingPulse_missed : N_PEDESTAL ≤ touchingPulse.samples.length ∧ (4 : Int) ≤ 4 ∧
    ¬FindsAll touchingPulse (fun _ => 0) 5 1 5 4 1 := by
  refine ⟨by decide, le_rfl, ?_⟩
  have hnone : Collects touchingPulse (fun _ => 0)
      ((5 : Rat) + touchingPulse.pedestalOf (fun _ => 0) 1) 4 0 [] := ⟨9, by decide +kernel⟩
  have hexc : Exceeds touchingPulse (fun _ => 0)
      (5 + touchingPulse.pedestalOf (fun _ => 0) 1) 4 :=
    ⟨by decide, by decide, by decide +kernel, by decide +kernel⟩
  rintro ⟨cs, -, hcs, -, hm, -⟩
  obtain rfl := hcs.unique hnone
  exact List.not_mem_nil (hm 4 hexc fun c hc => (List.not_mem_nil hc).elim)

end FADCdata

end EvioTool
