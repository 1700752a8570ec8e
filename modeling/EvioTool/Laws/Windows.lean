import Mathlib.Algebra.BigOperators.Intervals
import Mathlib.Algebra.BigOperators.Ring.Finset
import Mathlib.Algebra.Order.BigOperators.Group.Finset
import Mathlib.Algebra.Order.Field.Basic
import Mathlib.Tactic.Linarith
import EvioTool.Laws.Pulses

/-! The windows of the hits, and what a hit says about its window. -/

namespace EvioTool

open Lib

namespace FADCdata

section

variable {F : Type} [IntCast F] [LT F] [DecidableLT F]
variable {d : FADCdata} {past : Nat → UInt16} {thr : F} {NSA npeak : Int} {w c : Nat}
  {l cs : List Nat}

def forward (d : FADCdata) (NSA : Int) (c : Nat) : Finset Nat :=
  Finset.Ico c (min (c + window NSA) d.samples.length)

/-- Consecutive crossings are a window apart, and the windows have no sample in common. -/
def WindowsApart (d : FADCdata) (past : Nat → UInt16) (thr : F) (NSA npeak : Int) : Prop :=
  ∃ cs, Collects d past thr NSA npeak cs ∧ cs.IsChain (fun c c' => c + window NSA ≤ c') ∧
    cs.Pairwise fun c c' => Disjoint (d.forward NSA c) (d.forward NSA c')

def CrossesEarly (d : FADCdata) (past : Nat → UInt16) (thr : F) (w : Nat) : Prop :=
  (d.sample past 0 : F) > thr ∧
    ∃ i, 1 ≤ i ∧ i < w ∧ i < d.samples.length ∧ Crosses (d.sample past) thr i

theorem disjoint_forward {c c' : Nat} (h : c + window NSA ≤ c') :
    Disjoint (d.forward NSA c) (d.forward NSA c') := by
  rw [Finset.disjoint_left]
  intro i hi hi'
  have hlt := (Finset.mem_Ico.mp hi).2
  have hle := (Finset.mem_Ico.mp hi').1
  omega

theorem apart_of_scan (h : Scan (Crosses (d.sample past) thr) d.samples.length w 1 l)
    (hearly : ¬CrossesEarly d past thr w) (npeak : Int) (found : Nat) :
    (firstCrossings (d.sample past) thr ++ allowed npeak found l).Pairwise
      fun c c' => c + w ≤ c' := by
  have hsub := allowed_sublist npeak found l
  rcases firstCrossings_cases (d.sample past) thr with ⟨hfirst, hf⟩ | ⟨-, hf⟩ <;> rw [hf]
  · refine .cons (fun c hc => ?_) (h.pairwise.sublist hsub)
    obtain ⟨hpos, hlt, hcross⟩ := h.bounds c (hsub.subset hc)
    by_contra hw
    exact hearly ⟨hfirst, c, hpos, by omega, hlt, hcross⟩
  · exact h.pairwise.sublist hsub

theorem early_of_chain (h : Scan (Crosses (d.sample past) thr) d.samples.length w 1 l) (hw : 0 < w)
    (hchain : (firstCrossings (d.sample past) thr ++
      allowed npeak (firstCrossings (d.sample past) thr).length l).IsChain fun c c' => c + w ≤ c') :
    ¬CrossesEarly d past thr w := by
  rintro ⟨hfirst, i, hpos, hi, hlt, hcross⟩
  obtain ⟨c, hc, hci, -⟩ := h.covers i hpos hlt hcross
  obtain ⟨b, l, rfl⟩ := List.exists_cons_of_ne_nil (List.ne_nil_of_mem hc)
  have hbc : b ≤ c := by
    rcases List.mem_cons.mp hc with rfl | hc
    · exact le_rfl
    · have := (List.pairwise_cons.mp h.pairwise).1 c hc
      omega
  have hallowed : ∃ m, allowed npeak 1 (b :: l) = b :: m := by
    by_cases hn : 0 < npeak
    · obtain ⟨k, hk⟩ := Nat.exists_eq_add_of_le' (Nat.le_max_left 1 (npeak.toNat - 1))
      exact ⟨l.take k, by rw [allowed_of_pos hn, hk, List.take_succ_cons]⟩
    · exact ⟨l, allowed_of_nonpos (by omega)⟩
  obtain ⟨m, hm⟩ := hallowed
  have hf : firstCrossings (d.sample past) thr = [0] := if_pos hfirst
  rw [hf, List.length_singleton, hm, List.singleton_append, List.isChain_cons_cons] at hchain
  have := hchain.1
  omega

/-- The windows are apart exactly when no pulse crosses in the window of a first sample that is
above the threshold. -/
theorem computeMode7fast_apart_iff [Add F] [Div F] [LE F] [DecidableLE F] (d : FADCdata)
    (past : Nat → UInt16) (thres pedestal : F) (NSA npeak : Int) (hNSA : 4 ≤ NSA) :
    WindowsApart d past (thres + d.pedestalOf past pedestal) NSA npeak ↔
      ¬CrossesEarly d past (thres + d.pedestalOf past pedestal) (window NSA) := by
  obtain ⟨l, hl, hcs⟩ := exists_scan d past (thres + d.pedestalOf past pedestal) hNSA
  constructor
  · rintro ⟨cs, hcs', hchain, -⟩
    obtain rfl := hcs'.unique (hcs npeak)
    exact early_of_chain hl ((window_pos_iff (by omega)).mpr hNSA) hchain
  · intro hearly
    have hapart := apart_of_scan hl hearly npeak (firstCrossings (d.sample past)
      (thres + d.pedestalOf past pedestal)).length
    exact ⟨_, hcs npeak, hapart.isChain, hapart.imp disjoint_forward⟩

theorem onePulse_apart : WindowsApart onePulse (fun _ => 0)
    ((5 : Rat) + onePulse.pedestalOf (fun _ => 0) 1) 4 0 :=
  (computeMode7fast_apart_iff onePulse (fun _ => 0) 5 1 4 0 le_rfl).mpr
    fun h => absurd h.1 (by decide +kernel)

def closePulses : FADCdata := { samples := [9, 1, 9, 1, 1, 1, 1, 1] }

theorem closePulses_overlap : N_PEDESTAL ≤ closePulses.samples.length ∧ (4 : Int) ≤ 16 ∧
    ¬WindowsApart closePulses (fun _ => 0)
      ((5 : Rat) + closePulses.pedestalOf (fun _ => 0) 1) 16 0 := by
  refine ⟨by decide, by decide, ?_⟩
  have hcs : Collects closePulses (fun _ => 0)
      ((5 : Rat) + closePulses.pedestalOf (fun _ => 0) 1) 16 0 [0, 2] := ⟨9, by decide +kernel⟩
  rintro ⟨cs, hcs', hchain, -⟩
  obtain rfl := hcs'.unique hcs
  exact absurd hchain (by decide)

/-- The crossings that are integrated: the first sample, and what a dead time of one window
leaves of the strict crossings, in increasing order, up to the limit. -/
def Pulses (d : FADCdata) (past : Nat → UInt16) (thr : F) (NSA npeak : Int) (cs : List Nat) :
    Prop :=
  ∃ l, DeadTime {j | 1 ≤ j ∧ j < d.samples.length ∧ Crosses (d.sample past) thr j} (window NSA)
      {c | c ∈ l} ∧ l.Pairwise (· < ·) ∧
    cs = firstCrossings (d.sample past) thr ++
      allowed npeak (firstCrossings (d.sample past) thr).length l

theorem collects_iff (hNSA : 4 ≤ NSA) :
    Collects d past thr NSA npeak cs ↔ Pulses d past thr NSA npeak cs := by
  obtain ⟨l, hl, hcs⟩ := exists_scan d past thr hNSA
  have hw := (window_pos_iff (by omega)).mpr hNSA
  constructor
  · intro h
    obtain rfl := h.unique (hcs npeak)
    exact ⟨l, hl.deadTime, hl.increasing hw, rfl⟩
  · rintro ⟨m, hm, hsorted, rfl⟩
    have hmem := Set.ext_iff.mp (hm.unique hl.deadTime)
    obtain rfl : m = l := hsorted.eq_of_mem_iff (hl.increasing hw) hmem
    exact hcs npeak

theorem lt_of_collects (hNSA : 4 ≤ NSA) (h : Collects d past thr NSA npeak cs)
    (hd : 0 < d.samples.length) (hc : c ∈ cs) : c < d.samples.length := by
  obtain ⟨l, hl, hcs⟩ := exists_scan d past thr hNSA
  obtain rfl := h.unique (hcs npeak)
  have hsub := allowed_sublist npeak (firstCrossings (d.sample past) thr).length l
  have hsorted := hl.increasing ((window_pos_iff (by omega)).mpr hNSA)
  refine (increasing_append hd (hsorted.sublist hsub) fun c hc => ?_).2 c hc
  have hb := hl.bounds c (hsub.subset hc)
  exact ⟨hb.1, hb.2.1⟩

end

section

variable {d : FADCdata} {past : Nat → UInt16} {s : Nat → Int} {thres pedestal thr gain : Rat}
  {NSB NSA npeak : Int} {c : Nat} {is cs : List Nat}

def windowStart (NSB : Int) (c : Nat) : Nat := c - (NSB.tdiv 4).toNat

def windowStop (d : FADCdata) (NSA : Int) (c : Nat) : Nat := min (c + window NSA) d.samples.length

def windowSum (d : FADCdata) (past : Nat → UInt16) (NSB NSA : Int) (c : Nat) : Int :=
  ∑ i ∈ Finset.Ico (windowStart NSB c) (d.windowStop NSA c), d.sample past i

structure Describes (d : FADCdata) (past : Nat → UInt16) (pedestal : Rat) (NSB NSA : Int)
    (gain : Rat) (c : Nat) (h : FADC_Hit Rat) : Prop where
  integral : h.integral =
    ∑ i ∈ Finset.Ico (windowStart NSB c) (d.windowStop NSA c), ((d.sample past i : Rat) - pedestal)
  energy : h.energy = gain * h.integral
  max_adc : IsGreatest (d.sample past '' Set.Ico (windowStart NSB c) (d.windowStop NSA c)) h.max_adc
  max_loc : IsLeast {j : Int | ∃ i ∈ Set.Ico (windowStart NSB c) (d.windowStop NSA c),
    d.sample past i = h.max_adc ∧ i = j} h.max_loc
  time : 4 * (windowStart NSB c : Rat) ≤ h.time ∧ h.time ≤ 4 * (d.windowStop NSA c : Rat)
  pedestal : h.pedestal = pedestal
  time_thresh : h.time_thresh = 4 * c

/-- The call returns a hit for each crossing, and it describes the window of the crossing. -/
def HitsDescribe (d : FADCdata) (past : Nat → UInt16) (thres pedestal : Rat) (NSB NSA npeak : Int)
    (gain : Rat) : Prop :=
  ∃ cs hits, Collects d past (thres + d.pedestalOf past pedestal) NSA npeak cs ∧
    Mode7 d past thres pedestal NSB NSA npeak gain hits ∧
    List.Forall₂ (Describes d past (d.pedestalOf past pedestal) NSB NSA gain) cs hits

theorem scan_adc (s : Nat → Int) (is : List Nat) (adc max loc : Int) :
    (scan s is (toInt32 adc, max, loc)).1 = toInt32 (adc + (is.map s).sum) := by
  induction is generalizing adc max loc with
  | nil => rw [scan, List.map_nil, List.sum_nil, add_zero]
  | cons i is ih =>
    have hwrap : toInt32 (toInt32 adc + s i) = toInt32 (adc + s i) := Int.bmod_add_bmod
    rw [scan, hwrap]
    split
    all_goals rw [ih, List.map_cons, List.sum_cons, add_assoc]

theorem scan_max (hs : is.Pairwise (· < ·)) (adc max loc : Int) :
    max ≤ (scan s is (adc, max, loc)).2.1 ∧ (∀ j ∈ is, s j ≤ (scan s is (adc, max, loc)).2.1) ∧
      ((scan s is (adc, max, loc)).2 = (max, loc) ∨ max < (scan s is (adc, max, loc)).2.1 ∧
        ∃ i ∈ is, (scan s is (adc, max, loc)).2 = (s i, (i : Int)) ∧
          ∀ j ∈ is, s j = s i → i ≤ j) := by
  induction is generalizing adc max loc with
  | nil => exact ⟨le_rfl, fun _ h => (List.not_mem_nil h).elim, .inl rfl⟩
  | cons i is ih =>
    obtain ⟨hi, hs⟩ := List.pairwise_cons.mp hs
    by_cases hlt : max < s i
    · have hscan : scan s (i :: is) (adc, max, loc) = scan s is (toInt32 (adc + s i), s i, i) := by
        rw [scan]
        exact if_pos hlt
      obtain ⟨hle, hall, hcase⟩ := ih hs (toInt32 (adc + s i)) (s i) i
      rw [hscan]
      refine ⟨by omega, List.forall_mem_cons.mpr ⟨hle, hall⟩, .inr ⟨by omega, ?_⟩⟩
      rcases hcase with heq | ⟨hmore, k, hk, heq, hfirst⟩
      · refine ⟨i, List.mem_cons_self, heq, List.forall_mem_cons.mpr ⟨fun _ => le_rfl, ?_⟩⟩
        exact fun j hj _ => (hi j hj).le
      · rw [heq] at hmore
        refine ⟨k, List.mem_cons_of_mem _ hk, heq, List.forall_mem_cons.mpr ⟨?_, hfirst⟩⟩
        exact fun h => (hmore.ne h).elim
    · have hscan : scan s (i :: is) (adc, max, loc) = scan s is (toInt32 (adc + s i), max, loc) := by
        rw [scan]
        exact if_neg hlt
      obtain ⟨hle, hall, hcase⟩ := ih hs (toInt32 (adc + s i)) max loc
      rw [hscan]
      refine ⟨hle, List.forall_mem_cons.mpr ⟨by omega, hall⟩, hcase.imp_right ?_⟩
      rintro ⟨hmore, k, hk, heq, hfirst⟩
      refine ⟨hmore, k, List.mem_cons_of_mem _ hk, heq, List.forall_mem_cons.mpr ⟨?_, hfirst⟩⟩
      rw [heq] at hmore
      exact fun h => (by omega : False).elim

theorem indices_eq (a b : Nat) : indices a b = List.range' a (b - a) := by
  have h : ((b : Int) - a).toNat = b - a := by omega
  rw [indices, h, List.range'_eq_map_range]
  rfl

theorem sorted_indices (a b : Nat) : (indices a b).Pairwise (· < ·) := by
  rw [indices_eq]
  exact List.pairwise_lt_range'

theorem mem_indices {a b i : Nat} : i ∈ indices a b ↔ a ≤ i ∧ i < b := by
  rw [indices_eq, List.mem_range'_1]
  omega

theorem isGreatest_scan (d : FADCdata) (past : Nat → UInt16) {a b c : Nat} (hac : a ≤ c)
    (hcb : c < b) :
    IsGreatest (d.sample past '' Set.Ico a b)
      (scan (d.sample past) (indices a b) (0, 0, -1)).2.1 := by
  obtain ⟨-, hall, hcase⟩ := scan_max (s := d.sample past) (sorted_indices a b) 0 0 (-1)
  refine ⟨?_, ?_⟩
  · rcases hcase with heq | ⟨-, i, hi, heq, -⟩
    · -- all samples of the window are 0
      have hc := hall c (mem_indices.mpr ⟨hac, hcb⟩)
      rw [heq] at hc ⊢
      exact ⟨c, ⟨hac, hcb⟩, le_antisymm hc (Int.natCast_nonneg _)⟩
    · rw [heq]
      exact ⟨i, mem_indices.mp hi, rfl⟩
  · rintro _ ⟨j, hj, rfl⟩
    exact hall j (mem_indices.mpr hj)

theorem sum_indices (f : Nat → Int) (a b : Nat) :
    ((indices a b).map f).sum = ∑ i ∈ Finset.Ico a b, f i := by
  rw [indices_eq, Finset.sum_Ico_eq_sum_range, List.range'_eq_map_range, List.map_map]
  rfl

theorem windowStart_le (NSB : Int) (c : Nat) : windowStart NSB c ≤ c := Nat.sub_le _ _

theorem lt_windowStop (hNSA : 4 ≤ NSA) (hc : c < d.samples.length) : c < d.windowStop NSA c := by
  have := (window_pos_iff (by omega)).mpr hNSA
  rw [windowStop]
  omega

theorem start_eq (hNSB : 0 ≤ NSB) :
    (if (c : Int) - NSB.tdiv 4 ≥ 0 then (c : Int) - NSB.tdiv 4 else 0) = windowStart NSB c := by
  have := Int.tdiv_nonneg hNSB (show (0 : Int) ≤ 4 by omega)
  rw [windowStart]
  split <;> omega

theorem stop_eq (hNSA : 0 ≤ NSA) :
    (if (c : Int) + NSA.tdiv 4 < d.samples.length then (c : Int) + NSA.tdiv 4
      else d.samples.length) = d.windowStop NSA c := by
  have := Int.tdiv_nonneg hNSA (show (0 : Int) ≤ 4 by omega)
  rw [windowStop, window]
  split <;> omega

def fineTime (s : Nat → Int) (half : Rat) (c : Nat) (is : List Nat) : Rat :=
  match is.find? fun i => (s (i + 1) : Rat) > half ∧ (s i : Rat) < half with
  | some i => ((i : Int) + (half - s i) / ((s (i + 1) - s i : Int) : Rat)) * (4 : Int)
  | none => (c : Int) * (4 : Int)

theorem hitAt_eq (hNSB : 0 ≤ NSB) (hNSA : 0 ≤ NSA) :
    d.hitAt past pedestal NSB NSA gain c =
      let a := windowStart NSB c
      let b := d.windowStop NSA c
      let m := scan (d.sample past) (indices a b) (0, 0, -1)
      let integral : Rat := m.1 - ((b - a : Int) : Rat) * pedestal
      .new integral (fineTime (d.sample past) ((m.2.1 + pedestal) / (2 : Int)) c (indices a b))
        ((c : Int) * (4 : Int)) pedestal m.2.1 m.2.2 (integral * gain) := by
  unfold hitAt
  simp only [start_eq hNSB, stop_eq hNSA]
  rfl

theorem fineTime_bounds {a b : Nat} (half : Rat) (hac : a ≤ c) (hcb : c < b) :
    4 * (a : Rat) ≤ fineTime s half c (indices a b) ∧ fineTime s half c (indices a b) ≤ 4 * b := by
  rw [fineTime]
  split
  · rename_i i hfind
    have hcond := List.find?_some hfind
    simp only [decide_eq_true_eq] at hcond
    obtain ⟨hai, hib⟩ := mem_indices.mp (List.mem_of_find?_eq_some hfind)
    have hai' : (a : Rat) ≤ i := by exact_mod_cast hai
    have hib' : (i : Rat) + 1 ≤ b := by exact_mod_cast hib
    have hpos : (0 : Rat) < ((s (i + 1) - s i : Int) : Rat) := by
      push_cast
      linarith [hcond.1, hcond.2]
    have h0 : 0 ≤ (half - s i) / ((s (i + 1) - s i : Int) : Rat) :=
      div_nonneg (by linarith [hcond.2]) hpos.le
    have h1 : (half - s i) / ((s (i + 1) - s i : Int) : Rat) ≤ 1 := by
      rw [div_le_one hpos]
      push_cast
      linarith [hcond.1]
    rw [Int.cast_natCast, Int.cast_ofNat]
    constructor <;> linarith
  · have hac' : (a : Rat) ≤ c := by exact_mod_cast hac
    have hcb' : (c : Rat) ≤ b := by exact_mod_cast hcb.le
    rw [Int.cast_natCast, Int.cast_ofNat]
    constructor <;> linarith

theorem windowSum_nonneg (d : FADCdata) (past : Nat → UInt16) (NSB NSA : Int) (c : Nat) :
    0 ≤ d.windowSum past NSB NSA c :=
  Finset.sum_nonneg fun _ _ => Int.natCast_nonneg _

theorem scan_windowSum (d : FADCdata) (past : Nat → UInt16) (NSB NSA : Int) (c : Nat) :
    (scan (d.sample past) (indices (windowStart NSB c) (d.windowStop NSA c)) (0, 0, -1)).1 =
      toInt32 (d.windowSum past NSB NSA c) := by
  have hadc := scan_adc (d.sample past) (indices (windowStart NSB c) (d.windowStop NSA c)) 0 0 (-1)
  rwa [sum_indices, Int.zero_add] at hadc

theorem sum_sub_pedestal (d : FADCdata) (past : Nat → UInt16) (pedestal : Rat) (NSB NSA : Int) {c : Nat}
    (h : windowStart NSB c ≤ d.windowStop NSA c) :
    ∑ i ∈ Finset.Ico (windowStart NSB c) (d.windowStop NSA c), ((d.sample past i : Rat) - pedestal) =
      d.windowSum past NSB NSA c -
        ((d.windowStop NSA c - windowStart NSB c : Int) : Rat) * pedestal := by
  have hcard : ((d.windowStop NSA c : Int) - windowStart NSB c : Int) =
      ((d.windowStop NSA c - windowStart NSB c : Nat) : Int) := by omega
  rw [Finset.sum_sub_distrib, Finset.sum_const, Nat.card_Ico, nsmul_eq_mul, hcard,
    Int.cast_natCast, ← Int.cast_sum]
  rfl

theorem hitAt_describes_iff (pedestal gain : Rat) (hNSB : 0 ≤ NSB) (hNSA : 4 ≤ NSA)
    (hc : c < d.samples.length) (hpos : 0 < d.sample past c) :
    Describes d past pedestal NSB NSA gain c (d.hitAt past pedestal NSB NSA gain c) ↔
      4 * (c : Rat) = pedestal ∧ d.windowSum past NSB NSA c < 2 ^ 31 := by
  have hab := windowStart_le NSB c
  have hcb := lt_windowStop hNSA hc
  have hgreatest := d.isGreatest_scan past hab hcb
  have hmax := hgreatest.2 ⟨c, ⟨hab, hcb⟩, rfl⟩
  have hsum := sum_sub_pedestal d past pedestal NSB NSA (hab.trans hcb.le)
  obtain ⟨-, -, hcase⟩ := scan_max (s := d.sample past)
    (sorted_indices (windowStart NSB c) (d.windowStop NSA c)) 0 0 (-1)
  rcases hcase with heq | ⟨-, k, hk, heq, hfirst⟩ <;> rw [heq] at hgreatest hmax
  · exact absurd hpos (by omega)
  · obtain ⟨hak, hkb⟩ := mem_indices.mp hk
    rw [hitAt_eq hNSB (by omega)]
    simp only [scan_windowSum, heq]
    constructor
    · intro h
      refine ⟨h.time_thresh.symm, ?_⟩
      have hintegral := h.integral
      rw [hsum] at hintegral
      have hwrap : toInt32 (d.windowSum past NSB NSA c) = d.windowSum past NSB NSA c :=
        Int.cast_injective (sub_left_injective hintegral)
      rw [← hwrap]
      exact toInt32_lt _
    · rintro ⟨hp, hlt⟩
      have hnonneg := d.windowSum_nonneg past NSB NSA c
      exact {
        integral := by
          rw [hsum, toInt32_eq (by omega) hlt]
          rfl
        energy := mul_comm _ _
        max_adc := hgreatest
        max_loc := by
          refine ⟨⟨k, ⟨hak, hkb⟩, rfl, rfl⟩, ?_⟩
          rintro _ ⟨j, hj, heq, rfl⟩
          exact Int.ofNat_le.mpr (hfirst j (mem_indices.mpr hj) heq)
        time := fineTime_bounds _ hab hcb
        pedestal := by
          rw [← hp]
          exact mul_comm _ _
        time_thresh := hp.symm }

theorem pos_of_collects (hNSA : 4 ≤ NSA) (hthr : 0 ≤ thr) (h : Collects d past thr NSA npeak cs)
    (hc : c ∈ cs) : 0 < d.sample past c := by
  obtain ⟨l, hl, hcs⟩ := exists_scan d past thr hNSA
  obtain rfl := h.unique (hcs npeak)
  have hmem : c ∈ firstCrossings (d.sample past) thr ++ l :=
    ((List.Sublist.refl _).append (allowed_sublist _ _ _)).subset hc
  exact_mod_cast hthr.trans_lt (above_of_mem hl hmem)

/-- The hits describe their windows exactly when the only crossing, if there is any, is where
four times its index is the pedestal that is used, and the samples of its window add up to an `int`. -/
theorem computeMode7fast_describes_iff (d : FADCdata) (past : Nat → UInt16)
    (thres pedestal : Rat) (NSB NSA npeak : Int) (gain : Rat)
    (hd : N_PEDESTAL ≤ d.samples.length) (hthr : 0 ≤ thres + d.pedestalOf past pedestal)
    (hNSB : 0 ≤ NSB) (hNSA : 4 ≤ NSA) :
    HitsDescribe d past thres pedestal NSB NSA npeak gain ↔
      ∀ cs, Pulses d past (thres + d.pedestalOf past pedestal) NSA npeak cs →
        ∀ c ∈ cs, 4 * (c : Rat) = d.pedestalOf past pedestal ∧
          d.windowSum past NSB NSA c < 2 ^ 31 := by
  have hlen : 0 < d.samples.length := lt_of_lt_of_le (by decide) hd
  have hdescribes {cs : List Nat} {c : Nat}
      (hcs : Collects d past (thres + d.pedestalOf past pedestal) NSA npeak cs) (hc : c ∈ cs) :=
    hitAt_describes_iff (d.pedestalOf past pedestal) gain hNSB hNSA
      (lt_of_collects hNSA hcs hlen hc) (pos_of_collects hNSA hthr hcs hc)
  constructor
  · rintro ⟨cs, hits, hcs, hmode, hdesc⟩ cs' hcs' c hc
    obtain rfl := ((collects_iff hNSA).mpr hcs').unique hcs
    obtain ⟨_, hcs'', rfl⟩ := (mode7_iff (by omega)).mp hmode
    obtain rfl := hcs''.unique hcs
    rw [List.forall₂_map_right_iff, List.forall₂_same] at hdesc
    exact (hdescribes hcs hc).mp (hdesc c hc)
  · intro h
    obtain ⟨l, -, hcs⟩ := exists_scan d past (thres + d.pedestalOf past pedestal) hNSA
    have hcs := hcs npeak
    refine ⟨_, _, hcs, (mode7_iff (by omega)).mpr ⟨_, hcs, rfl⟩, ?_⟩
    rw [List.forall₂_map_right_iff, List.forall₂_same]
    exact fun c hc => (hdescribes hcs hc).mpr (h _ ((collects_iff hNSA).mp hcs) c hc)

def highPulse : FADCdata := { samples := [1, 1, 1, 1, 90, 50, 1, 1] }

theorem highPulse_described : HitsDescribe highPulse (fun _ => 0) 5 16 5 4 0 1 := by
  apply (computeMode7fast_describes_iff highPulse (fun _ => 0) 5 16 5 4 0 1 (by decide)
    (by decide +kernel) (by decide) (by decide)).mpr
  intro cs hcs c hc
  have hone : Collects highPulse (fun _ => 0)
      ((5 : Rat) + highPulse.pedestalOf (fun _ => 0) 16) 4 0 [4] := ⟨9, by decide +kernel⟩
  obtain rfl := ((collects_iff le_rfl).mpr hcs).unique hone
  obtain rfl := List.mem_singleton.mp hc
  exact ⟨by decide +kernel, by decide +kernel⟩

theorem onePulse_misdescribed : N_PEDESTAL ≤ onePulse.samples.length ∧
    (0 : Rat) ≤ 5 + onePulse.pedestalOf (fun _ => 0) 1 ∧ (0 : Int) ≤ 5 ∧ (4 : Int) ≤ 4 ∧
    ¬HitsDescribe onePulse (fun _ => 0) 5 1 5 4 0 1 := by
  refine ⟨by decide, by decide +kernel, by decide, by decide, ?_⟩
  have hone : Collects onePulse (fun _ => 0)
      ((5 : Rat) + onePulse.pedestalOf (fun _ => 0) 1) 4 0 [4] := ⟨9, by decide +kernel⟩
  rintro ⟨cs, hits, hcs, hmode, hdesc⟩
  obtain ⟨_, hcs', rfl⟩ := (mode7_iff (by decide)).mp hmode
  obtain rfl := hcs.unique hone
  obtain rfl := hcs'.unique hone
  rw [List.forall₂_map_right_iff, List.forall₂_same] at hdesc
  exact absurd (hdesc 4 List.mem_cons_self).pedestal (by decide +kernel)

end

end FADCdata

end EvioTool
