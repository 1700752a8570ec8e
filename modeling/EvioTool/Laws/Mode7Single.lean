import EvioTool.Laws.Windows
import EvioTool.Laws.Maximum

namespace EvioTool

open Lib Exec

namespace FADCdata

variable {F : Type} {d : FADCdata} {P : Int → Prop} {past : Int → UInt16} {i a b n : Nat} {x : Int}

def IsIndex (d : FADCdata) (i : Int) : Prop := 0 ≤ i ∧ i < d.samples.length

theorem exists_asInt_bind_iff {α : Type} {f : Int → Exec Halt Int Unit α} :
    (∃ b, Runs P (asInt x >>= f) () b ()) ↔ FitsInt x ∧ ∃ b, Runs P (f x) () b () := by
  simp only [exists_runs_bind_iff, runs_asInt, and_assoc, exists_and_left, exists_eq_left]

theorem exists_readAt_iff : (∃ w, Runs P (d.readAt past x) () w ()) ↔ P x := by
  simp [readAt]

theorem exists_two_reads_iff {α : Type} {f : UInt16 → UInt16 → α} {y : Int} :
    (∃ b, Runs P (d.readAt past x >>= fun v => d.readAt past y >>= fun w => pure (f v w)) () b ()) ↔
      P x ∧ P y := by
  have hpure (v w : UInt16) : (∃ b, Runs P (pure (f v w) : Exec Halt Int Unit α) () b ()) ↔ True :=
    iff_true_intro ⟨_, runs_pure.mpr ⟨rfl, rfl⟩⟩
  simp only [exists_runs_bind_iff, hpure, and_true, exists_and_right, exists_readAt_iff]

theorem exists_readAt (past : Int → UInt16) (hi : i < d.samples.length) :
    ∃ w, Runs d.IsIndex (d.readAt past i) () w () ∧ (w.toNat : Int) = d.height i := by
  have hget : d.samples[i]? = some d.samples[i] := List.getElem?_eq_getElem hi
  have hindex : d.IsIndex i := ⟨Int.natCast_nonneg i, Int.ofNat_lt.mpr hi⟩
  refine ⟨d.samples[i], ?_, (height_eq hget).symm⟩
  simp [readAt, hindex, hget]

def singleWindow (d : FADCdata) (NSB NSA t : Int) : List Nat :=
  indices (if t ≤ NSB then 0 else t - NSB)
    (if (t + NSA + 1) % 2 ^ 64 ≥ d.samples.length then (d.samples.length : Int) - 1 else t + NSA + 1)

theorem singleWindow_eq {NSB NSA t : Int} (hNSA : 0 ≤ NSA) (ht : -1 ≤ t)
    (hfit : t + NSA + 1 < 2 ^ 31) : d.singleWindow NSB NSA t =
      indices (t - NSB).toNat ((min (t + NSA + 1).toNat (d.samples.length - 1) : Nat) : Int) := by
  have hmod : (t + NSA + 1) % 2 ^ 64 = t + NSA + 1 := Int.emod_eq_of_lt (by omega) (by omega)
  have hstart : (if t ≤ NSB then 0 else t - NSB) = ((t - NSB).toNat : Int) := by
    split <;> omega
  have hcount : ((if t + NSA + 1 ≥ d.samples.length then (d.samples.length : Int) - 1
        else t + NSA + 1) - (t - NSB).toNat).toNat =
      ((min (t + NSA + 1).toNat (d.samples.length - 1) : Nat) - ((t - NSB).toNat : Int)).toNat := by
    split <;> omega
  rw [singleWindow, indices, indices, hmod, hstart, hcount]

theorem lt_of_mem_singleWindow {NSB NSA t : Int} (hNSA : 0 ≤ NSA) (ht : -1 ≤ t)
    (hfit : t + NSA + 1 < 2 ^ 31) (hi : i ∈ d.singleWindow NSB NSA t) : i < d.samples.length := by
  rw [singleWindow_eq hNSA ht hfit, mem_indices] at hi
  omega

section

variable [IntCast F] [LT F] [DecidableLT F] {half : F} {is : List Nat} {NSB NSA : Int}

def firstAbove (d : FADCdata) (half : F) (is : List Nat) : Int :=
  ((is.find? fun j => (d.height j : F) > half).map Int.ofNat).getD (-1)

theorem firstAbove_cons (x : Int) : (if x = -1 then d.firstAbove half (i :: is) else x) =
    let next := if x = -1 ∧ (d.height i : F) > half then (i : Int) else x
    if next = -1 then d.firstAbove half is else next := by
  by_cases hx : x = -1
  · by_cases habove : (d.height i : F) > half
    · have hne : ¬(i : Int) = -1 := by omega
      simp only [if_pos hx, if_pos (And.intro hx habove), if_neg hne]
      rw [firstAbove, List.find?_cons_of_pos (by simpa using habove)]
      rfl
    · have hnot : ¬(x = -1 ∧ (d.height i : F) > half) := fun hc => habove hc.2
      simp only [if_pos hx, if_neg hnot]
      rw [firstAbove, List.find?_cons_of_neg (by simpa using habove), firstAbove]
  · have hnot : ¬(x = -1 ∧ (d.height i : F) > half) := fun hc => hx hc.1
    simp only [if_neg hx, if_neg hnot]

theorem exists_overWindow (past : Int → UInt16) (half : F) (sum : UInt32) (x : Int)
    (his : ∀ i ∈ is, i < d.samples.length) :
    ∃ sum', Runs d.IsIndex (d.overWindow past half is sum x) ()
      (sum', if x = -1 then d.firstAbove half is else x) () := by
  induction is generalizing sum x with
  | nil =>
    refine ⟨sum, runs_pure.mpr ⟨?_, rfl⟩⟩
    split <;> rename_i hx
    · rw [hx]
      rfl
    · rfl
  | cons i is ih =>
    obtain ⟨hi, his⟩ := List.forall_mem_cons.mp his
    obtain ⟨w, hw, hheight⟩ := exists_readAt past hi
    obtain ⟨sum', hrest⟩ := ih (sum + w.toUInt32)
      (if x = -1 ∧ ((w.toNat : Int) : F) > half then i else x) his
    rw [hheight, ← firstAbove_cons, ← hheight] at hrest
    exact ⟨sum', hw.bind hrest⟩

theorem firstAbove_lt (d : FADCdata) (half : F) (his : ∀ i ∈ is, i < d.samples.length) :
    d.firstAbove half is < d.samples.length := by
  rw [firstAbove]
  cases hfind : is.find? fun j => (d.height j : F) > half with
  | none => exact Int.negSucc_lt_zero 0 |>.trans_le (Int.natCast_nonneg _)
  | some j => exact Int.ofNat_lt.mpr (his j (List.mem_of_find?_eq_some hfind))

theorem firstAbove_pos_iff : 1 ≤ d.firstAbove half (indices a b) ↔
    (∃ j, a ≤ j ∧ j < b ∧ (d.height j : F) > half) ∧ (a = 0 → ¬(d.height 0 : F) > half) := by
  rw [indices_eq, firstAbove]
  cases hfind : (List.range' a (b - a)).find? fun j => (d.height j : F) > half with
  | none =>
    refine iff_of_false (by decide) ?_
    rintro ⟨⟨j, haj, hjb, habove⟩, -⟩
    have := List.find?_eq_none.mp hfind j (List.mem_range'_1.mpr ⟨haj, by omega⟩)
    exact this (by simpa using habove)
  | some j =>
    obtain ⟨habove, hmem, hfirst⟩ := List.find?_range'_eq_some.mp hfind
    have hj := List.mem_range'_1.mp hmem
    have habove : (d.height j : F) > half := by simpa using habove
    simp only [Option.map_some, Option.getD_some]
    constructor
    · intro hpos
      refine ⟨⟨j, hj.1, by omega, habove⟩, fun ha h0 => ?_⟩
      have := hfirst 0 (by omega) (by have : 1 ≤ (j : Int) := hpos; omega)
      simp [h0] at this
    · rintro ⟨-, h0⟩
      have hne : j ≠ 0 := by
        rintro rfl
        exact h0 (by omega) habove
      change 1 ≤ (j : Int)
      omega

/-- What makes the reads for a crossing at `i` safe: the end of its window is an `int`, and the
window, which leaves the last sample out, has a sample above `half` but does not start with the
first sample above it. -/
structure HalfFound (d : FADCdata) (NSB NSA : Int) (half : F) (i : Nat) : Prop where
  fits : i + NSA + 1 < 2 ^ 31
  found : ∃ j : Nat, i ≤ j + NSB ∧ j ≤ i + NSA ∧ j + 1 < d.samples.length ∧ (d.height j : F) > half
  not_first : i ≤ NSB → ¬(d.height 0 : F) > half

theorem halfFound_iff (hNSA : 0 ≤ NSA) (half : F) (hfit : i + NSA + 1 < 2 ^ 31) :
    HalfFound d NSB NSA half i ↔ 1 ≤ d.firstAbove half (d.singleWindow NSB NSA i) := by
  rw [singleWindow_eq hNSA (by omega) hfit, firstAbove_pos_iff]
  constructor
  · rintro ⟨-, ⟨j, hij, hji, hj, habove⟩, hfirst⟩
    exact ⟨⟨j, by omega, by omega, habove⟩, fun h => hfirst (by omega)⟩
  · rintro ⟨⟨j, hij, hji, habove⟩, hfirst⟩
    exact ⟨hfit, ⟨j, by omega, by omega, by omega, habove⟩, fun h => hfirst (by omega)⟩

end

section

variable [Add F] [Div F] [IntCast F] [LT F] [LE F] [DecidableLE F] {thres pedestal : F}
  {NSB NSA M : Int} {m : Nat} {s : Seen}

def Seen.half (s : Seen) (pedestal : F) : F :=
  ((s.max : F) + if pedestal ≤ ((0 : Int) : F) then s.mean else pedestal) / ((2 : Int) : F)

theorem Seen.After.half_eq (h : s.After d thres d.samples.length) (hi : d.Crossing thres i)
    (hpeak : d.Peak M m) :
    s.half pedestal = ((M : F) + d.pedestalOf (fun _ => 0) pedestal) / ((2 : Int) : F) := by
  have hfour : min d.samples.length N_PEDESTAL = N_PEDESTAL :=
    Nat.min_eq_right (hi.above.1.trans hi.lt.le)
  have hpedest := h.pedest
  rw [hfour] at hpedest
  rw [Seen.half, h.max_eq hpeak, Seen.mean, hpedest, pedestalOf]
  rfl

variable [Sub F] [Mul F] [DecidableLT F]

theorem exists_mode7Single_iff
    (hs : Runs P (overSamples (Seen.next thres) 0 d.samples {}) () s ()) :
    (∃ hit, Runs P (d.computeMode7Single past thres pedestal NSB NSA) () hit ()) ↔
      FitsInt (s.thres_loc - NSB) ∧ FitsInt (s.thres_loc + NSA) ∧ FitsInt (s.thres_loc + NSA + 1) ∧
        ∃ r, Runs P (d.overWindow past (s.half pedestal) (d.singleWindow NSB NSA s.thres_loc) 0 (-1))
          () r () ∧ (0 ≤ s.thres_loc → P r.2 ∧ P (r.2 - 1)) := by
  rw [computeMode7Single, hs.exists_bind_iff]
  dsimp only
  rw [exists_asInt_bind_iff, exists_asInt_bind_iff, exists_asInt_bind_iff]
  refine and_congr_right fun _ => and_congr_right fun _ => and_congr_right fun _ => ?_
  rw [exists_runs_bind_iff]
  refine exists_congr fun r => and_congr_right fun _ => ?_
  by_cases hneg : s.thres_loc < 0
  · rw [if_pos hneg]
    exact iff_of_true ⟨_, runs_pure.mpr ⟨rfl, rfl⟩⟩ fun hnonneg => absurd hneg (by omega)
  · rw [if_neg hneg, imp_iff_right (by omega)]
    exact exists_two_reads_iff

/-- The run is without overflow, and each index is one of a sample. -/
def ReadsSamples (d : FADCdata) (past : Int → UInt16) (thres pedestal : F) (NSB NSA : Int) : Prop :=
  ∃ hit, Runs d.IsIndex (d.computeMode7Single past thres pedestal NSB NSA) () hit ()

theorem readsSamples_iff (hNSA : 0 ≤ NSA) (ht : -1 ≤ s.thres_loc)
    (hs : Runs d.IsIndex (overSamples (Seen.next thres) 0 d.samples {}) () s ())
    (hfit : FitsInt (s.thres_loc - NSB)) :
    ReadsSamples d past thres pedestal NSB NSA ↔ s.thres_loc + NSA + 1 < 2 ^ 31 ∧
      (0 ≤ s.thres_loc →
        1 ≤ d.firstAbove (s.half pedestal) (d.singleWindow NSB NSA s.thres_loc)) := by
  have hints : FitsInt (s.thres_loc + NSA) ∧ FitsInt (s.thres_loc + NSA + 1) ↔
      s.thres_loc + NSA + 1 < 2 ^ 31 := by
    unfold FitsInt
    omega
  rw [ReadsSamples, exists_mode7Single_iff hs, and_iff_right hfit, ← and_assoc, hints]
  refine and_congr_right fun hlt => ?_
  have hin (i : Nat) (hi : i ∈ d.singleWindow NSB NSA s.thres_loc) : i < d.samples.length :=
    lt_of_mem_singleWindow hNSA ht hlt hi
  obtain ⟨sum, hwindow⟩ := exists_overWindow past (s.half pedestal) 0 (-1) hin
  rw [if_pos rfl] at hwindow
  have hread := d.firstAbove_lt (s.half pedestal) hin
  constructor
  · rintro ⟨r, hr, hindex⟩ hnonneg
    obtain ⟨rfl, -⟩ := hwindow.det hr
    have := (hindex hnonneg).2.1
    dsimp only at this
    omega
  · intro hpos
    refine ⟨_, hwindow, fun hnonneg => ?_⟩
    have := hpos hnonneg
    exact ⟨⟨by omega, hread⟩, by dsimp only; omega, by dsimp only; omega⟩

/-- The reads are safe exactly when the half maximum is found in the window of the crossing, behind
the first sample. -/
theorem computeMode7Single_reads_iff (d : FADCdata) (past : Int → UInt16) (thres pedestal : F)
    (NSB NSA : Int) (hNSB : 0 ≤ NSB) (hNSA : 0 ≤ NSA) (hNSB' : NSB < 2 ^ 31)
    (hNSA' : NSA < 2 ^ 31) :
    ReadsSamples d past thres pedestal NSB NSA ↔ d.samples.length < 2 ^ 31 ∧
      ∀ i M m, d.Crossing thres i → d.Peak M m →
        HalfFound d NSB NSA (((M : F) + d.pedestalOf (fun _ => 0) pedestal) / ((2 : Int) : F)) i := by
  have hindex : ∀ k < d.samples.length, d.IsIndex (0 + k : Nat) := fun k hk => by
    rw [Nat.zero_add]
    exact ⟨Int.natCast_nonneg k, Int.ofNat_lt.mpr hk⟩
  have hloop := exists_overSamples_iff (f := Seen.next thres) (s := {}) hindex (by decide)
  rw [Nat.zero_add] at hloop
  by_cases hlen : d.samples.length < 2 ^ 31
  · rw [and_iff_right hlen]
    obtain ⟨s, hs⟩ := hloop.mpr hlen
    have hafter := Seen.after_loop hs
    obtain ⟨hnone, hcross⟩ | ⟨i, hsome, hi⟩ := hafter.crossing
    · have hfit : FitsInt (s.thres_loc - NSB) := by unfold FitsInt; omega
      rw [readsSamples_iff hNSA (by omega) hs hfit]
      refine iff_of_true ⟨by omega, by omega⟩ fun i M m hi => ?_
      exact absurd hi.above (hcross i hi.lt)
    · have hlt := hi.lt
      have hfit : FitsInt (s.thres_loc - NSB) := by unfold FitsInt; omega
      rw [readsSamples_iff hNSA (by omega) hs hfit, hsome, imp_iff_right (by omega)]
      constructor
      · rintro ⟨hstop, hpos⟩ i' M m hi' hpeak
        obtain rfl := hi.unique hi'
        rw [← hafter.half_eq hi hpeak]
        exact (halfFound_iff hNSA _ hstop).mpr hpos
      · intro hall
        obtain ⟨m, hpeak⟩ := hafter.exists_peak hlt
        have hfound := hall i s.max m hi hpeak
        rw [← hafter.half_eq hi hpeak] at hfound
        exact ⟨hfound.fits, (halfFound_iff hNSA _ hfound.fits).mp hfound⟩
  · refine iff_of_false ?_ fun h => hlen h.1
    rintro ⟨hit, hrun⟩
    obtain ⟨s, ⟨⟩, hs, -⟩ := runs_bind.mp hrun
    exact hlen (hloop.mp ⟨s, hs⟩)

theorem pulse_reads : ReadsSamples pulse (fun _ => 0) (0 : Rat) 0 5 25 := by
  refine (computeMode7Single_reads_iff pulse (fun _ => 0) 0 0 5 25 (by decide) (by decide)
    (by decide) (by decide)).mpr ⟨by decide, fun i M m hi hpeak => ?_⟩
  obtain rfl := hi.unique pulse_crossing
  obtain rfl := hpeak.value_unique pulse_peak
  exact ⟨by decide, ⟨5, by decide, by decide, by decide, by decide +kernel⟩, by decide +kernel⟩

def late : FADCdata := { samples := [0, 0, 0, 0, 10] }

theorem late_reads_before : (0 : Int) ≤ 5 ∧ (0 : Int) ≤ 25 ∧
    -1 ∈ (late.computeMode7Single (fun _ => 0) (0 : Rat) 0 5 25 ()).log ∧
    ¬ReadsSamples late (fun _ => 0) (0 : Rat) 0 5 25 := by
  have hlog : -1 ∈ (late.computeMode7Single (fun _ => 0) (0 : Rat) 0 5 25 ()).log := by
    decide +kernel
  refine ⟨by decide, by decide, hlog, ?_⟩
  rintro ⟨hit, hrun⟩
  exact absurd (hrun.2 (-1) hlog).1 (by decide)

end

end FADCdata

end EvioTool
