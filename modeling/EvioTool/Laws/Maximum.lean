import EvioTool.Defs.Mode3

/-! What the loop over all samples finds, and how `ComputeMode3` and `ComputeMode7Single` report the
maximum. -/

namespace EvioTool

open Lib Exec

namespace FADCdata

variable {F : Type} {d : FADCdata} {P : Int → Prop} {i j m n : Nat} {M x y : Int} {w : UInt16}

def height (d : FADCdata) : Nat → Int := d.sample fun _ => 0

theorem height_nonneg (d : FADCdata) (i : Nat) : 0 ≤ d.height i := Int.natCast_nonneg _

theorem height_eq (h : d.samples[i]? = some w) : d.height i = w.toNat := by
  rw [height, sample, List.getD_eq_getElem?_getD, h]
  rfl

section

variable {σ : Type} {f : σ → Nat → UInt16 → σ} {xs : List UInt16} {s r : σ}

theorem runs_asInt : Runs P (asInt x) () y () ↔ FitsInt x ∧ y = x := by
  unfold asInt
  split <;> simp_all

theorem runs_overSamples_cons : Runs P (overSamples f i (w :: xs) s) () r () ↔
    P i ∧ FitsInt (i + 1) ∧ Runs P (overSamples f (i + 1) xs (f s i w)) () r () := by
  simp only [overSamples, runs_bind, runs_tell]
  constructor
  · rintro ⟨_, _, ⟨hi, -⟩, k, _, hk, hr⟩
    exact ⟨hi, (runs_asInt.mp hk).1, hr⟩
  · rintro ⟨hi, hk, hr⟩
    exact ⟨(), (), ⟨hi, trivial⟩, _, (), runs_asInt.mpr ⟨hk, rfl⟩, hr⟩

theorem overSamples_inv {I : Nat → σ → Prop} (h : Runs P (overSamples f i xs s) () r ())
    (hstep : ∀ k w s, xs[k]? = some w → I (i + k) s → I (i + k + 1) (f s (i + k) w))
    (hs : I i s) : I (i + xs.length) r := by
  induction xs generalizing i s with
  | nil =>
    obtain ⟨rfl, -⟩ := runs_pure.mp h
    exact hs
  | cons w xs ih =>
    obtain ⟨-, -, hrest⟩ := runs_overSamples_cons.mp h
    have hnext : ∀ k v s, xs[k]? = some v → I (i + 1 + k) s →
        I (i + 1 + k + 1) (f s (i + 1 + k) v) := by
      intro k v s hv hk
      have := hstep (k + 1) v s hv
      rw [show i + 1 + k = i + (k + 1) by omega] at hk ⊢
      exact this hk
    have := ih hrest hnext (hstep 0 w s rfl hs)
    rwa [List.length_cons, Nat.add_comm xs.length, ← Nat.add_assoc]

theorem exists_overSamples_iff (hP : ∀ k < xs.length, P (i + k : Nat)) (hi : i < 2 ^ 31) :
    (∃ r, Runs P (overSamples f i xs s) () r ()) ↔ i + xs.length < 2 ^ 31 := by
  induction xs generalizing i s with
  | nil => exact iff_of_true ⟨s, runs_pure.mpr ⟨rfl, rfl⟩⟩ hi
  | cons w xs ih =>
    have hfirst : P i := hP 0 (by simp)
    have hrest : ∀ k < xs.length, P (i + 1 + k : Nat) := by
      intro k hk
      rw [show i + 1 + k = i + (k + 1) by omega]
      exact hP (k + 1) (by simpa using hk)
    simp only [runs_overSamples_cons, exists_and_left, List.length_cons]
    have hfit : FitsInt ((i : Int) + 1) ↔ i + 1 < 2 ^ 31 := by
      unfold FitsInt
      omega
    rw [hfit]
    constructor
    · rintro ⟨-, hlt, hr⟩
      have := (ih hrest hlt).mp hr
      omega
    · intro hlt
      exact ⟨hfirst, by omega, (ih hrest (by omega)).mpr (by omega)⟩

end

structure Peak (d : FADCdata) (M : Int) (m : Nat) : Prop where
  lt : m < d.samples.length
  eq : d.height m = M
  le : ∀ j < d.samples.length, d.height j ≤ M
  first : ∀ j < m, d.height j < M

theorem Peak.value_unique {M' : Int} {m' : Nat} (h : d.Peak M m) (h' : d.Peak M' m') : M = M' := by
  refine le_antisymm ?_ ?_
  · rw [← h.eq]
    exact h'.le m h.lt
  · rw [← h'.eq]
    exact h.le m' h'.lt

section

variable [IntCast F] {hit : FADC_Hit F}

/-- The maximum and its index are one member before their own. -/
structure Misplaced (hit : FADC_Hit F) (M : Int) (m : Nat) : Prop where
  time_thresh : hit.time_thresh = (M : F)
  max_adc : hit.max_adc = m
  max_loc : hit.max_loc = -1

/-- A hit is returned that has the largest sample and its first index as its maximum. -/
def ReportsMaximum (d : FADCdata) (run : Exec Halt Int Unit (FADC_Hit F)) : Prop :=
  ∃ hit M m, Returns run () hit () ∧ d.Peak M m ∧ hit.max_adc = M ∧ hit.max_loc = (m : Nat)

theorem Misplaced.not_reported {run : Exec Halt Int Unit (FADC_Hit F)}
    (h : ∀ hit, Returns run () hit () → Misplaced hit M m) : ¬ReportsMaximum d run := by
  rintro ⟨hit, M', m', hrun, -, -, hloc⟩
  have := (h hit hrun).max_loc
  omega

variable [Add F] [LT F]

def Above (d : FADCdata) (thres : F) (i : Nat) : Prop :=
  N_PEDESTAL ≤ i ∧ (d.height i : F) >
    thres + ((((List.range N_PEDESTAL).map d.height).sum / N_PEDESTAL : Int) : F)

instance [DecidableLT F] (d : FADCdata) (thres : F) : DecidablePred (d.Above thres) :=
  fun _ => inferInstanceAs (Decidable (_ ∧ _))

/-- The first sample above threshold and pedestal. -/
structure Crossing (d : FADCdata) (thres : F) (i : Nat) : Prop where
  lt : i < d.samples.length
  above : d.Above thres i
  first : ∀ j < i, ¬d.Above thres j

theorem Crossing.unique {thres : F} (hi : d.Crossing thres i) (hj : d.Crossing thres j) : i = j := by
  rcases lt_trichotomy i j with hlt | heq | hlt
  · exact absurd hi.above (hj.first i hlt)
  · exact heq
  · exact absurd hj.above (hi.first j hlt)

namespace Seen

variable {s : Seen} {thres : F}

structure MaxOf (d : FADCdata) (n : Nat) (s : Seen) : Prop where
  nonneg : 0 ≤ s.max
  le : ∀ j < n, d.height j ≤ s.max
  attained : 0 < s.max → ∃ m < n, s.max_loc = m ∧ d.height m = s.max ∧ ∀ j < m, d.height j < s.max

structure After (d : FADCdata) (thres : F) (n : Nat) (s : Seen) : Prop where
  pedest : s.pedest = ((List.range (min n N_PEDESTAL)).map d.height).sum
  max : s.MaxOf d n
  crossing : s.thres_loc = -1 ∧ (∀ j < n, ¬d.Above thres j) ∨
    ∃ i, s.thres_loc = (i : Nat) ∧ d.Crossing thres i

theorem after_zero : After d thres 0 {} :=
  ⟨rfl, ⟨le_rfl, nofun, fun h => absurd h (by decide)⟩, .inl ⟨rfl, nofun⟩⟩

theorem After.max_eq (h : After d thres d.samples.length s) (hpeak : d.Peak M m) : s.max = M := by
  have hle := h.max.le m hpeak.lt
  rw [hpeak.eq] at hle
  refine le_antisymm ?_ hle
  by_contra hgt
  obtain ⟨j, hj, -, heq, -⟩ := h.max.attained (by have := hpeak.eq ▸ d.height_nonneg m; omega)
  exact hgt (heq ▸ hpeak.le j hj)

theorem After.max_loc_eq (h : After d thres d.samples.length s) (hpeak : d.Peak M m) (hM : 0 < M) :
    s.max_loc = m := by
  have hmax := h.max_eq hpeak
  obtain ⟨j, -, hloc, heq, hfirst⟩ := h.max.attained (hmax ▸ hM)
  rw [hloc]
  rcases lt_trichotomy j m with hlt | rfl | hlt
  · have := hpeak.first j hlt
    omega
  · rfl
  · have := hfirst m hlt
    have := hpeak.eq
    omega

theorem After.exists_peak (h : s.After d thres d.samples.length) (hi : i < d.samples.length) :
    ∃ m, d.Peak s.max m := by
  by_cases hpos : 0 < s.max
  · obtain ⟨m, hm, -, heq, hfirst⟩ := h.max.attained hpos
    exact ⟨m, hm, heq, h.max.le, hfirst⟩
  · have hzero := h.max.nonneg
    have hle := h.max.le 0 (by omega)
    have hge := d.height_nonneg 0
    exact ⟨0, by omega, by omega, h.max.le, nofun⟩

variable [DecidableLT F]

theorem next_pedest (hw : d.samples[n]? = some w)
    (h : s.pedest = ((List.range (min n N_PEDESTAL)).map d.height).sum) :
    (s.next thres n w).pedest = ((List.range (min (n + 1) N_PEDESTAL)).map d.height).sum := by
  simp only [next]
  split <;> rename_i hn
  · rw [Nat.min_eq_left hn.le] at h
    rw [Nat.min_eq_left hn, List.range_succ, List.map_append, List.sum_append, ← h, List.map_singleton,
      List.sum_singleton, height_eq hw]
  · rw [Nat.min_eq_right (by omega)] at h ⊢
    exact h

theorem MaxOf.next (hw : d.samples[n]? = some w) (h : s.MaxOf d n) :
    (s.next thres n w).MaxOf d (n + 1) := by
  have hn := height_eq hw
  obtain ⟨hnonneg, hle, hattained⟩ := h
  by_cases hgt : (w.toNat : Int) > s.max
  · refine ⟨?_, ?_, fun _ => ⟨n, n.lt_succ_self, if_pos hgt, ?_⟩⟩ <;>
      simp only [Seen.next, if_pos hgt]
    · omega
    · intro j hj
      obtain hlt | rfl := Nat.lt_succ_iff_lt_or_eq.mp hj
      · exact (hle j hlt).trans hgt.le
      · exact hn.le
    · exact ⟨hn, fun j hj => (hle j hj).trans_lt hgt⟩
  · refine ⟨?_, ?_, ?_⟩ <;> simp only [Seen.next, if_neg hgt]
    · exact hnonneg
    · intro j hj
      obtain hlt | rfl := Nat.lt_succ_iff_lt_or_eq.mp hj
      · exact hle j hlt
      · rw [hn]
        exact not_lt.mp hgt
    · intro hpos
      obtain ⟨m, hm, hrest⟩ := hattained hpos
      exact ⟨m, hm.trans n.lt_succ_self, hrest⟩

theorem next_thres_loc (hw : d.samples[n]? = some w)
    (h : s.pedest = ((List.range (min n N_PEDESTAL)).map d.height).sum) (hs : s.thres_loc = -1)
    (habove : d.Above thres n) : (s.next thres n w).thres_loc = n := by
  obtain ⟨hn, hgt⟩ := habove
  rw [Nat.min_eq_right hn] at h
  rw [height_eq hw, ← h] at hgt
  simp only [next, if_neg (show ¬n < N_PEDESTAL by omega)]
  exact if_pos ⟨hn, hgt, hs⟩

theorem next_thres_loc_of_not (hw : d.samples[n]? = some w)
    (h : s.pedest = ((List.range (min n N_PEDESTAL)).map d.height).sum)
    (hnot : ¬(s.thres_loc = -1 ∧ d.Above thres n)) : (s.next thres n w).thres_loc = s.thres_loc := by
  simp only [next]
  refine if_neg fun hc => hnot ⟨hc.2.2, hc.1, ?_⟩
  have hgt := hc.2.1
  rw [if_neg (show ¬n < N_PEDESTAL by have := hc.1; omega)] at hgt
  rw [Nat.min_eq_right hc.1] at h
  rwa [height_eq hw, ← h]

theorem After.next (hw : d.samples[n]? = some w) (h : After d thres n s) :
    After d thres (n + 1) (s.next thres n w) := by
  refine ⟨next_pedest hw h.pedest, h.max.next hw, ?_⟩
  obtain ⟨hs, hnone⟩ | ⟨i, hs, hi⟩ := h.crossing
  · by_cases habove : d.Above thres n
    · have hlt : n < d.samples.length := (List.getElem?_eq_some_iff.mp hw).1
      exact .inr ⟨n, next_thres_loc hw h.pedest hs habove, hlt, habove, hnone⟩
    · rw [next_thres_loc_of_not hw h.pedest fun hc => habove hc.2]
      refine .inl ⟨hs, fun j hj => ?_⟩
      obtain hlt | rfl := Nat.lt_succ_iff_lt_or_eq.mp hj
      · exact hnone j hlt
      · exact habove
  · rw [next_thres_loc_of_not hw h.pedest fun hc => by omega]
    exact .inr ⟨i, hs, hi⟩

theorem after_loop (h : Runs P (overSamples (Seen.next thres) 0 d.samples {}) () s ()) :
    After d thres d.samples.length s := by
  have := overSamples_inv (I := After d thres) h (fun k w s hw hk => ?_) after_zero
  · rwa [Nat.zero_add] at this
  · rw [Nat.zero_add] at hk ⊢
    exact hk.next hw

end Seen

variable [Sub F] [Mul F] [Div F] [DecidableLT F] {thres pedestal : F} {NSB NSA : Int}
  {past : Int → UInt16}

theorem exists_seen_of_mode3 (h : Returns (d.computeMode3 thres) () hit ()) :
    ∃ s integ time pedest, Seen.After d thres d.samples.length s ∧
      hit = .ofFive integ time pedest s.max s.max_loc := by
  obtain ⟨⟨s, sum⟩, ⟨⟩, hloop, hhit⟩ := returns_bind.mp h
  have hafter := overSamples_inv (I := fun n p => Seen.After d thres n p.1) hloop.runs
    (fun k w p hw hk => ?_) Seen.after_zero
  · rw [Nat.zero_add] at hafter
    exact ⟨s, _, _, _, hafter, (returns_pure.mp hhit).1⟩
  · rw [Nat.zero_add] at hk ⊢
    exact hk.next hw

theorem misplaced_mode3 (hpeak : d.Peak M m) (hM : 0 < M)
    (h : Returns (d.computeMode3 thres) () hit ()) : Misplaced hit M m := by
  obtain ⟨s, integ, time, pedest, hs, rfl⟩ := exists_seen_of_mode3 h
  exact ⟨congrArg _ (hs.max_eq hpeak), hs.max_loc_eq hpeak hM, rfl⟩

variable [LE F] [DecidableLE F]

theorem exists_seen_of_mode7Single
    (h : Returns (d.computeMode7Single past thres pedestal NSB NSA) () hit ()) :
    ∃ s integ time pedest, Seen.After d thres d.samples.length s ∧
      (0 ≤ s.thres_loc → hit = .ofFive integ time pedest s.max s.max_loc) := by
  obtain ⟨s, ⟨⟩, hloop, h⟩ := returns_bind.mp h
  obtain ⟨start, ⟨⟩, -, h⟩ := returns_bind.mp h
  obtain ⟨stop, ⟨⟩, -, h⟩ := returns_bind.mp h
  obtain ⟨stop, ⟨⟩, -, h⟩ := returns_bind.mp h
  obtain ⟨⟨sum, half⟩, ⟨⟩, -, h⟩ := returns_bind.mp h
  have hafter := Seen.after_loop hloop.runs
  dsimp only at h
  split at h <;> rename_i hneg
  · exact ⟨s, hit.integral, hit.time, hit.pedestal, hafter, fun hnonneg => absurd hneg (by omega)⟩
  · obtain ⟨here, ⟨⟩, -, h⟩ := returns_bind.mp h
    obtain ⟨before, ⟨⟩, -, h⟩ := returns_bind.mp h
    exact ⟨s, _, _, _, hafter, fun _ => (returns_pure.mp h).1⟩

theorem misplaced_mode7Single (hpeak : d.Peak M m) (hM : 0 < M) (hi : d.Crossing thres i)
    (h : Returns (d.computeMode7Single past thres pedestal NSB NSA) () hit ()) :
    Misplaced hit M m := by
  obtain ⟨s, integ, time, pedest, hs, hhit⟩ := exists_seen_of_mode7Single h
  obtain ⟨-, hnone⟩ | ⟨j, hj, -⟩ := hs.crossing
  · exact absurd hi.above (hnone i hi.lt)
  · rw [hhit (by omega)]
    exact ⟨congrArg _ (hs.max_eq hpeak), hs.max_loc_eq hpeak hM, rfl⟩

/-- No hit has the maximum in its own members: they hold the index of the maximum and the default,
and the maximum is in `time_thresh`. -/
theorem maximum_misplaced (d : FADCdata) (past : Int → UInt16) (thres pedestal : F) (NSB NSA : Int)
    (hpeak : d.Peak M m) (hM : 0 < M) :
    ((∀ hit, Returns (d.computeMode3 thres) () hit () → Misplaced hit M m) ∧
      ¬ReportsMaximum d (d.computeMode3 thres)) ∧
    ∀ i, d.Crossing thres i →
      (∀ hit, Returns (d.computeMode7Single past thres pedestal NSB NSA) () hit () →
        Misplaced hit M m) ∧
      ¬ReportsMaximum d (d.computeMode7Single past thres pedestal NSB NSA) := by
  have h3 (hit) (h : Returns (d.computeMode3 thres) () hit ()) : Misplaced hit M m :=
    misplaced_mode3 hpeak hM h
  refine ⟨⟨h3, Misplaced.not_reported h3⟩, fun i hi => ?_⟩
  have h7 (hit) (h : Returns (d.computeMode7Single past thres pedestal NSB NSA) () hit ()) :
      Misplaced hit M m := misplaced_mode7Single hpeak hM hi h
  exact ⟨h7, Misplaced.not_reported h7⟩

def pulse : FADCdata := { samples := [1, 1, 1, 1, 10, 20, 5, 1] }

theorem pulse_peak : pulse.Peak 20 5 := ⟨by decide, by decide, by decide, by decide⟩

theorem pulse_crossing : pulse.Crossing (0 : Rat) 4 :=
  ⟨by decide, by decide +kernel, by decide +kernel⟩

theorem pulse_misplaced : ∃ hit,
    Returns (pulse.computeMode7Single (fun _ => 0) (0 : Rat) 0 5 25) () hit () ∧
      Misplaced hit 20 5 := by
  obtain ⟨hit, hrun⟩ := exists_returns_of_isOk
    (m := pulse.computeMode7Single (fun _ => 0) (0 : Rat) 0 5 25) (s := ()) (by decide +kernel)
  have h := maximum_misplaced pulse (fun _ => 0) (0 : Rat) 0 5 25 pulse_peak (by decide)
  exact ⟨hit, hrun, (h.2 4 pulse_crossing).1 hit hrun⟩

theorem pulse_not_reported : pulse.Peak 20 5 ∧ pulse.Crossing (0 : Rat) 4 ∧
    ¬ReportsMaximum pulse (pulse.computeMode3 (0 : Rat)) ∧
    ¬ReportsMaximum pulse (pulse.computeMode7Single (fun _ => 0) (0 : Rat) 0 5 25) :=
  ⟨pulse_peak, pulse_crossing,
    Misplaced.not_reported fun _ => misplaced_mode3 pulse_peak (by decide),
    Misplaced.not_reported fun _ => misplaced_mode7Single pulse_peak (by decide) pulse_crossing⟩

end

end FADCdata

end EvioTool
