import EvioTool.Laws.HitMap
import EvioTool.Laws.SampleReads

namespace EvioTool

open Lib Exec TriggerConfig

namespace FADCdata

section Total

variable {d : FADCdata} {α β : Type} {m : Exec Halt Nat Unit α} {f : α → Exec Halt Nat Unit β}
  {a : α} {i : Nat}

def Recorded (d : FADCdata) (m : Exec Halt Nat Unit α) : Prop :=
  Logs (fun i => i < d.samples.length) m ()

def Total (d : FADCdata) (m : Exec Halt Nat Unit α) : Prop := d.Recorded m → ∃ a, d.Within m a

theorem Within.recorded (h : d.Within m a) : d.Recorded m := h.2

theorem Within.recorded_bind_iff (h : d.Within m a) :
    d.Recorded (m >>= f) ↔ d.Recorded (f a) := by
  unfold Recorded
  rw [h.1.logs_bind]
  exact and_iff_right h.2

theorem Total.recorded_iff (h : d.Total m) : d.Recorded m ↔ ∃ a, d.Within m a :=
  ⟨h, fun ⟨_, ha⟩ => ha.recorded⟩

theorem recorded_pure : d.Recorded (pure a) := logs_pure

theorem recorded_map_iff {g : α → β} : d.Recorded (m >>= fun a => pure (g a)) ↔ d.Recorded m := by
  unfold Recorded
  rw [logs_bind]
  exact and_iff_left fun _ _ _ => logs_pure

theorem total_pure : d.Total (pure a) := fun _ => ⟨a, within_pure_iff.mpr rfl⟩

theorem Total.bind (hm : d.Total m) (hf : ∀ a, d.Total (f a)) : d.Total (m >>= f) := by
  intro h
  obtain ⟨a, ha⟩ := hm (logs_bind.mp h).1
  obtain ⟨b, hb⟩ := hf a (ha.recorded_bind_iff.mp h)
  exact ⟨b, ha.bind_iff.mpr hb⟩

theorem recorded_readSample_iff : d.Recorded (d.readSample i) ↔ i < d.samples.length := by
  constructor
  · intro h
    exact (logs_bind.mp h).1 i List.mem_cons_self
  · exact fun h => (within_readSample (fun _ => 0) h).recorded

theorem total_readSample : d.Total (d.readSample i) :=
  fun h => ⟨_, within_readSample (fun _ => 0) (recorded_readSample_iff.mp h)⟩

theorem recorded_each_iff {f : α → Exec Halt Nat Unit β} (hf : ∀ a, d.Total (f a)) (as : List α) :
    d.Recorded (each f as) ↔ ∀ a ∈ as, d.Recorded (f a) := by
  induction as with
  | nil => exact iff_of_true recorded_pure fun _ h => (List.not_mem_nil h).elim
  | cons a as ih =>
    rw [each, List.forall_mem_cons]
    constructor
    · intro h
      have ha := (logs_bind.mp h).1
      obtain ⟨b, hb⟩ := hf a ha
      exact ⟨ha, ih.mp (recorded_map_iff.mp (hb.recorded_bind_iff.mp h))⟩
    · rintro ⟨ha, has⟩
      obtain ⟨b, hb⟩ := hf a ha
      exact hb.recorded_bind_iff.mpr (recorded_map_iff.mpr (ih.mpr has))

theorem total_each {f : α → Exec Halt Nat Unit β} (hf : ∀ a, d.Total (f a)) (as : List α) :
    d.Total (each f as) := by
  induction as with
  | nil => exact total_pure
  | cons a as ih => exact (hf a).bind fun _ => ih.bind fun _ => total_pure

variable {F : Type} [IntCast F] [LT F] [DecidableLT F] {half : F}

theorem total_readHalf (is : List Nat) : d.Total (d.readHalf half is) := by
  induction is with
  | nil => exact total_pure
  | cons i is ih =>
    refine total_readSample.bind fun next => ?_
    split
    · refine total_readSample.bind fun here => ?_
      split
      · exact total_pure
      · exact ih
    · exact ih

theorem total_readScan (is : List Nat) (acc : Int × Int × Int) : d.Total (d.readScan is acc) := by
  induction is generalizing acc with
  | nil => exact total_pure
  | cons i is ih =>
    refine total_readSample.bind fun x => ?_
    split
    · exact ih _
    · exact ih _

theorem total_readHit [Add F] [Sub F] [Mul F] [Div F] (pedestal : F) (NSB NSA : Int) (gain : F)
    (c : Nat) : d.Total (d.readHit pedestal NSB NSA gain c) :=
  (total_readScan _ _).bind fun _ => (total_readHalf _).bind fun _ => total_pure

end Total

def firstIndex (NSB : Int) (c : Nat) : Nat := ((c : Int) - NSB.tdiv 4).toNat

theorem first_eq (NSB : Int) (c : Nat) :
    (if (c : Int) - NSB.tdiv 4 ≥ 0 then (c : Int) - NSB.tdiv 4 else 0) = firstIndex NSB c := by
  rw [firstIndex]
  split <;> omega

section Search

variable {F : Type} [IntCast F] [LT F] [DecidableLT F]
variable {d : FADCdata} {past : Nat → UInt16} {thr : F} {NSA npeak : Int} {fuel : Nat}
  {cs : List Nat}

theorem recorded_readWindow_iff (past : Nat → UInt16) (half : F) {a b : Nat}
    (hb : b ≤ d.samples.length) :
    d.Recorded (d.readHalf half (indices a b)) ↔
      b ≤ a ∨ b < d.samples.length ∨
        ∃ j, a ≤ j ∧ j + 1 < b ∧ Steps (d.sample past) half j := by
  rw [indices_eq]
  obtain hab | hab := Nat.lt_or_ge a b
  · have hlen : a + (b - a) = b := by omega
    have hne : b - a ≠ 0 := by omega
    rw [(total_readHalf _).recorded_iff, or_iff_right (by omega)]
    simp only [within_readHalf_iff past (show a + (b - a) ≤ d.samples.length by omega), hlen, hne,
      false_or, exists_eq_left]
  · have hnil : b - a = 0 := by omega
    rw [hnil]
    exact iff_of_true recorded_pure (.inl hab)

theorem recorded_readSearch (past : Nat → UInt16) (thr : F) (NSA npeak : Int) (k i : Nat)
    (cs : List Nat) :
    d.Recorded (d.readSearch thr NSA npeak k i cs) := by
  induction k generalizing i cs with
  | zero => exact logs_halt
  | succ k ih =>
    rw [readSearch]
    split
    · rename_i hi
      rw [(within_readCrosses past thr hi).recorded_bind_iff]
      split
      · dsimp only
        split
        · exact recorded_pure
        · exact ih _ _
      · exact ih _ _
    · exact recorded_pure

theorem lt_of_search {s : Nat → Int} {size k i : Nat} {r : List Nat}
    (h : search s size thr NSA npeak k i cs = some r) (hcs : ∀ c ∈ cs, c < size) :
    ∀ c ∈ r, c < size := by
  induction k generalizing i cs with
  | zero => cases h
  | succ k ih =>
    have hmore (hi : i < size) : ∀ c ∈ cs ++ [i], c < size := by
      simpa [or_imp, forall_and] using ⟨hcs, hi⟩
    rw [search] at h
    dsimp only at h
    split_ifs at h with hi hcross hlast
    · cases h
      exact hmore hi
    · exact ih h (hmore hi)
    · exact ih h hcs
    · cases h
      exact hcs

theorem lt_of_thresholdCrossings (hd : 0 < d.samples.length)
    (h : d.thresholdCrossings past fuel thr NSA npeak = some cs) :
    ∀ c ∈ cs, c < d.samples.length := by
  refine lt_of_search h fun c hc => ?_
  obtain ⟨-, hf⟩ | ⟨-, hf⟩ := firstCrossings_cases (d.sample past) thr
  · rw [hf] at hc
    obtain rfl := List.mem_singleton.mp hc
    exact hd
  · rw [hf] at hc
    cases hc

theorem within_search_iff (past : Nat → UInt16) :
    d.Within (d.readSearch thr NSA npeak fuel 1 (firstCrossings (d.sample past) thr)) cs ↔
      d.thresholdCrossings past fuel thr NSA npeak = some cs := within_readSearch_iff past

def Stalls (d : FADCdata) (past : Nat → UInt16) (thr : F) (NSA npeak : Int) : Prop :=
  0 < NSA ∧ NSA < 4 ∧ npeak ≤ 0 ∧
    ∃ i, 1 ≤ i ∧ i < d.samples.length ∧ Crosses (d.sample past) thr i

theorem exists_collects (hNSA : 0 < NSA) (h : ¬Stalls d past thr NSA npeak) :
    ∃ cs, Collects d past thr NSA npeak cs := by
  by_cases h4 : 4 ≤ NSA
  · obtain ⟨l, -, hcs⟩ := exists_scan d past thr h4
    exact ⟨_, hcs npeak⟩
  · by_cases hcross : ∃ i, 1 ≤ i ∧ i < d.samples.length ∧ Crosses (d.sample past) thr i
    · have hpeak : 0 < npeak := by
        by_contra hpeak
        exact h ⟨hNSA, by omega, by omega, hcross⟩
      have hw : window NSA = 0 := by
        have := (window_pos_iff hNSA).not.mpr h4
        omega
      obtain ⟨c, -, -, hcs⟩ := collects_repeated npeak hNSA hw hpeak hcross
      exact ⟨_, hcs⟩
    · have hnone : ∀ i, 1 ≤ i → i < d.samples.length → ¬Crosses (d.sample past) thr i :=
        fun i hi hlt hc => hcross ⟨i, hi, hlt, hc⟩
      exact ⟨_, collects_of_scan hNSA (Scan.nil_of_none hnone)⟩

end Search

section Pedestal

variable {F : Type} [Div F] [IntCast F] [LE F] [DecidableLE F] {d : FADCdata} {pedestal : F}

theorem recorded_readPedestal_iff :
    d.Recorded (d.readPedestal pedestal) ↔
      (pedestal ≤ ((0 : Int) : F) → N_PEDESTAL ≤ d.samples.length) := by
  unfold readPedestal
  split
  · rename_i h
    rw [recorded_map_iff, recorded_each_iff fun _ => total_readSample]
    simp only [recorded_readSample_iff, List.mem_range, h, forall_const]
    constructor
    · intro hlt
      have := hlt (N_PEDESTAL - 1) (by decide)
      unfold N_PEDESTAL at *
      omega
    · exact fun hle j hj => hj.trans_le hle
  · rename_i h
    exact iff_of_true recorded_pure fun hle => (h hle).elim

theorem within_readPedestal_of (past : Nat → UInt16)
    (h : pedestal ≤ ((0 : Int) : F) → N_PEDESTAL ≤ d.samples.length) :
    d.Within (d.readPedestal pedestal) (d.pedestalOf past pedestal) := by
  by_cases hle : pedestal ≤ ((0 : Int) : F)
  · exact within_readPedestal past pedestal (h hle)
  · rw [readPedestal, pedestalOf, if_neg hle, if_neg hle]
    exact within_pure_iff.mpr rfl

def StartRecorded (d : FADCdata) (pedestal : F) : Prop :=
  (pedestal ≤ ((0 : Int) : F) → N_PEDESTAL ≤ d.samples.length) ∧ 0 < d.samples.length

end Pedestal

section Call

variable {F : Type} [Add F] [Sub F] [Mul F] [Div F] [IntCast F] [LT F] [DecidableLT F]
variable {d : FADCdata} {past : Nat → UInt16} {thres pedestal thr gain : F} {NSB NSA npeak : Int}
  {c fuel : Nat} {cs : List Nat}

/-- The window of a crossing has no samples, or it ends before the samples do, or the waveform
steps over the half maximum in it. -/
def HalfRecorded (d : FADCdata) (past : Nat → UInt16) (pedestal : F) (NSB NSA : Int) (c : Nat) :
    Prop :=
  d.windowStop NSA c ≤ firstIndex NSB c ∨ d.windowStop NSA c < d.samples.length ∨
    ∃ M : Int, IsGreatest (d.sample past '' Set.Ico (firstIndex NSB c) (d.windowStop NSA c)) M ∧
      ∃ j, firstIndex NSB c ≤ j ∧ j + 1 < d.windowStop NSA c ∧
        Steps (d.sample past) (((M : F) + pedestal) / ((2 : Int) : F)) j

theorem recorded_readHit_iff (past : Nat → UInt16) (hNSA : 0 ≤ NSA) :
    d.Recorded (d.readHit pedestal NSB NSA gain c) ↔ HalfRecorded d past pedestal NSB NSA c := by
  have hbd : d.windowStop NSA c ≤ d.samples.length := Nat.min_le_right _ _
  have hin : ∀ i ∈ indices (firstIndex NSB c) (d.windowStop NSA c), i < d.samples.length :=
    fun i hi => (mem_indices.mp hi).2.trans_le hbd
  have hscan := d.within_readScan past hin (0, 0, -1)
  have hgreatest (h : ¬d.windowStop NSA c ≤ firstIndex NSB c) :=
    d.isGreatest_scan past le_rfl (not_le.mp h)
  unfold readHit HalfRecorded
  simp only [first_eq, stop_eq (d := d) (c := c) hNSA]
  rw [hscan.recorded_bind_iff]
  clear hscan
  generalize scan (d.sample past) (indices (firstIndex NSB c) (d.windowStop NSA c)) (0, 0, -1) = m
    at hgreatest ⊢
  obtain ⟨adc, max, loc⟩ := m
  dsimp only at hgreatest ⊢
  rw [recorded_map_iff, recorded_readWindow_iff past _ hbd]
  refine or_congr_right' fun hab => or_congr_right ?_
  constructor
  · exact fun hj => ⟨max, hgreatest hab, hj⟩
  · rintro ⟨M, hM, hj⟩
    rwa [← hM.unique (hgreatest hab)]

omit [Sub F] [Mul F] [DecidableLT F] in
theorem halfRecorded_of_lt (hNSA : 0 < NSA) (h : NSA < 4) (hc : c < d.samples.length) :
    HalfRecorded d past pedestal NSB NSA c := by
  have hw : ¬0 < window NSA := (window_pos_iff hNSA).not.mpr (by omega)
  have hstop : d.windowStop NSA c = c := by
    rw [windowStop]
    omega
  refine .inr (.inl ?_)
  rwa [hstop]

variable [LE F] [DecidableLE F]

theorem StartRecorded.recorded_iff (h : d.StartRecorded pedestal) (past : Nat → UInt16)
    (hNSA : 0 < NSA) :
    d.Recorded (d.readMode7fast fuel thres pedestal NSB NSA npeak gain) ↔
      d.Recorded (d.readSearch (thres + d.pedestalOf past pedestal) NSA npeak fuel 1
          (firstCrossings (d.sample past) (thres + d.pedestalOf past pedestal)) >>=
        each (d.readHit (d.pedestalOf past pedestal) NSB NSA gain)) := by
  rw [readMode7fast, if_neg (by omega), (within_readPedestal_of past h.1).recorded_bind_iff,
    (within_readSample past h.2).recorded_bind_iff]
  rfl

theorem StartRecorded.within_iff (h : d.StartRecorded pedestal) (past : Nat → UInt16)
    (hNSA : 0 < NSA) {hits : List (FADC_Hit F)} :
    d.Within (d.readMode7fast fuel thres pedestal NSB NSA npeak gain) hits ↔
      d.Within (d.readSearch (thres + d.pedestalOf past pedestal) NSA npeak fuel 1
          (firstCrossings (d.sample past) (thres + d.pedestalOf past pedestal)) >>=
        each (d.readHit (d.pedestalOf past pedestal) NSB NSA gain)) hits := by
  rw [readMode7fast, if_neg (by omega), (within_readPedestal_of past h.1).bind_iff,
    (within_readSample past h.2).bind_iff]
  rfl

theorem startRecorded_of (hNSA : 0 < NSA)
    (h : d.Recorded (d.readMode7fast fuel thres pedestal NSB NSA npeak gain)) :
    d.StartRecorded pedestal := by
  rw [readMode7fast, if_neg (by omega)] at h
  have hp := recorded_readPedestal_iff.mp (logs_bind.mp h).1
  rw [(within_readPedestal_of (fun _ => 0) hp).recorded_bind_iff] at h
  exact ⟨hp, recorded_readSample_iff.mp (logs_bind.mp h).1⟩

theorem recorded_readMode7fast_iff (past : Nat → UInt16) (hNSA : 0 < NSA) :
    d.Recorded (d.readMode7fast fuel thres pedestal NSB NSA npeak gain) ↔
      d.StartRecorded pedestal ∧
      ∀ cs, d.thresholdCrossings past fuel (thres + d.pedestalOf past pedestal) NSA npeak = some cs →
        ∀ c ∈ cs, HalfRecorded d past (d.pedestalOf past pedestal) NSB NSA c := by
  have hhits (cs : List Nat) :
      d.Recorded (each (d.readHit (d.pedestalOf past pedestal) NSB NSA gain) cs) ↔
        ∀ c ∈ cs, HalfRecorded d past (d.pedestalOf past pedestal) NSB NSA c := by
    rw [recorded_each_iff fun c => total_readHit _ _ _ _ c]
    exact forall₂_congr fun c _ => recorded_readHit_iff past hNSA.le
  have hsearch := d.recorded_readSearch past (thres + d.pedestalOf past pedestal) NSA npeak fuel 1
    (firstCrossings (d.sample past) (thres + d.pedestalOf past pedestal))
  constructor
  · intro h
    have hstart := startRecorded_of hNSA h
    refine ⟨hstart, fun cs hcs => (hhits cs).mp ?_⟩
    rw [hstart.recorded_iff past hNSA] at h
    exact ((within_search_iff past).mpr hcs).recorded_bind_iff.mp h
  · rintro ⟨hstart, h⟩
    rw [hstart.recorded_iff past hNSA]
    refine logs_bind.mpr ⟨hsearch, fun cs _ hcs => (hhits cs).mpr (h cs ?_)⟩
    exact (within_search_iff past).mp ⟨hcs, hsearch⟩

/-- What the samples have to be for a call with these settings. -/
def SamplesRecorded (d : FADCdata) (past : Nat → UInt16) (thres pedestal : F)
    (NSB NSA npeak : Int) : Prop :=
  NSA ≤ 0 ∨ d.StartRecorded pedestal ∧
    (4 ≤ NSA → ∀ cs, Pulses d past (thres + d.pedestalOf past pedestal) NSA npeak cs →
      ∀ c ∈ cs, HalfRecorded d past (d.pedestalOf past pedestal) NSB NSA c)

theorem SamplesRecorded.recorded (h : d.SamplesRecorded past thres pedestal NSB NSA npeak)
    (fuel : Nat) (gain : F) :
    d.Recorded (d.readMode7fast fuel thres pedestal NSB NSA npeak gain) := by
  by_cases hNSA : 0 < NSA
  · obtain hle | ⟨hstart, h⟩ := h
    · omega
    · refine (recorded_readMode7fast_iff past hNSA).mpr ⟨hstart, fun cs hcs c hc => ?_⟩
      by_cases h4 : 4 ≤ NSA
      · exact h h4 cs ((collects_iff h4).mp ⟨fuel, hcs⟩) c hc
      · exact halfRecorded_of_lt hNSA (by omega) (lt_of_thresholdCrossings hstart.2 hcs c hc)
  · rw [readMode7fast, if_pos (by omega)]
    exact recorded_pure

theorem samplesRecorded_of (past : Nat → UInt16) (gain : F) (F₀ : Nat) (h : ∀ fuel ≥ F₀,
    d.Recorded (d.readMode7fast fuel thres pedestal NSB NSA npeak gain)) :
    d.SamplesRecorded past thres pedestal NSB NSA npeak := by
  by_cases hNSA : 0 < NSA
  · refine .inr ⟨startRecorded_of hNSA (h F₀ le_rfl), fun h4 cs hcs => ?_⟩
    obtain ⟨fuel, hfuel⟩ := (collects_iff h4).mpr hcs
    have hmore := search_mono hfuel (le_max_left fuel F₀)
    exact ((recorded_readMode7fast_iff past hNSA).mp (h _ (le_max_right fuel F₀))).2 cs hmore
  · exact .inl (by omega)

theorem SamplesRecorded.within (h : d.SamplesRecorded past thres pedestal NSB NSA npeak)
    (hstalls : ¬Stalls d past (thres + d.pedestalOf past pedestal) NSA npeak) (gain : F) :
    ∃ F₀, ∀ fuel ≥ F₀, ∃ hits,
      d.Within (d.readMode7fast fuel thres pedestal NSB NSA npeak gain) hits := by
  by_cases hNSA : 0 < NSA
  · obtain ⟨cs, F₀, hcs⟩ := exists_collects hNSA hstalls
    refine ⟨F₀, fun fuel hfuel => ?_⟩
    have hrecorded := h.recorded fuel gain
    have hstart := startRecorded_of hNSA hrecorded
    have hsearch := (within_search_iff past).mpr (search_mono hcs hfuel)
    rw [hstart.recorded_iff past hNSA, hsearch.recorded_bind_iff] at hrecorded
    obtain ⟨hits, hhits⟩ := total_each (fun c => total_readHit _ _ _ _ c) cs hrecorded
    exact ⟨hits, (hstart.within_iff past hNSA).mpr (hsearch.bind_iff.mpr hhits)⟩
  · refine ⟨0, fun fuel _ => ⟨[], ?_⟩⟩
    rw [readMode7fast, if_pos (by omega)]
    exact within_pure_iff.mpr rfl

theorem not_stalls {hits : List (FADC_Hit F)}
    (h : d.Within (d.readMode7fast fuel thres pedestal NSB NSA npeak gain) hits) :
    ¬Stalls d past (thres + d.pedestalOf past pedestal) NSA npeak := by
  rintro ⟨hNSA, h4, hpeak, hcross⟩
  have hstart := startRecorded_of hNSA h.recorded
  rw [hstart.within_iff past hNSA] at h
  obtain ⟨cs, hcs⟩ := within_bind h
  have hw : window NSA = 0 := by
    have := (window_pos_iff hNSA).not.mpr (by omega)
    omega
  exact not_collects hNSA hw hpeak hcross ⟨fuel, (within_search_iff past).mp hcs⟩

end Call

end FADCdata

section Entries

variable {σ α β : Type} {P : EcalObs → Prop} {xs : List α} {i : Nat} {s s' : σ}

theorem logs_ecalAt_iff (hP : ∀ a, P (.access a) ↔ a.InRange) :
    Logs P (ecalAt xs i : Exec Halt EcalObs σ α) s ↔ i < xs.length := by
  rw [ecalAt, logs_mapLog, vectorAt, logs_bind]
  simp [hP, Access.InRange]

theorem logs_ecalAt_bind (hP : ∀ a, P (.access a) ↔ a.InRange) (h : i < xs.length) (x : α)
    (f : α → Exec Halt EcalObs σ β) :
    Logs P (ecalAt xs i >>= f) s ↔ Logs P (f (xs.getD i x)) s := by
  have hget : xs[i]? = some (xs.getD i x) := by
    rw [List.getD_eq_getElem?_getD, List.getElem?_eq_getElem h, Option.getD_some]
  have hret : Returns (ecalAt xs i : Exec Halt EcalObs σ α) s (xs.getD i x) s :=
    returns_ecalAt.mpr ⟨hget, rfl⟩
  rw [hret.logs_bind]
  exact and_iff_right ((logs_ecalAt_iff hP).mpr h)

variable {F : Type} [Add F] [Sub F] [Mul F] [Div F] [IntCast F] [LT F] [DecidableLT F] [LE F]
  [DecidableLE F]
variable {t : TriggerConfig} {d : FADCdata} {past : Nat → UInt16} {round : Rat → F} {fuel : Nat}
  {M M' : HitMap F} {data : List FADCdata}

def FADC250_slot_t.readHits (s : FADC250_slot_t) (round : Rat → F) (fuel : Nat) (d : FADCdata) :
    Exec Halt Nat Unit (List (FADC_Hit F)) :=
  d.readMode7fast fuel ((s.threshold.getD d.chan.toNat 0 : Int) : F)
    (round (s.pedestal.getD d.chan.toNat 0)) s.NSB s.NSA s.npeak
    (round (s.gain.getD d.chan.toNat 0))

def FADC250_slot_t.IsEcal (s : FADC250_slot_t) (d : FADCdata) : Prop :=
  s.subsystem.getD d.chan.toNat 0 = 2

theorem logs_GetSlot_bind (hP : ∀ a, P (.access a) ↔ a.InRange)
    (h : t.GetCrateNum d.crate < t.crates.length)
    (f : Option FADC250_slot_t → Exec Halt EcalObs σ β) :
    Logs P (t.GetSlot d.crate d.slot >>= f) s ↔ Logs P (f (t.slotOf d)) s := by
  rw [TriggerConfig.GetSlot, Exec.bind_assoc, logs_ecalAt_bind hP h {}, Exec.bind_assoc,
    logs_ecalAt_bind hP h {}, Exec.pure_bind]
  rfl

theorem lt_of_logs_GetSlot (hP : ∀ a, P (.access a) ↔ a.InRange)
    (h : Logs P (t.GetSlot d.crate d.slot : Exec Halt EcalObs σ _) s) :
    t.GetCrateNum d.crate < t.crates.length :=
  (logs_ecalAt_iff hP).mp (logs_bind.mp h).1

theorem logs_read_iff (hP : ∀ a, P (.access a) ↔ a.InRange) (thres pedestal gain : F)
    (NSB NSA npeak : Int) :
    Logs P (HitMap.read fuel i d thres pedestal NSB NSA npeak gain) M ↔
      d.Recorded (d.readMode7fast fuel thres pedestal NSB NSA npeak gain) := by
  rw [HitMap.read, logs_mapLog, logs_zoom]
  simp only [hP, Access.InRange, forall_true_left]
  exact ⟨fun h => h (), fun h _ => h⟩

theorem logs_parseEntry_iff (hP : ∀ a, P (.access a) ↔ a.InRange) (hfull : t.Full) :
    Logs P (HitMap.parseEntry (HitMap.read fuel) round t i d) M ↔
      t.GetCrateNum d.crate < t.crates.length ∧ ∀ s, t.slotOf d = some s →
        d.chan.toNat < 16 ∧ (s.IsEcal d → P (.taken i) ∧ d.Recorded (s.readHits round fuel d)) := by
  unfold HitMap.parseEntry FADC250_slot_t.IsEcal
  by_cases hcrate : t.GetCrateNum d.crate < t.crates.length
  · rw [and_iff_right hcrate, logs_GetSlot_bind hP hcrate]
    cases hs : t.slotOf d with
    | none => exact iff_of_true logs_pure nofun
    | some s =>
      obtain ⟨hpedestal, hgain, hthreshold, hsub, hix, hiy⟩ := hfull _ _ s hs
      simp only [Option.some.injEq, forall_eq']
      by_cases hchan : d.chan.toNat < 16
      · rw [logs_ecalAt_bind hP (by omega) 0, and_iff_right hchan]
        by_cases hecal : s.subsystem.getD d.chan.toNat 0 = 2
        · have htell : Returns (tell (.taken i) : Exec Halt EcalObs (HitMap F) Unit) M () M :=
            ⟨rfl, rfl⟩
          rw [if_neg (not_not_intro hecal), htell.logs_bind, logs_tell,
            logs_ecalAt_bind hP (by omega) 0, logs_ecalAt_bind hP (by omega) 0,
            logs_ecalAt_bind hP (by omega) 0, logs_ecalAt_bind hP (by omega) 0,
            logs_ecalAt_bind hP (by omega) 0, forall_prop_of_true hecal]
          refine and_congr_right fun _ => ?_
          rw [logs_bind, logs_read_iff hP]
          exact and_iff_left fun _ _ _ => logs_modify
        · rw [if_pos hecal]
          exact iff_of_true logs_pure fun h => (hecal h).elim
      · refine iff_of_false (fun h => hchan ?_) fun h => hchan h.1
        have hlt := (logs_ecalAt_iff hP).mp (logs_bind.mp h).1
        omega
  · exact iff_of_false (fun h => hcrate (lt_of_logs_GetSlot hP (logs_bind.mp h).1))
      fun h => hcrate h.1

theorem returns_read_iff (thres pedestal gain : F) (NSB NSA npeak : Int) {hits : List (FADC_Hit F)} :
    Returns (HitMap.read fuel i d thres pedestal NSB NSA npeak gain) M hits M' ↔
      Returns (d.readMode7fast fuel thres pedestal NSB NSA npeak gain) () hits () ∧ M' = M := by
  rw [HitMap.read, returns_mapLog, returns_zoom]
  constructor
  · rintro ⟨_, _, -, h, rfl⟩
    exact ⟨h, rfl⟩
  · rintro ⟨h, rfl⟩
    exact ⟨(), (), rfl, h, rfl⟩

theorem exists_returns_parseEntry_iff (hfull : t.Full)
    (hcrate : t.GetCrateNum d.crate < t.crates.length)
    (hchan : ∀ s, t.slotOf d = some s → d.chan.toNat < 16) :
    (∃ M', Returns (HitMap.parseEntry (HitMap.read fuel) round t i d) M () M') ↔
      ∀ s, t.slotOf d = some s → s.IsEcal d →
        ∃ hits, Returns (s.readHits round fuel d) () hits () := by
  have hslot : Returns (t.GetSlot d.crate d.slot) M (t.slotOf d) M :=
    (returns_GetSlot hcrate).mpr ⟨rfl, rfl⟩
  simp only [HitMap.parseEntry, hslot.bind_iff]
  cases hs : t.slotOf d with
  | none => exact iff_of_true ⟨M, returns_pure.mpr ⟨rfl, rfl⟩⟩ nofun
  | some s =>
    obtain ⟨hpedestal, hgain, hthreshold, hsub, hix, hiy⟩ := hfull _ _ s hs
    have h16 := hchan s hs
    simp only [Option.some.injEq, forall_eq', FADC250_slot_t.IsEcal,
      returns_ecalAt_bind (hsub ▸ h16) 0]
    by_cases hecal : s.subsystem.getD d.chan.toNat 0 = 2
    · have htell : Returns (tell (.taken i) : Exec Halt EcalObs (HitMap F) Unit) M () M :=
        ⟨rfl, rfl⟩
      simp only [if_neg (not_not_intro hecal), forall_prop_of_true hecal, htell.bind_iff,
        returns_ecalAt_bind (hix ▸ h16) 0, returns_ecalAt_bind (hiy ▸ h16) 0,
        returns_ecalAt_bind (hthreshold ▸ h16) 0, returns_ecalAt_bind (hpedestal ▸ h16) 0,
        returns_ecalAt_bind (hgain ▸ h16) 0]
      constructor
      · rintro ⟨M', h⟩
        obtain ⟨hits, _, hread, -⟩ := returns_bind.mp h
        exact ⟨hits, (returns_read_iff ..).mp hread |>.1⟩
      · rintro ⟨hits, hread⟩
        exact ⟨_, ((returns_read_iff ..).mpr ⟨hread, rfl⟩).bind ⟨rfl, rfl⟩⟩
    · simp only [if_pos hecal]
      exact iff_of_true ⟨M, returns_pure.mpr ⟨rfl, rfl⟩⟩ fun h => (hecal h).elim

def TriggerConfig.KnowsCrate (t : TriggerConfig) (d : FADCdata) : Prop :=
  d.crate = 37 ∨ d.crate = 39 ∨ d.crate.toNat < t.crates.length

def TriggerConfig.Matches (t : TriggerConfig) (d : FADCdata) : Prop :=
  t.KnowsCrate d ∧ (t.slotOf d).isSome ∧ d.chan.toNat < 16

/-- Indices are in range, and entries that match nothing are skipped. -/
def EcalObs.Allowed (t : TriggerConfig) (data : List FADCdata) : EcalObs → Prop
  | .access a => a.InRange
  | .taken i => ∃ d, data[i]? = some d ∧ t.Matches d

/-- An entry for which the code does so: its crate is in the table, its channel is one that the
slot has, and for a channel of the ECAL the crate is known and the samples are recorded. -/
structure TriggerConfig.Accepts (t : TriggerConfig) (past : Nat → UInt16) (round : Rat → F)
    (d : FADCdata) : Prop where
  crate : t.GetCrateNum d.crate < t.crates.length
  chan : ∀ s, t.slotOf d = some s → d.chan.toNat < 16
  ecal : ∀ s, t.slotOf d = some s → s.IsEcal d → t.KnowsCrate d ∧
    d.SamplesRecorded past ((s.threshold.getD d.chan.toNat 0 : Int) : F)
      (round (s.pedestal.getD d.chan.toNat 0)) s.NSB s.NSA s.npeak

/-- An entry that is never left. -/
def TriggerConfig.Stalls (t : TriggerConfig) (past : Nat → UInt16) (round : Rat → F)
    (d : FADCdata) : Prop :=
  ∃ s, t.slotOf d = some s ∧ s.IsEcal d ∧ d.Stalls past (((s.threshold.getD d.chan.toNat 0 : Int) : F) +
    d.pedestalOf past (round (s.pedestal.getD d.chan.toNat 0))) s.NSA s.npeak

theorem TriggerConfig.Accepts.logs (h : t.Accepts past round d)
    (hP : ∀ a, P (.access a) ↔ a.InRange) (htaken : P (.taken i) ↔ t.Matches d) (hfull : t.Full)
    (fuel : Nat) (M : HitMap F) : Logs P (HitMap.parseEntry (HitMap.read fuel) round t i d) M := by
  refine (logs_parseEntry_iff hP hfull).mpr ⟨h.crate, fun s hs => ⟨h.chan s hs, fun hecal => ?_⟩⟩
  obtain ⟨hknown, hsamples⟩ := h.ecal s hs hecal
  exact ⟨htaken.mpr ⟨hknown, Option.isSome_iff_exists.mpr ⟨s, hs⟩, h.chan s hs⟩,
    hsamples.recorded fuel _⟩

theorem accepts_of (past : Nat → UInt16) (hP : ∀ a, P (.access a) ↔ a.InRange)
    (htaken : P (.taken i) ↔ t.Matches d) (hfull : t.Full) (F₀ : Nat)
    (h : ∀ fuel ≥ F₀, ∃ M, Logs P (HitMap.parseEntry (HitMap.read fuel) round t i d) M) :
    t.Accepts past round d := by
  have hentry := fun fuel hfuel =>
    (h fuel hfuel).imp fun M hM => (logs_parseEntry_iff hP hfull).mp hM
  obtain ⟨-, hcrate, hslot⟩ := hentry F₀ le_rfl
  refine ⟨hcrate, fun s hs => (hslot s hs).1, fun s hs hecal => ⟨?_, ?_⟩⟩
  · exact (htaken.mp ((hslot s hs).2 hecal).1).1
  · refine FADCdata.samplesRecorded_of past (round (s.gain.getD d.chan.toNat 0)) F₀
      fun fuel hfuel => ?_
    obtain ⟨-, -, hslot⟩ := hentry fuel hfuel
    exact ((hslot s hs).2 hecal).2

theorem TriggerConfig.Accepts.exists_returns (h : t.Accepts past round d) (hfull : t.Full)
    (hstalls : ¬t.Stalls past round d) (i : Nat) :
    ∃ F₀, ∀ fuel ≥ F₀, ∀ M : HitMap F,
      ∃ M', Returns (HitMap.parseEntry (HitMap.read fuel) round t i d) M () M' := by
  suffices hcall : ∃ F₀, ∀ fuel ≥ F₀, ∀ s, t.slotOf d = some s → s.IsEcal d →
      ∃ hits, Returns (s.readHits round fuel d) () hits () by
    obtain ⟨F₀, hF₀⟩ := hcall
    refine ⟨F₀, fun fuel hfuel M => ?_⟩
    exact (exists_returns_parseEntry_iff hfull h.crate h.chan).mpr (hF₀ fuel hfuel)
  by_cases hs : ∃ s, t.slotOf d = some s ∧ s.IsEcal d
  · obtain ⟨s, hs, hecal⟩ := hs
    obtain ⟨F₀, hF₀⟩ := (h.ecal s hs hecal).2.within (fun hst => hstalls ⟨s, hs, hecal, hst⟩)
      (round (s.gain.getD d.chan.toNat 0))
    refine ⟨F₀, fun fuel hfuel s' hs' _ => ?_⟩
    cases Option.some.inj (hs.symm.trans hs')
    obtain ⟨hits, hhits⟩ := hF₀ fuel hfuel
    exact ⟨hits, hhits.1⟩
  · exact ⟨0, fun _ _ s hs' hecal => (hs ⟨s, hs', hecal⟩).elim⟩

theorem TriggerConfig.Accepts.not_stalls (h : t.Accepts past round d) (hfull : t.Full)
    (hret : Returns (HitMap.parseEntry (HitMap.read fuel) round t i d) M () M') :
    ¬t.Stalls past round d := by
  rintro ⟨s, hs, hecal, hst⟩
  obtain ⟨hits, hhits⟩ :=
    (exists_returns_parseEntry_iff hfull h.crate h.chan).mp ⟨M', hret⟩ s hs hecal
  exact FADCdata.not_stalls ⟨hhits, (h.ecal s hs hecal).2.recorded fuel _⟩ hst

/-- Every entry is accepted, up to one that is never left. -/
def TriggerConfig.AcceptsAll (t : TriggerConfig) (past : Nat → UInt16) (round : Rat → F)
    (data : List FADCdata) : Prop :=
  ∀ i d, data[i]? = some d → (∀ e ∈ data.take i, ¬t.Stalls past round e) → t.Accepts past round d

omit [Sub F] [Mul F] in
theorem acceptsAll_cons_iff : t.AcceptsAll past round (d :: data) ↔
    t.Accepts past round d ∧ (¬t.Stalls past round d → t.AcceptsAll past round data) := by
  constructor
  · intro h
    refine ⟨h 0 d rfl nofun, fun hd i e he hbefore => h (i + 1) e he ?_⟩
    rw [List.take_succ_cons, List.forall_mem_cons]
    exact ⟨hd, hbefore⟩
  · rintro ⟨hd, hrest⟩ i e he hbefore
    cases i with
    | zero => exact Option.some.inj he ▸ hd
    | succ i =>
      rw [List.take_succ_cons, List.forall_mem_cons] at hbefore
      exact hrest hbefore.1 i e he hbefore.2

theorem TriggerConfig.AcceptsAll.logs (h : t.AcceptsAll past round data)
    (hP : ∀ a, P (.access a) ↔ a.InRange) {n : Nat}
    (htaken : ∀ i d, data[i]? = some d → (P (.taken (n + i)) ↔ t.Matches d)) (hfull : t.Full)
    (fuel : Nat) (M : HitMap F) :
    Logs P (HitMap.parseEntries (HitMap.read fuel) round t n data) M := by
  induction data generalizing n M with
  | nil => exact logs_pure
  | cons d data ih =>
    obtain ⟨hd, hrest⟩ := acceptsAll_cons_iff.mp h
    refine (hd.logs hP (htaken 0 d rfl) hfull fuel M).bind fun _ M' hret => ?_
    refine ih (hrest (hd.not_stalls hfull hret)) (fun i e he => ?_) M'
    rw [show n + 1 + i = n + (i + 1) by omega]
    exact htaken (i + 1) e he

theorem acceptsAll_of (past : Nat → UInt16) (hP : ∀ a, P (.access a) ↔ a.InRange) {n : Nat}
    (htaken : ∀ i d, data[i]? = some d → (P (.taken (n + i)) ↔ t.Matches d)) (hfull : t.Full)
    (F₀ : Nat) (h : ∀ fuel ≥ F₀, ∃ M,
      Logs P (HitMap.parseEntries (HitMap.read fuel) round t n data) M) :
    t.AcceptsAll past round data := by
  induction data generalizing n F₀ with
  | nil => exact fun _ _ he => nomatch he
  | cons d data ih =>
    have hd : t.Accepts past round d := accepts_of past hP (htaken 0 d rfl) hfull F₀
      fun fuel hfuel =>
      (h fuel hfuel).imp fun M hM => (logs_bind.mp hM).1
    refine acceptsAll_cons_iff.mpr ⟨hd, fun hstalls => ?_⟩
    obtain ⟨F₁, hF₁⟩ := hd.exists_returns hfull hstalls n
    refine ih (n := n + 1) (fun i e he => ?_) (max F₀ F₁) fun fuel hfuel => ?_
    · rw [show n + 1 + i = n + (i + 1) by omega]
      exact htaken (i + 1) e he
    · obtain ⟨M, hM⟩ := h fuel (le_of_max_le_left hfuel)
      obtain ⟨M', hret⟩ := hF₁ fuel (le_of_max_le_right hfuel) M
      exact ⟨M', (logs_bind.mp hM).2 () M' hret⟩

/-- Only existing crates, channels and samples are used, and all other entries are skipped,
exactly when every entry is accepted up to one that is never left. -/
theorem Parse_indices_iff (past : Nat → UInt16) (round : Rat → F) (t : TriggerConfig)
    (hfull : t.Full) (data : List FADCdata) :
    (∀ fuel M, Logs (EcalObs.Allowed t data) (HitMap.Parse (HitMap.read fuel) round t data) M) ↔
      t.AcceptsAll past round data := by
  have htaken : ∀ i d, data[i]? = some d →
      ((EcalObs.taken (0 + i)).Allowed t data ↔ t.Matches d) := by
    intro i d hd
    simp [EcalObs.Allowed, hd]
  have hclear (fuel : Nat) (M : HitMap F) :
      Logs (EcalObs.Allowed t data) (HitMap.Parse (HitMap.read fuel) round t data) M ↔
        Logs (EcalObs.Allowed t data) (HitMap.parseEntries (HitMap.read fuel) round t 0 data)
          fun _ => none := by
    rw [HitMap.Parse, Logs, modify_bind_apply, Logs]
  simp only [hclear]
  constructor
  · exact fun h => acceptsAll_of past (fun _ => Iff.rfl) htaken hfull 0
      fun fuel _ => ⟨_, h fuel fun _ => none⟩
  · exact fun h fuel _ => h.logs (fun _ => Iff.rfl) htaken hfull fuel _

end Entries

def behindCrates : List FADCdata := [{ crate := 3 }]

def threeCrates : TriggerConfig := { crates := [{}, {}, {}] }

theorem full_threeCrates : threeCrates.Full := by
  intro c k s hs
  have hnone : (threeCrates.crates.getD c {}).slots = fun _ => none := by
    rcases c with _ | _ | _ | c <;> rfl
  rw [hnone] at hs
  cases hs

theorem Parse_indices_behindCrates : 0 < threeCrates.crates.length ∧ threeCrates.Full ∧
    ¬∀ fuel M, Logs (EcalObs.Allowed threeCrates behindCrates)
      (HitMap.Parse (HitMap.read (F := Rat) fuel) id threeCrates behindCrates) M := by
  refine ⟨by decide, full_threeCrates, fun h => ?_⟩
  have hlt : (⟨3, 3⟩ : Access).InRange := h 0 (fun _ => none) (.access ⟨3, 3⟩) (by decide +kernel)
  exact absurd hlt (by decide)

theorem settings_hitMapEntries : ∀ d ∈ hitMapEntries, ∃ s ∈ windowed.slotOf d,
    s.threshold.getD d.chan.toNat 0 = 0 ∧ s.pedestal.getD d.chan.toNat 0 = 0 ∧ s.NSA = 8 ∧
      s.npeak = 0 := by
  decide +kernel

theorem windows_hitMapEntries : ∀ d ∈ hitMapEntries,
    ∃ cs ∈ d.thresholdCrossings (F := Rat) (fun _ => 0) 8
      (((0 : Int) : Rat) + d.pedestalOf (fun _ => 0) 0) 8 0,
      ∀ c ∈ cs, d.windowStop 8 c < d.samples.length := by
  decide +kernel

theorem samples_hitMapEntries : ∀ d ∈ hitMapEntries, ∀ NSB,
    d.SamplesRecorded (fun _ => 0) ((0 : Int) : Rat) 0 NSB 8 0 := by
  intro d hd NSB
  have hlength : ∀ d ∈ hitMapEntries, 4 ≤ d.samples.length := by decide
  refine .inr ⟨⟨fun _ => hlength d hd, by have := hlength d hd; omega⟩, fun h4 cs hcs c hc => ?_⟩
  obtain ⟨cs', hcs', hstop⟩ := windows_hitMapEntries d hd
  obtain ⟨fuel, hfuel⟩ := (FADCdata.collects_iff h4).mpr hcs
  obtain rfl : cs = cs' := FADCdata.search_unique hfuel hcs'
  exact .inr (.inl (hstop c hc))

theorem Parse_indices_hitMapEntries : windowed.Full ∧ ∀ fuel M,
    Logs (EcalObs.Allowed windowed hitMapEntries)
      (HitMap.Parse (HitMap.read (F := Rat) fuel) id windowed hitMapEntries) M := by
  refine ⟨full_windowed,
    (Parse_indices_iff (fun _ => 0) id windowed full_windowed hitMapEntries).mpr ?_⟩
  intro i d hd _
  have hmem := List.mem_of_getElem? hd
  have hentries : ∀ d ∈ hitMapEntries, (d.crate = 37 ∨ d.crate = 39) ∧ d.chan = 12 := by decide
  obtain ⟨hcrate, hchan⟩ := hentries d hmem
  have hnum : windowed.GetCrateNum d.crate < 3 := by
    unfold GetCrateNum
    obtain h | h := hcrate <;> rw [h] <;> decide
  refine ⟨hnum.trans_le mapped_windowed.carriesMap.length, fun s _ => ?_,
    fun s hs _ => ⟨hcrate.imp_right .inl, ?_⟩⟩
  · rw [hchan]
    decide
  · obtain ⟨s', hs', hthreshold, hpedestal, hNSA, hnpeak⟩ := settings_hitMapEntries d hmem
    obtain rfl := Option.some.inj (hs.symm.trans hs')
    rw [hthreshold, hpedestal, hNSA, hnpeak]
    exact samples_hitMapEntries d hmem s.NSB

end EvioTool
