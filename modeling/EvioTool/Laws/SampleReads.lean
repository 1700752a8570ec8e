import EvioTool.Laws.Windows

namespace EvioTool

open Lib Exec

namespace FADCdata

variable {d : FADCdata} {α β : Type} {i k : Nat} {cs r : List Nat}

def Within (d : FADCdata) (m : Exec Halt Nat Unit α) (a : α) : Prop :=
  Runs (fun i => i < d.samples.length) m () a ()

theorem within_pure_iff {a b : α} : d.Within (pure a) b ↔ b = a := by
  simp [Within]

theorem Within.bind_iff {m : Exec Halt Nat Unit α} {f : α → Exec Halt Nat Unit β} {a : α} {b : β}
    (h : d.Within m a) : d.Within (m >>= f) b ↔ d.Within (f a) b := by
  rw [Within, runs_bind]
  constructor
  · rintro ⟨a', _, hm, hf⟩
    rwa [(h.det hm).1] at hf
  · exact fun hf => ⟨a, (), h, hf⟩

theorem within_bind {m : Exec Halt Nat Unit α} {f : α → Exec Halt Nat Unit β} {b : β}
    (h : d.Within (m >>= f) b) : ∃ a, d.Within m a := by
  obtain ⟨a, _, hm, -⟩ := runs_bind.mp h
  exact ⟨a, hm⟩

theorem within_readSample (past : Nat → UInt16) (h : i < d.samples.length) :
    d.Within (d.readSample i) (d.sample past i) := by
  have hget : d.samples[i]? = some d.samples[i] := List.getElem?_eq_getElem h
  have hsample : d.sample past i = d.samples[i].toNat := by
    rw [sample, List.getD_eq_getElem?_getD, hget]
    rfl
  rw [hsample, Within, readSample, hget]
  exact runs_bind.mpr ⟨(), (), runs_tell.mpr ⟨h, rfl⟩, runs_demand.mpr ⟨rfl, rfl⟩⟩

theorem lt_of_within {x : Int} (h : d.Within (d.readSample i) x) : i < d.samples.length := by
  obtain ⟨_, _, ht, -⟩ := runs_bind.mp h
  exact (runs_tell.mp ht).1

theorem within_each_iff {f : α → Exec Halt Nat Unit β} {g : α → β} {P : α → Prop} {as : List α}
    {bs : List β} (h : ∀ a ∈ as, ∀ b, d.Within (f a) b ↔ b = g a ∧ P a) :
    d.Within (each f as) bs ↔ bs = as.map g ∧ ∀ a ∈ as, P a := by
  induction as generalizing bs with
  | nil => simp [each, within_pure_iff]
  | cons a as ih =>
    have ha := h a List.mem_cons_self
    have has := fun a' ha' => h a' (List.mem_cons_of_mem _ ha')
    rw [each, List.map_cons, List.forall_mem_cons]
    constructor
    · intro hw
      obtain ⟨b, hb⟩ := within_bind hw
      obtain ⟨rfl, hP⟩ := (ha b).mp hb
      rw [hb.bind_iff] at hw
      obtain ⟨bs', hbs⟩ := within_bind hw
      obtain ⟨rfl, hPs⟩ := (ih has).mp hbs
      rw [hbs.bind_iff, within_pure_iff] at hw
      exact ⟨hw, hP, hPs⟩
    · rintro ⟨rfl, hP, hPs⟩
      have hb := (ha (g a)).mpr ⟨rfl, hP⟩
      have hbs := (ih has).mpr ⟨rfl, hPs⟩
      rw [hb.bind_iff, hbs.bind_iff, within_pure_iff]

theorem within_readScan (past : Nat → UInt16) {is : List Nat}
    (his : ∀ i ∈ is, i < d.samples.length)
    (acc : Int × Int × Int) :
    d.Within (d.readScan is acc) (scan (d.sample past) is acc) := by
  induction is generalizing acc with
  | nil => exact within_pure_iff.mpr rfl
  | cons i is ih =>
    obtain ⟨hi, his⟩ := List.forall_mem_cons.mp his
    obtain ⟨adc, max, loc⟩ := acc
    rw [readScan, scan, (within_readSample past hi).bind_iff]
    split
    · exact ih his _
    · exact ih his _

section

variable {F : Type} [IntCast F]

theorem within_readPedestal [Div F] [LE F] [DecidableLE F] (past : Nat → UInt16)
    (pedestal : F) (hd : N_PEDESTAL ≤ d.samples.length) :
    d.Within (d.readPedestal pedestal) (d.pedestalOf past pedestal) := by
  rw [readPedestal, pedestalOf]
  split
  · have hsample (j : Nat) (hj : j ∈ List.range N_PEDESTAL) (x : Int) :
        d.Within (d.readSample j) x ↔ x = d.sample past j ∧ True := by
      have hw := within_readSample past ((List.mem_range.mp hj).trans_le hd)
      constructor
      · exact fun h => ⟨(hw.det h).1, trivial⟩
      · rintro ⟨rfl, -⟩
        exact hw
    have heach := (within_each_iff hsample).mpr ⟨rfl, fun _ _ => trivial⟩
    rw [heach.bind_iff, within_pure_iff]
  · rw [within_pure_iff]

variable [LT F] [DecidableLT F] {thr half : F} {NSA npeak : Int} {a n : Nat}

theorem within_readCrosses (past : Nat → UInt16) (thr : F) (h : i < d.samples.length) :
    d.Within (d.readCrosses thr i) (decide (Crosses (d.sample past) thr i)) := by
  rw [readCrosses, (within_readSample past h).bind_iff]
  by_cases hthr : (d.sample past i : F) > thr
  · rw [if_pos hthr, (within_readSample past (show i - 1 < d.samples.length by omega)).bind_iff,
      within_pure_iff]
    simp [Crosses, hthr]
  · rw [if_neg hthr, within_pure_iff]
    simp [Crosses, hthr]

theorem within_readSearch_iff (past : Nat → UInt16) :
    d.Within (d.readSearch thr NSA npeak k i cs) r ↔
      search (d.sample past) d.samples.length thr NSA npeak k i cs = some r := by
  induction k generalizing i cs with
  | zero =>
    rw [readSearch, search]
    exact iff_of_false runs_halt (Option.some_ne_none r).symm
  | succ k ih =>
    rw [readSearch, search]
    by_cases hi : i < d.samples.length
    · rw [if_pos hi, if_pos hi, (within_readCrosses past thr hi).bind_iff]
      by_cases hc : Crosses (d.sample past) thr i
      · rw [if_pos hc, if_pos (decide_eq_true hc)]
        dsimp only
        split
        · rw [within_pure_iff, Option.some.injEq, eq_comm]
        · exact ih
      · rw [if_neg hc, if_neg (by simpa using hc)]
        exact ih
    · rw [if_neg hi, if_neg hi, within_pure_iff, Option.some.injEq, eq_comm]

def Steps (s : Nat → Int) (half : F) (j : Nat) : Prop :=
  (s (j + 1) : F) > half ∧ (s j : F) < half

instance (s : Nat → Int) (half : F) : DecidablePred (Steps s half) :=
  fun _ => inferInstanceAs (Decidable (_ ∧ _))

def stepAt (s : Nat → Int) (half : F) (is : List Nat) : Option (Nat × Int × Int) :=
  (is.find? fun i => (s (i + 1) : F) > half ∧ (s i : F) < half).map fun i => (i, s i, s (i + 1))

theorem within_readHalf_cons (past : Nat → UInt16) {is : List Nat} {x : Option (Nat × Int × Int)}
    (hnext : a + 1 < d.samples.length) :
    d.Within (d.readHalf half (a :: is)) x ↔
      if Steps (d.sample past) half a then x = some (a, d.sample past a, d.sample past (a + 1))
      else d.Within (d.readHalf half is) x := by
  rw [readHalf, (within_readSample past hnext).bind_iff]
  by_cases hgt : (d.sample past (a + 1) : F) > half
  · rw [if_pos hgt, (within_readSample past (show a < d.samples.length by omega)).bind_iff]
    by_cases hlt : (d.sample past a : F) < half
    · rw [if_pos hlt, if_pos ⟨hgt, hlt⟩, within_pure_iff]
    · rw [if_neg hlt, if_neg fun hs => hlt hs.2]
  · rw [if_neg hgt, if_neg fun hs => hgt hs.1]

theorem within_readHalf_iff (past : Nat → UInt16) {x : Option (Nat × Int × Int)}
    (h : a + n ≤ d.samples.length) :
    d.Within (d.readHalf half (List.range' a n)) x ↔
      x = stepAt (d.sample past) half (List.range' a n) ∧
        (n = 0 ∨ a + n < d.samples.length ∨
          ∃ j, a ≤ j ∧ j + 1 < a + n ∧ Steps (d.sample past) half j) := by
  induction n generalizing a with
  | zero => simp [readHalf, within_pure_iff, stepAt]
  | succ n ih =>
    rw [List.range'_succ]
    by_cases hnext : a + 1 < d.samples.length
    · rw [within_readHalf_cons past hnext]
      by_cases hs : Steps (d.sample past) half a
      · have hstep : stepAt (d.sample past) half (a :: List.range' (a + 1) n) =
            some (a, d.sample past a, d.sample past (a + 1)) := by
          rw [stepAt, List.find?_cons_of_pos (by simpa [Steps] using hs), Option.map_some]
        rw [if_pos hs, hstep, iff_self_and]
        intro _
        by_cases hn : n = 0
        · exact .inr (.inl (by omega))
        · exact .inr (.inr ⟨a, le_rfl, by omega, hs⟩)
      · have hstep : stepAt (d.sample past) half (a :: List.range' (a + 1) n) =
            stepAt (d.sample past) half (List.range' (a + 1) n) := by
          rw [stepAt, List.find?_cons_of_neg (by simpa [Steps] using hs), stepAt]
        rw [if_neg hs, hstep, ih (by omega)]
        refine and_congr_right fun _ => ?_
        constructor
        · rintro (rfl | hlt | ⟨j, hj, hjn, hsj⟩)
          · exact .inr (.inl hnext)
          · exact .inr (.inl (by omega))
          · exact .inr (.inr ⟨j, by omega, by omega, hsj⟩)
        · rintro (hzero | hlt | ⟨j, hj, hjn, hsj⟩)
          · cases hzero
          · exact .inr (.inl (by omega))
          · have hne : a ≠ j := by
              rintro rfl
              exact hs hsj
            exact .inr (.inr ⟨j, by omega, by omega, hsj⟩)
    · refine iff_of_false (fun hw => ?_) ?_
      · rw [readHalf] at hw
        obtain ⟨x, hx⟩ := within_bind hw
        exact hnext (lt_of_within hx)
      · rintro ⟨-, hzero | hlt | ⟨j, hj, hjn, -⟩⟩
        · cases hzero
        · omega
        · omega

theorem within_readWindow_iff (past : Nat → UInt16) (half : F) {b : Nat}
    {x : Option (Nat × Int × Int)} (hab : a < b) (hb : b ≤ d.samples.length) :
    d.Within (d.readHalf half (indices a b)) x ↔
      x = stepAt (d.sample past) half (indices a b) ∧
        (b < d.samples.length ∨ ∃ j, a ≤ j ∧ j + 1 < b ∧ Steps (d.sample past) half j) := by
  have hlen : a + (b - a) = b := by omega
  have hne : b - a ≠ 0 := by omega
  rw [indices_eq, within_readHalf_iff past (by omega), hlen, or_iff_right hne]

end

section

variable {F : Type} [Add F] [Sub F] [Mul F] [Div F] [IntCast F] [LT F] [DecidableLT F]
variable {past : Nat → UInt16} {thres pedestal thr half gain : F} {NSB NSA npeak : Int}
  {a b c fuel : Nat} {hit : FADC_Hit F} {hits : List (FADC_Hit F)}

/-- The window ends before the samples do, or the waveform steps over the half maximum in it. -/
def HalfInRange (d : FADCdata) (past : Nat → UInt16) (pedestal : F) (NSB NSA : Int) (c : Nat) :
    Prop :=
  d.windowStop NSA c < d.samples.length ∨
    ∃ M : Int, IsGreatest (d.sample past '' Set.Ico (windowStart NSB c) (d.windowStop NSA c)) M ∧
      ∃ j, windowStart NSB c ≤ j ∧ j + 1 < d.windowStop NSA c ∧
        Steps (d.sample past) (((M : F) + pedestal) / ((2 : Int) : F)) j

theorem within_readHit_iff (hNSB : 0 ≤ NSB) (hNSA : 4 ≤ NSA) (hc : c < d.samples.length) :
    d.Within (d.readHit pedestal NSB NSA gain c) hit ↔
      hit = d.hitAt past pedestal NSB NSA gain c ∧ HalfInRange d past pedestal NSB NSA c := by
  have hac := windowStart_le NSB c
  have hcb := lt_windowStop hNSA hc
  have hbd : d.windowStop NSA c ≤ d.samples.length := Nat.min_le_right _ _
  have hgreatest := d.isGreatest_scan past hac hcb
  have hin : ∀ i ∈ indices (windowStart NSB c) (d.windowStop NSA c), i < d.samples.length :=
    fun i hi => (mem_indices.mp hi).2.trans_le hbd
  have hscan := d.within_readScan past hin (0, 0, -1)
  unfold readHit hitAt HalfInRange
  simp only [start_eq hNSB, stop_eq (d := d) (c := c) (show 0 ≤ NSA by omega)]
  rw [hscan.bind_iff]
  clear hscan
  generalize scan (d.sample past) (indices (windowStart NSB c) (d.windowStop NSA c)) (0, 0, -1) = m
    at hgreatest ⊢
  obtain ⟨adc, max, loc⟩ := m
  dsimp only at hgreatest ⊢
  have hmax (P : Int → Prop) : (∃ M, IsGreatest (d.sample past ''
      Set.Ico (windowStart NSB c) (d.windowStop NSA c)) M ∧ P M) ↔ P max := by
    constructor
    · rintro ⟨M, hM, hP⟩
      rwa [← hM.unique hgreatest]
    · exact fun hP => ⟨max, hgreatest, hP⟩
  rw [hmax]
  generalize ((max : F) + pedestal) / ((2 : Int) : F) = half
  have hhalf (x : Option (Nat × Int × Int)) := d.within_readWindow_iff past half (x := x)
    (hac.trans_lt hcb) hbd
  constructor
  · intro hw
    obtain ⟨x, hx⟩ := within_bind hw
    obtain ⟨rfl, hcond⟩ := (hhalf x).mp hx
    rw [hx.bind_iff, within_pure_iff] at hw
    refine ⟨hw.trans ?_, hcond⟩
    rw [stepAt]
    cases List.find? _ (indices _ _) <;> rfl
  · rintro ⟨rfl, hcond⟩
    rw [((hhalf _).mpr ⟨rfl, hcond⟩).bind_iff, within_pure_iff, stepAt]
    cases List.find? _ (indices _ _) <;> rfl

variable [LE F] [DecidableLE F]

theorem within_readMode7fast_iff (past : Nat → UInt16) (gain : F) (hd : N_PEDESTAL ≤ d.samples.length) (hNSB : 0 ≤ NSB)
    (hNSA : 4 ≤ NSA) :
    d.Within (d.readMode7fast fuel thres pedestal NSB NSA npeak gain) hits ↔
      ∃ cs, d.thresholdCrossings past fuel (thres + d.pedestalOf past pedestal) NSA npeak = some cs ∧
        hits = cs.map (d.hitAt past (d.pedestalOf past pedestal) NSB NSA gain) ∧
        ∀ c ∈ cs, HalfInRange d past (d.pedestalOf past pedestal) NSB NSA c := by
  have hn : ¬NSA ≤ 0 := by omega
  have hlen : 0 < d.samples.length := lt_of_lt_of_le (by decide) hd
  rw [readMode7fast, if_neg hn, (within_readPedestal past pedestal hd).bind_iff,
    (within_readSample past hlen).bind_iff]
  have heach (cs : List Nat)
      (hcs : d.thresholdCrossings past fuel (thres + d.pedestalOf past pedestal) NSA npeak = some cs) :
      d.Within (each (d.readHit (d.pedestalOf past pedestal) NSB NSA gain) cs) hits ↔
        hits = cs.map (d.hitAt past (d.pedestalOf past pedestal) NSB NSA gain) ∧
          ∀ c ∈ cs, HalfInRange d past (d.pedestalOf past pedestal) NSB NSA c := by
    refine within_each_iff fun c hc hit => within_readHit_iff hNSB hNSA ?_
    exact lt_of_collects hNSA ⟨fuel, hcs⟩ hlen hc
  constructor
  · intro hw
    obtain ⟨cs, hsearch⟩ := within_bind hw
    rw [hsearch.bind_iff] at hw
    have hcs := (within_readSearch_iff past).mp hsearch
    exact ⟨cs, hcs, (heach cs hcs).mp hw⟩
  · rintro ⟨cs, hcs, hall⟩
    have hsearch := (within_readSearch_iff past).mpr hcs
    rw [firstCrossings] at hsearch
    rw [hsearch.bind_iff]
    exact (heach cs hcs).mpr hall

/-- A run reads recorded samples only, so that what follows them does not change the hits. -/
def ReadsRecorded (d : FADCdata) (thres pedestal : F) (NSB NSA npeak : Int) (gain : F) : Prop :=
  ∃ fuel hits, d.Within (d.readMode7fast fuel thres pedestal NSB NSA npeak gain) hits ∧
    ∀ past, Mode7 d past thres pedestal NSB NSA npeak gain hits

/-- Only recorded samples are read exactly when each window ends before the samples do, or has
the step over its half maximum before the last sample. -/
theorem computeMode7fast_reads_iff (d : FADCdata) (past : Nat → UInt16) (thres pedestal : F)
    (NSB NSA npeak : Int) (gain : F) (hd : N_PEDESTAL ≤ d.samples.length) (hNSB : 0 ≤ NSB)
    (hNSA : 4 ≤ NSA) :
    ReadsRecorded d thres pedestal NSB NSA npeak gain ↔
      ∀ cs, Pulses d past (thres + d.pedestalOf past pedestal) NSA npeak cs →
        ∀ c ∈ cs, HalfInRange d past (d.pedestalOf past pedestal) NSB NSA c := by
  constructor
  · rintro ⟨fuel, hits, hw, -⟩ cs hcs
    obtain ⟨cs', hcs', -, hall⟩ := (within_readMode7fast_iff past gain hd hNSB hNSA).mp hw
    obtain rfl := ((collects_iff hNSA).mpr hcs).unique ⟨fuel, hcs'⟩
    exact hall
  · intro h
    obtain ⟨l, -, hall⟩ := exists_scan d past (thres + d.pedestalOf past pedestal) hNSA
    obtain ⟨fuel, hcs⟩ := hall npeak
    have hall := h _ ((collects_iff hNSA).mp ⟨fuel, hcs⟩)
    have hw := (within_readMode7fast_iff past gain hd hNSB hNSA).mpr ⟨_, hcs, rfl, hall⟩
    refine ⟨fuel, _, hw, fun past' => ?_⟩
    obtain ⟨cs', hcs', hhits, -⟩ := (within_readMode7fast_iff past' gain hd hNSB hNSA).mp hw
    exact (mode7_iff (by omega)).mpr ⟨cs', ⟨fuel, hcs'⟩, hhits⟩

theorem onePulse_readsRecorded : ReadsRecorded onePulse (5 : Rat) 1 5 4 0 1 := by
  apply (computeMode7fast_reads_iff onePulse (fun _ => 0) 5 1 5 4 0 1 (by decide) (by decide)
    (by decide)).mpr
  intro cs hcs c hc
  have hone : Collects onePulse (fun _ => 0)
      ((5 : Rat) + onePulse.pedestalOf (fun _ => 0) 1) 4 0 [4] := ⟨9, by decide +kernel⟩
  obtain rfl := ((collects_iff le_rfl).mpr hcs).unique hone
  obtain rfl := List.mem_singleton.mp hc
  exact .inl (by decide)

def plateau : FADCdata := { samples := [9, 9, 9, 9] }

theorem plateau_reads_past : N_PEDESTAL ≤ plateau.samples.length ∧ (0 : Int) ≤ 5 ∧ (4 : Int) ≤ 16 ∧
    4 ∈ (plateau.readMode7fast 9 (5 : Rat) 1 5 16 0 1 ()).log ∧
    ¬ReadsRecorded plateau (5 : Rat) 1 5 16 0 1 := by
  refine ⟨by decide, by decide, by decide, by decide +kernel, ?_⟩
  rintro ⟨fuel, hits, hw, -⟩
  obtain ⟨cs, hcs, -, hrange⟩ := (within_readMode7fast_iff (fun _ => 0) 1 (by decide) (by decide)
    (by decide)).mp hw
  have hfirst : Collects plateau (fun _ => 0)
      ((5 : Rat) + plateau.pedestalOf (fun _ => 0) 1) 16 0 [0] := ⟨9, by decide +kernel⟩
  obtain rfl := hfirst.unique ⟨fuel, hcs⟩
  rcases hrange 0 List.mem_cons_self with hlt | ⟨M, -, j, -, hj, hstep⟩
  · exact absurd hlt (by decide)
  · have hnine : ∀ i < 4, (plateau.sample (fun _ => 0) i : Rat) = 9 := by decide +kernel
    have hj4 : j + 1 < 4 := hj.trans_le (by decide)
    have hgt := hstep.1
    have hlt := hstep.2
    rw [hnine _ hj4] at hgt
    rw [hnine _ (by omega)] at hlt
    exact lt_asymm hgt hlt

end

end FADCdata

end EvioTool
