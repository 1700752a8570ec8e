import EvioTool.Lib.DeadTime
import EvioTool.Defs.Mode7

namespace EvioTool

open Lib

namespace FADCdata

def window (NSA : Int) : Nat := (NSA.tdiv 4).toNat

/-- What of the crossings `l` the search collects when it has `found` already. -/
def allowed (npeak : Int) (found : Nat) (l : List Nat) : List Nat :=
  if npeak > 0 then l.take (max 1 (npeak.toNat - found)) else l

theorem window_pos_iff {NSA : Int} (h : 0 < NSA) : 0 < window NSA ↔ 4 ≤ NSA := by
  rw [window, Int.tdiv_eq_ediv_of_nonneg (by omega)]
  omega

theorem next_eq {NSA : Int} (h : 0 < NSA) (i : Nat) :
    ((i : Int) + (NSA.tdiv 4 - 1) + 1).toNat = i + window NSA := by
  rw [window, Int.tdiv_eq_ediv_of_nonneg (by omega)]
  omega

@[simp] theorem allowed_nil {npeak : Int} {found : Nat} : allowed npeak found [] = [] := by
  simp [allowed]

theorem allowed_of_nonpos {npeak : Int} {found : Nat} {l : List Nat} (h : npeak ≤ 0) :
    allowed npeak found l = l := if_neg (by omega)

theorem allowed_of_pos {npeak : Int} {found : Nat} {l : List Nat} (h : 0 < npeak) :
    allowed npeak found l = l.take (max 1 (npeak.toNat - found)) := if_pos h

section

variable {F : Type} [IntCast F] [LT F] [DecidableLT F]
variable {s : Nat → Int} {size i c k k' : Nat} {thr : F} {NSA npeak : Int} {l r r' cs : List Nat}

theorem search_stop (h : size ≤ i) : search s size thr NSA npeak (k + 1) i cs = some cs := by
  rw [search, if_neg (by omega)]

theorem search_pass (hi : i < size) (h : ¬Crosses s thr i) :
    search s size thr NSA npeak (k + 1) i cs = search s size thr NSA npeak k (i + 1) cs := by
  rw [search, if_pos hi, if_neg h]

theorem search_last (hi : i < size) (h : Crosses s thr i) (hn : 0 < npeak)
    (hl : npeak ≤ cs.length + 1) :
    search s size thr NSA npeak (k + 1) i cs = some (cs ++ [i]) := by
  have hle : npeak > 0 ∧ ((cs ++ [i]).length : Int) ≥ npeak := ⟨hn, by simpa using hl⟩
  rw [search, if_pos hi, if_pos h]
  exact if_pos hle

theorem search_find (hNSA : 0 < NSA) (hi : i < size) (h : Crosses s thr i)
    (hl : ¬(0 < npeak ∧ npeak ≤ cs.length + 1)) :
    search s size thr NSA npeak (k + 1) i cs =
      search s size thr NSA npeak k (i + window NSA) (cs ++ [i]) := by
  have hle : ¬(npeak > 0 ∧ ((cs ++ [i]).length : Int) ≥ npeak) := by simpa using hl
  rw [search, if_pos hi, if_pos h, ← next_eq hNSA]
  exact if_neg hle

theorem search_mono (h : search s size thr NSA npeak k i cs = some r) (hk : k ≤ k') :
    search s size thr NSA npeak k' i cs = some r := by
  induction k generalizing i cs k' with
  | zero => cases h
  | succ k ih =>
    obtain ⟨k', rfl⟩ := Nat.exists_eq_add_of_le' (show 1 ≤ k' by omega)
    rw [search] at h ⊢
    dsimp only at h ⊢
    split_ifs at h ⊢
    · exact h
    · exact ih h (by omega)
    · exact ih h (by omega)
    · exact h

theorem search_unique (h : search s size thr NSA npeak k i cs = some r)
    (h' : search s size thr NSA npeak k' i cs = some r') : r = r' := by
  have hl := search_mono h (le_max_left k k')
  have hr := search_mono h' (le_max_right k k')
  exact Option.some.inj (hl.symm.trans hr)

theorem searchInt_eq (hsize : size ≤ 2 ^ 30) (hNSA : 0 < NSA) (hmax : NSA < 2 ^ 31)
    (hi : i < 2 ^ 31) :
    searchInt s size thr NSA npeak k i cs = search s size thr NSA npeak k i cs := by
  have htdiv : NSA.tdiv 4 = NSA / 4 := Int.tdiv_eq_ediv_of_nonneg hNSA.le
  induction k generalizing i cs with
  | zero => rfl
  | succ k ih =>
    have hmod : (i : Int) % 2 ^ 64 = i := Int.emod_eq_of_lt (by omega) (by omega)
    rw [searchInt, search, hmod, Int.toNat_natCast]
    by_cases hlt : i < size
    · have hstep : toInt32 (i + 1) = ((i + 1 : Nat) : Int) := toInt32_eq (by omega) (by omega)
      have hskip : toInt32 (i + (NSA.tdiv 4 - 1)) = i + (NSA.tdiv 4 - 1) :=
        toInt32_eq (by omega) (by omega)
      have hnext : toInt32 (i + (NSA.tdiv 4 - 1) + 1) =
          (((i : Int) + (NSA.tdiv 4 - 1) + 1).toNat : Int) := by
        rw [toInt32_eq] <;> omega
      rw [if_pos (Int.ofNat_lt.mpr hlt), if_pos hlt]
      dsimp only
      rw [hstep, hskip, hnext, ih (by omega), ih (by omega)]
    · rw [if_neg (fun h => hlt (Int.ofNat_lt.mp h)), if_neg hlt]

theorem search_of_scan (hNSA : 0 < NSA) (h : Scan (Crosses s thr) size (window NSA) i l) :
    ∃ k, search s size thr NSA npeak k i cs = some (cs ++ allowed npeak cs.length l) := by
  induction h generalizing cs with
  | stop hi => exact ⟨1, by rw [search_stop hi, allowed_nil, List.append_nil]⟩
  | pass hi hc _ ih =>
    obtain ⟨k, hk⟩ := @ih cs
    exact ⟨k + 1, by rw [search_pass hi hc, hk]⟩
  | @find i l hi hc _ ih =>
    by_cases hl : 0 < npeak ∧ npeak ≤ cs.length + 1
    · have hmax : max 1 (npeak.toNat - cs.length) = 1 := by omega
      refine ⟨1, ?_⟩
      rw [search_last hi hc hl.1 hl.2, allowed_of_pos hl.1, hmax, List.take_succ_cons,
        List.take_zero]
    · obtain ⟨k, hk⟩ := @ih (cs ++ [i])
      refine ⟨k + 1, ?_⟩
      rw [search_find hNSA hi hc hl, hk, List.append_assoc, List.length_append]
      congr 2
      by_cases hn : 0 < npeak
      · have hmax : max 1 (npeak.toNat - cs.length) =
            max 1 (npeak.toNat - (cs.length + [i].length)) + 1 := by
          have := not_and.mp hl hn
          simp only [List.length_singleton]
          omega
        rw [allowed_of_pos hn, allowed_of_pos hn, hmax, List.take_succ_cons, List.singleton_append]
      · rw [allowed_of_nonpos (by omega), allowed_of_nonpos (by omega), List.singleton_append]

theorem search_to (h : ∀ j, i ≤ j → j < c → ¬Crosses s thr j) (hi : i ≤ c) (hc : c ≤ size) :
    search s size thr NSA npeak (k + (c - i)) i cs = search s size thr NSA npeak k c cs := by
  induction hn : c - i generalizing i with
  | zero =>
    obtain rfl : i = c := by omega
    rfl
  | succ n ih =>
    have hrest : ∀ j, i + 1 ≤ j → j < c → ¬Crosses s thr j := fun j hj => h j (by omega)
    rw [← Nat.add_assoc, search_pass (by omega) (h i le_rfl (by omega))]
    exact ih hrest (by omega) (by omega)

theorem search_stalls (hNSA : 0 < NSA) (hw : window NSA = 0) (hi : i < size)
    (hc : Crosses s thr i) (hn : npeak ≤ 0) : search s size thr NSA npeak k i cs = none := by
  induction k generalizing cs with
  | zero => rfl
  | succ k ih =>
    rw [search_find hNSA hi hc (by omega), hw]
    exact ih

theorem search_repeats (cs) (hNSA : 0 < NSA) (hw : window NSA = 0) (hi : i < size)
    (hc : Crosses s thr i) (hn : 0 < npeak) :
    ∃ k, search s size thr NSA npeak k i cs =
      some (cs ++ List.replicate (max 1 (npeak.toNat - cs.length)) i) := by
  induction hm : npeak.toNat - cs.length generalizing cs with
  | zero => exact ⟨1, search_last hi hc hn (by omega)⟩
  | succ m ih =>
    by_cases hl : npeak ≤ cs.length + 1
    · have hmax : max 1 (m + 1) = 1 := by omega
      exact ⟨1, by rw [search_last hi hc hn hl, hmax, List.replicate_one]⟩
    · have hlen : npeak.toNat - (cs ++ [i]).length = m := by
        simp only [List.length_append, List.length_singleton]
        omega
      obtain ⟨k, hk⟩ := ih _ hlen
      have hmax : max 1 (m + 1) = max 1 m + 1 := by omega
      refine ⟨k + 1, ?_⟩
      rw [search_find hNSA hi hc (by omega), hw, Nat.add_zero, hk, hmax, List.replicate_succ,
        List.append_assoc, List.singleton_append]

variable {d : FADCdata} {past : Nat → UInt16}

def Collects (d : FADCdata) (past : Nat → UInt16) (thr : F) (NSA npeak : Int) (cs : List Nat) :
    Prop := ∃ fuel, d.thresholdCrossings past fuel thr NSA npeak = some cs

theorem Collects.unique {cs' : List Nat} (h : Collects d past thr NSA npeak cs)
    (h' : Collects d past thr NSA npeak cs') : cs = cs' := by
  obtain ⟨fuel, h⟩ := h
  obtain ⟨fuel', h'⟩ := h'
  exact search_unique h h'

theorem collects_of_scan (hNSA : 0 < NSA)
    (h : Scan (Crosses (d.sample past) thr) d.samples.length (window NSA) 1 l) :
    Collects d past thr NSA npeak (firstCrossings (d.sample past) thr ++
      allowed npeak (firstCrossings (d.sample past) thr).length l) := search_of_scan hNSA h

theorem exists_scan (d : FADCdata) (past : Nat → UInt16) (thr : F) (hNSA : 4 ≤ NSA) :
    ∃ l, Scan (Crosses (d.sample past) thr) d.samples.length (window NSA) 1 l ∧
      ∀ npeak, Collects d past thr NSA npeak (firstCrossings (d.sample past) thr ++
        allowed npeak (firstCrossings (d.sample past) thr).length l) := by
  have hpos : 0 < NSA := by omega
  obtain ⟨l, hl⟩ : ∃ l, Scan (Crosses (d.sample past) thr) d.samples.length (window NSA) 1 l :=
    Scan.exists_of_pos ((window_pos_iff hpos).mpr hNSA) 1
  exact ⟨l, hl, fun _ => collects_of_scan hpos hl⟩

theorem firstCrossings_cases (s : Nat → Int) (thr : F) :
    (s 0 : F) > thr ∧ firstCrossings s thr = [0] ∨
      ¬(s 0 : F) > thr ∧ firstCrossings s thr = [] := by
  by_cases h : (s 0 : F) > thr
  · exact .inl ⟨h, if_pos h⟩
  · exact .inr ⟨h, if_neg h⟩

theorem increasing_append {m : List Nat} (hd : 0 < size) (hm : m.Pairwise (· < ·))
    (hb : ∀ c ∈ m, 1 ≤ c ∧ c < size) :
    (firstCrossings s thr ++ m).Pairwise (· < ·) ∧ ∀ c ∈ firstCrossings s thr ++ m, c < size := by
  rcases firstCrossings_cases s thr with ⟨-, hf⟩ | ⟨-, hf⟩ <;> rw [hf]
  · constructor
    · exact .cons (fun c hc => (hb c hc).1) hm
    · intro c hc
      rcases List.mem_cons.mp hc with rfl | hc
      · exact hd
      · exact (hb c hc).2
  · exact ⟨hm, fun c hc => (hb c hc).2⟩

theorem allowed_sublist (npeak : Int) (found : Nat) (l : List Nat) :
    (allowed npeak found l).Sublist l := by
  unfold allowed
  split
  · exact List.take_sublist _ _
  · exact List.Sublist.refl l

theorem take_crossings (hk : 1 ≤ k)
    (h : ¬(k = 1 ∧ (s 0 : F) > thr ∧ l ≠ [])) :
    firstCrossings s thr ++ allowed k (firstCrossings s thr).length l =
      (firstCrossings s thr ++ l).take k := by
  rw [allowed_of_pos (by omega), Int.toNat_natCast]
  rcases firstCrossings_cases s thr with ⟨hfirst, hf⟩ | ⟨-, hf⟩ <;> rw [hf]
  · obtain ⟨k, rfl⟩ := Nat.exists_eq_add_of_le' hk
    rw [List.singleton_append, List.singleton_append, List.take_succ_cons, List.length_singleton,
      Nat.add_sub_cancel]
    cases k with
    | zero =>
      have hnil : l = [] := by
        by_contra hne
        exact h ⟨rfl, hfirst, hne⟩
      simp [hnil]
    | succ k =>
      have hmax : max 1 (k + 1) = k + 1 := by omega
      rw [hmax]
  · have hmax : max 1 (k - ([] : List Nat).length) = k := by
      rw [List.length_nil]
      omega
    rw [hmax, List.nil_append, List.nil_append]

theorem exists_first (h : ∃ i, 1 ≤ i ∧ i < size ∧ Crosses s thr i) :
    ∃ c, 1 ≤ c ∧ c < size ∧ Crosses s thr c ∧ ∀ j, 1 ≤ j → j < c → ¬Crosses s thr j := by
  have hs := Nat.find_spec h
  refine ⟨Nat.find h, hs.1, hs.2.1, hs.2.2, fun j hj hlt hc => ?_⟩
  exact Nat.find_min h hlt ⟨hj, hlt.trans hs.2.1, hc⟩

theorem not_collects (hNSA : 0 < NSA) (hw : window NSA = 0) (hn : npeak ≤ 0)
    (h : ∃ i, 1 ≤ i ∧ i < d.samples.length ∧ Crosses (d.sample past) thr i) :
    ¬Collects d past thr NSA npeak cs := by
  obtain ⟨c, hpos, hlt, hc, hmin⟩ := exists_first h
  rintro ⟨fuel, hf⟩
  have hmore := search_mono hf (Nat.le_add_right fuel (c - 1))
  rw [search_to hmin hpos hlt.le, search_stalls hNSA hw hlt hc hn] at hmore
  cases hmore

theorem collects_repeated (npeak) (hNSA : 0 < NSA) (hw : window NSA = 0) (hn : 0 < npeak)
    (h : ∃ i, 1 ≤ i ∧ i < d.samples.length ∧ Crosses (d.sample past) thr i) :
    ∃ c, 1 ≤ c ∧ c < d.samples.length ∧
      Collects d past thr NSA npeak (firstCrossings (d.sample past) thr ++ List.replicate
        (max 1 (npeak.toNat - (firstCrossings (d.sample past) thr).length)) c) := by
  obtain ⟨c, hpos, hlt, hc, hmin⟩ := exists_first h
  obtain ⟨k, hk⟩ := search_repeats (firstCrossings (d.sample past) thr) hNSA hw hlt hc hn
  exact ⟨c, hpos, hlt, k + (c - 1), (search_to hmin hpos hlt.le).trans hk⟩

end

section

variable {F : Type} [Add F] [Sub F] [Mul F] [Div F] [IntCast F] [LT F] [DecidableLT F] [LE F]
  [DecidableLE F]
variable {d : FADCdata} {past : Nat → UInt16} {thres pedestal gain : F} {NSB NSA npeak : Int}
  {hits hits' : List (FADC_Hit F)}

def Mode7 (d : FADCdata) (past : Nat → UInt16) (thres pedestal : F) (NSB NSA npeak : Int)
    (gain : F) (hits : List (FADC_Hit F)) : Prop :=
  ∃ fuel, d.computeMode7fast past fuel thres pedestal NSB NSA npeak gain = some hits

theorem mode7_iff (h : 0 < NSA) : Mode7 d past thres pedestal NSB NSA npeak gain hits ↔
    ∃ cs, Collects d past (thres + d.pedestalOf past pedestal) NSA npeak cs ∧
      hits = cs.map (d.hitAt past (d.pedestalOf past pedestal) NSB NSA gain) := by
  have hn : ¬NSA ≤ 0 := by omega
  constructor
  · rintro ⟨fuel, hf⟩
    simp only [computeMode7fast, if_neg hn, Option.bind_eq_bind, Option.bind_eq_some_iff,
      Option.some.injEq] at hf
    obtain ⟨cs, hcs, rfl⟩ := hf
    exact ⟨cs, ⟨fuel, hcs⟩, rfl⟩
  · rintro ⟨cs, ⟨fuel, hf⟩, rfl⟩
    refine ⟨fuel, ?_⟩
    simp only [computeMode7fast, if_neg hn, hf, Option.bind_eq_bind, Option.bind_some]

theorem Mode7.unique (hNSA : 0 < NSA) (h : Mode7 d past thres pedestal NSB NSA npeak gain hits)
    (h' : Mode7 d past thres pedestal NSB NSA npeak gain hits') : hits = hits' := by
  obtain ⟨cs, hcs, rfl⟩ := (mode7_iff hNSA).mp h
  obtain ⟨cs', hcs', rfl⟩ := (mode7_iff hNSA).mp h'
  rw [hcs.unique hcs']

/-- The call returns, and its crossings are increasing indices of samples. -/
def FindsPulses (d : FADCdata) (past : Nat → UInt16) (thres pedestal : F) (NSB NSA npeak : Int)
    (gain : F) : Prop :=
  (∃ hits, Mode7 d past thres pedestal NSB NSA npeak gain hits) ∧
    ∃ cs, Collects d past (thres + d.pedestalOf past pedestal) NSA npeak cs ∧
      cs.Pairwise (· < ·) ∧ ∀ c ∈ cs, c < d.samples.length

/-- The search gets past each crossing, meets none, or has enough with the first one. -/
def Progresses (d : FADCdata) (past : Nat → UInt16) (thr : F) (NSA npeak : Int) : Prop :=
  4 ≤ NSA ∨ (∀ i, 1 ≤ i → i < d.samples.length → ¬Crosses (d.sample past) thr i) ∨
    npeak = 1 ∨ npeak = 2 ∧ (d.sample past 0 : F) > thr

theorem findsPulses_of_collects {m : List Nat} (hNSA : 0 < NSA) (hd : 0 < d.samples.length)
    (h : Collects d past (thres + d.pedestalOf past pedestal) NSA npeak
      (firstCrossings (d.sample past) (thres + d.pedestalOf past pedestal) ++ m))
    (hm : m.Pairwise (· < ·)) (hb : ∀ c ∈ m, 1 ≤ c ∧ c < d.samples.length) :
    FindsPulses d past thres pedestal NSB NSA npeak gain :=
  ⟨⟨_, (mode7_iff hNSA).mpr ⟨_, h, rfl⟩⟩, _, h, increasing_append hd hm hb⟩

theorem findsPulses_of_scan {l : List Nat} (hNSA : 0 < NSA) (hd : 0 < d.samples.length)
    (h : Scan (Crosses (d.sample past) (thres + d.pedestalOf past pedestal)) d.samples.length
      (window NSA) 1 l) (hl : l.Pairwise (· < ·)) :
    FindsPulses d past thres pedestal NSB NSA npeak gain := by
  have hsub := allowed_sublist npeak
    (firstCrossings (d.sample past) (thres + d.pedestalOf past pedestal)).length l
  apply findsPulses_of_collects hNSA hd (collects_of_scan hNSA h) (hl.sublist hsub)
  intro c hc
  exact ⟨(h.bounds c (hsub.subset hc)).1, (h.bounds c (hsub.subset hc)).2.1⟩

theorem FindsPulses.of_progresses (hd : 0 < d.samples.length) (hNSA : 0 < NSA)
    (h : Progresses d past (thres + d.pedestalOf past pedestal) NSA npeak) :
    FindsPulses d past thres pedestal NSB NSA npeak gain := by
  let thr := thres + d.pedestalOf past pedestal
  by_cases hw : 0 < window NSA
  · obtain ⟨l, hl⟩ : ∃ l, Scan (Crosses (d.sample past) thr) d.samples.length (window NSA) 1 l :=
      Scan.exists_of_pos hw 1
    exact findsPulses_of_scan hNSA hd hl (hl.pairwise.imp fun hle => by omega)
  · by_cases hc : ∃ i, 1 ≤ i ∧ i < d.samples.length ∧ Crosses (d.sample past) thr i
    · have hn : npeak = 1 ∨ npeak = 2 ∧ (d.sample past 0 : F) > thr := by
        rcases h with h | h | h
        · exact (hw ((window_pos_iff hNSA).mpr h)).elim
        · obtain ⟨i, hi, hlt, hi'⟩ := hc
          exact (h i hi hlt hi').elim
        · exact h
      obtain ⟨c, hpos, hlt, hcs⟩ := collects_repeated npeak hNSA (by omega) (by omega) hc
      have hone : max 1 (npeak.toNat - (firstCrossings (d.sample past) thr).length) = 1 := by
        rcases hn with rfl | ⟨rfl, hfirst⟩
        · simp
        · simp [firstCrossings, hfirst]
      rw [hone, List.replicate_one] at hcs
      apply findsPulses_of_collects hNSA hd hcs (List.pairwise_singleton _ _)
      intro b hb
      obtain rfl := List.mem_singleton.mp hb
      exact ⟨hpos, hlt⟩
    · have hnone : ∀ i, 1 ≤ i → i < d.samples.length → ¬Crosses (d.sample past) thr i :=
        fun i hi hlt hi' => hc ⟨i, hi, hlt, hi'⟩
      exact findsPulses_of_scan hNSA hd (Scan.nil_of_none hnone) .nil

theorem FindsPulses.progresses (hNSA : 0 < NSA)
    (h : FindsPulses d past thres pedestal NSB NSA npeak gain) :
    Progresses d past (thres + d.pedestalOf past pedestal) NSA npeak := by
  let thr := thres + d.pedestalOf past pedestal
  obtain ⟨-, cs, hcs, hlt, -⟩ := h
  by_cases hw : 4 ≤ NSA
  · exact .inl hw
  · by_cases hc : ∃ i, 1 ≤ i ∧ i < d.samples.length ∧ Crosses (d.sample past) thr i
    · have hzero : window NSA = 0 := by
        have := (window_pos_iff hNSA).not.mpr hw
        omega
      have hn : 0 < npeak := by
        by_contra hn
        exact not_collects hNSA hzero (by omega) hc hcs
      obtain ⟨c, -, -, hrep⟩ := collects_repeated _ hNSA hzero hn hc
      -- the crossing may be collected only once
      rw [hcs.unique hrep] at hlt
      have hle := (List.pairwise_append.mp hlt).2.1
      rw [List.pairwise_replicate] at hle
      right; right
      rcases firstCrossings_cases (d.sample past) thr with ⟨hfirst, hf⟩ | ⟨-, hf⟩
      · simp only [hf, List.length_singleton, lt_irrefl, or_false] at hle
        by_cases h1 : npeak = 1
        · exact .inl h1
        · exact .inr ⟨by omega, hfirst⟩
      · simp only [hf, List.length_nil, lt_irrefl, or_false] at hle
        exact .inl (by omega)
    · exact .inr (.inl fun i hi hlt hi' => hc ⟨i, hi, hlt, hi'⟩)

/-- The pulses are found exactly when the search progresses. -/
theorem computeMode7fast_finds_iff (d : FADCdata) (past : Nat → UInt16) (thres pedestal : F)
    (NSB NSA npeak : Int) (gain : F) (hd : N_PEDESTAL ≤ d.samples.length) (hNSA : 0 < NSA) :
    FindsPulses d past thres pedestal NSB NSA npeak gain ↔
      Progresses d past (thres + d.pedestalOf past pedestal) NSA npeak := by
  have hpos : 0 < d.samples.length := lt_of_lt_of_le (by decide) hd
  exact ⟨fun h => h.progresses hNSA, fun h => .of_progresses hpos hNSA h⟩

def onePulse : FADCdata := { samples := [1, 1, 1, 1, 9, 5, 1, 1] }

theorem onePulse_crosses : Crosses (onePulse.sample fun _ => 0) (6 : Rat) 4 := by decide +kernel

theorem onePulse_found : FindsPulses onePulse (fun _ => 0) (5 : Rat) 1 5 4 0 1 :=
  (computeMode7fast_finds_iff onePulse (fun _ => 0) 5 1 5 4 0 1 (by decide) (by decide)).mpr
    (.inl (by decide))

theorem onePulse_not_found : N_PEDESTAL ≤ onePulse.samples.length ∧ (0 : Int) < 3 ∧
    ¬FindsPulses onePulse (fun _ => 0) (5 : Rat) 1 5 3 0 1 := by
  refine ⟨by decide, by decide, fun h => ?_⟩
  have hthr : (5 : Rat) + onePulse.pedestalOf (fun _ => 0) 1 = 6 := by decide +kernel
  have hp := h.progresses (by decide)
  rw [hthr] at hp
  rcases hp with h4 | hnone | h1 | ⟨h2, -⟩
  · exact absurd h4 (by decide)
  · exact hnone 4 (by decide) (by decide) onePulse_crosses
  · exact absurd h1 (by decide)
  · exact absurd h2 (by decide)

/-- The call with the limit `k` returns the first `k` hits of the call without a limit. -/
def Truncates (d : FADCdata) (past : Nat → UInt16) (thres pedestal : F) (NSB NSA : Int) (k : Nat)
    (gain : F) : Prop :=
  ∃ all hits, Mode7 d past thres pedestal NSB NSA 0 gain all ∧
    Mode7 d past thres pedestal NSB NSA k gain hits ∧ hits = all.take k ∧ hits.length ≤ k

def StartsAbove (d : FADCdata) (past : Nat → UInt16) (thr : F) : Prop :=
  (d.sample past 0 : F) > thr ∧
    ∃ i, 1 ≤ i ∧ i < d.samples.length ∧ Crosses (d.sample past) thr i

theorem mode7_limit {thr : F} (hNSA : 4 ≤ NSA) (hthr : thres + d.pedestalOf past pedestal = thr) :
    ∃ l, Scan (Crosses (d.sample past) thr) d.samples.length (window NSA) 1 l ∧
      ∀ npeak, Mode7 d past thres pedestal NSB NSA npeak gain
        ((firstCrossings (d.sample past) thr ++
          allowed npeak (firstCrossings (d.sample past) thr).length l).map
            (d.hitAt past (d.pedestalOf past pedestal) NSB NSA gain)) := by
  obtain ⟨l, hl, hcs⟩ := exists_scan d past thr hNSA
  subst hthr
  exact ⟨l, hl, fun npeak => (mode7_iff (by omega)).mpr ⟨_, hcs npeak, rfl⟩⟩

theorem StartsAbove.not_truncates {thr : F} (hNSA : 4 ≤ NSA)
    (hthr : thres + d.pedestalOf past pedestal = thr) (h : StartsAbove d past thr) :
    ¬Truncates d past thres pedestal NSB NSA 1 gain := by
  rintro ⟨all, hits, -, hk, -, hle⟩
  obtain ⟨hfirst, i, hi, hlt, hc⟩ := h
  obtain ⟨l, hl, hmode⟩ := mode7_limit (F := F) hNSA hthr
  have hlen : 0 < l.length := List.length_pos_of_ne_nil (hl.ne_nil hi hlt hc)
  rw [hk.unique (by omega) (hmode 1), firstCrossings, if_pos hfirst,
    allowed_of_pos (by omega)] at hle
  simp only [List.singleton_append, List.map_cons, List.length_cons, List.length_map,
    List.length_take] at hle
  omega

/-- The limit only truncates, except for a limit of 1 on a waveform that starts above the
threshold and crosses it again. -/
theorem computeMode7fast_truncates_iff (d : FADCdata) (past : Nat → UInt16) (thres pedestal : F)
    (NSB NSA : Int) (k : Nat) (gain : F) (hNSA : 4 ≤ NSA) (hk : 1 ≤ k) :
    Truncates d past thres pedestal NSB NSA k gain ↔
      ¬(k = 1 ∧ StartsAbove d past (thres + d.pedestalOf past pedestal)) := by
  constructor
  · rintro h ⟨rfl, hstart⟩
    exact hstart.not_truncates hNSA rfl h
  · intro h
    obtain ⟨l, hl, hmode⟩ := mode7_limit (F := F) hNSA rfl
    have hne : ¬(k = 1 ∧
        (d.sample past 0 : F) > thres + d.pedestalOf past pedestal ∧ l ≠ []) :=
      fun ⟨hone, hfirst, hnil⟩ => h ⟨hone, hfirst, hl.exists_of_ne_nil hnil⟩
    have hall := hmode 0
    have hhits := hmode k
    rw [allowed_of_nonpos le_rfl] at hall
    rw [take_crossings hk hne, List.map_take] at hhits
    exact ⟨_, _, hall, hhits, rfl, List.length_take_le _ _⟩

theorem onePulse_truncates : Truncates onePulse (fun _ => 0) (5 : Rat) 1 5 4 1 1 :=
  (computeMode7fast_truncates_iff onePulse (fun _ => 0) 5 1 5 4 1 1 (by decide) (by decide)).mpr
    fun h => absurd h.2.1 (by decide +kernel)

def twoPulses : FADCdata := { samples := [9, 1, 1, 1, 9, 5, 1, 1] }

theorem twoPulses_not_truncated : (4 : Int) ≤ 4 ∧ 1 ≤ 1 ∧
    ¬Truncates twoPulses (fun _ => 0) (5 : Rat) 1 5 4 1 1 := by
  have hthr : (5 : Rat) + twoPulses.pedestalOf (fun _ => 0) 1 = 6 := by decide +kernel
  have hstart : StartsAbove twoPulses (fun _ => 0) (6 : Rat) :=
    ⟨by decide +kernel, 4, by decide, by decide, by decide +kernel⟩
  exact ⟨le_rfl, le_rfl, hstart.not_truncates le_rfl hthr⟩

end

end FADCdata

end EvioTool
