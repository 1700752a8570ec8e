import EvioTool.Laws.VTPTrigger
import EvioTool.Lib.CInt

namespace EvioTool.VTPBank

open Lib

variable {data rest : List UInt32} {v u : VTPBank} {w c : UInt32} {i : Nat}

def stride (w : UInt32) : Nat := if IsType 3 w then 2 else 1

inductive Visits (data : List UInt32) : Nat → Prop
  | start : Visits data 0
  | next {i : Nat} {w : UInt32} : Visits data i → data[i]? = some w → Visits data (i + stride w)

theorem behind_eq_drop (w : UInt32) (rest : List UInt32) :
    behind w rest = (w :: rest).drop (stride w) := by
  unfold behind stride
  split
  · cases rest <;> rfl
  · rfl

theorem visits_cons :
    Visits (w :: rest) i ↔ i = 0 ∨ ∃ j, Visits (behind w rest) j ∧ i = stride w + j := by
  have hget (j : Nat) : (behind w rest)[j]? = (w :: rest)[stride w + j]? := by
    rw [behind_eq_drop, List.getElem?_drop]
  constructor
  · intro h
    induction h with
    | start => exact .inl rfl
    | next _ hw ih =>
      rcases ih with rfl | ⟨j, hj, rfl⟩
      · obtain rfl : w = _ := by simpa using hw
        exact .inr ⟨0, .start, by omega⟩
      · exact .inr ⟨_, hj.next ((hget j).trans hw), by omega⟩
  · rintro (rfl | ⟨j, hj, rfl⟩)
    · exact .start
    · induction hj with
      | start =>
        have hfirst : Visits (w :: rest) (0 + stride w) := .next .start rfl
        simpa using hfirst
      | next _ hw ih =>
        rw [← Nat.add_assoc]
        exact ih.next ((hget _).symm.trans hw)

theorem visits_or_taken (h : i ≤ data.length) :
    Visits data i ∨ ∃ j b, i = j + 1 ∧ Visits data j ∧ data[j]? = some b ∧ IsType 3 b := by
  induction i with
  | zero => exact .inl .start
  | succ i ih =>
    have hi : data[i]? = some data[i] := List.getElem?_eq_getElem h
    rcases ih (by omega) with hv | ⟨j, b, rfl, hv, hb, ht⟩
    · by_cases ht : IsType 3 data[i]
      · exact .inr ⟨i, _, rfl, hv, hi, ht⟩
      · exact .inl (by simpa [stride, ht] using hv.next hi)
    · have hnext := hv.next hb
      rw [stride, if_pos ht] at hnext
      exact .inl hnext

theorem parseWordsPast_visits (past : UInt32) (h : Visits data i) (v : VTPBank) :
    ∃ u, parseWordsPast past data v = parseWordsPast past (data.drop i) u := by
  induction h with
  | start => exact ⟨v, rfl⟩
  | next _ hw ih =>
    obtain ⟨u, hu⟩ := ih
    obtain ⟨hi, rfl⟩ := List.getElem?_eq_some_iff.mp hw
    rw [hu, List.drop_eq_getElem_cons hi, parseWordsPast_cons, behind_eq_drop,
      ← List.drop_eq_getElem_cons hi, List.drop_drop]
    exact ⟨_, rfl⟩

/-- The last word starts a record of two words. -/
def Truncated (data : List UInt32) : Prop :=
  ∃ i w, Visits data i ∧ data.drop i = [w] ∧ (IsType 3 w ∨ IsHPS 2 w)

theorem not_truncated_nil : ¬Truncated [] := by
  rintro ⟨i, w, -, hw, -⟩
  simp at hw

theorem truncated_cons :
    Truncated (w :: rest) ↔
      (rest = [] ∧ (IsType 3 w ∨ IsHPS 2 w)) ∨ Truncated (behind w rest) := by
  have hdrop (j : Nat) : (w :: rest).drop (stride w + j) = (behind w rest).drop j := by
    rw [behind_eq_drop, List.drop_drop]
  constructor
  · rintro ⟨i, x, hv, hx, ht⟩
    rcases visits_cons.mp hv with rfl | ⟨j, hj, rfl⟩
    · obtain ⟨rfl, rfl⟩ := List.cons.inj hx
      exact .inl ⟨rfl, ht⟩
    · exact .inr ⟨j, x, hj, (hdrop j).symm.trans hx, ht⟩
  · rintro (⟨rfl, ht⟩ | ⟨j, x, hj, hx, ht⟩)
    · exact ⟨0, w, .start, rfl, ht⟩
    · exact ⟨_, x, visits_cons.mpr (.inr ⟨j, hj, rfl⟩), (hdrop j).trans hx, ht⟩

theorem parseWords_isOk_iff : (∃ u, parseWords data v = .ok u) ↔ ¬Truncated data := by
  induction data using loop_induction generalizing v with
  | nil => exact iff_of_true ⟨v, by simp [parseWords]⟩ not_truncated_nil
  | cons w rest ih =>
    rw [parseWords_cons 0, truncated_cons, not_or]
    by_cases h : rest = [] ∧ (IsType 3 w ∨ IsHPS 2 w)
    · rw [if_pos h]
      exact iff_of_false (by rintro ⟨u, hu⟩; cases hu) fun hn => hn.1 h
    · rw [if_neg h, ih, and_iff_right h]

theorem put_trigTime (w c : UInt32) (v : VTPBank) :
    (v.put w c).trigTime =
      if IsType 3 w then
        UInt32.toUInt64 ((w &&& 0x00FFFFFF) + (c &&& 0x00FFFFFF) <<< (24 : UInt32))
      else v.trigTime := by
  simp only [put, IsType]
  by_cases h : w &&& (1 : UInt32) <<< 31 = 0
  · simp [h]
  · simp only [h, ne_eq, not_false_eq_true, if_true, true_and]
    split
    case h_5 h12 =>
      rw [h12]
      split <;> rfl
    all_goals simp_all

theorem toNat_time (w c : UInt32) :
    (UInt32.toUInt64 ((w &&& 0x00FFFFFF) + (c &&& 0x00FFFFFF) <<< (24 : UInt32))).toNat =
      w.toNat % 2 ^ 24 + 2 ^ 24 * (c.toNat % 2 ^ 8) := by
  rw [UInt32.toNat_toUInt64, UInt32.toNat_add, UInt32.toNat_shiftLeft,
    UInt32.toNat_and_of (n := 24) (by decide), UInt32.toNat_and_of (n := 24) (by decide)]
  have h24 : (24 : UInt32).toNat % 32 = 24 := by decide
  rw [h24, Nat.shiftLeft_eq]
  omega

theorem trigTime_of_no_time (past : UInt32) (h : ∀ x ∈ data, ¬IsType 3 x) (v : VTPBank) :
    (parseWordsPast past data v).trigTime = v.trigTime := by
  induction data generalizing v with
  | nil => simp [parseWordsPast]
  | cons w rest ih =>
    obtain ⟨hw, hrest⟩ := List.forall_mem_cons.mp h
    rw [parseWordsPast_cons, behind, if_neg hw, ih hrest, put_trigTime, if_neg hw]

theorem trigTime_of_visits (past : UInt32) (hv : Visits data i) (hdrop : data.drop i = w :: c :: rest)
    (hw : IsType 3 w) (hrest : ∀ x ∈ rest, ¬IsType 3 x) (v : VTPBank) :
    (parseWordsPast past data v).trigTime.toNat = w.toNat % 2 ^ 24 + 2 ^ 24 * (c.toNat % 2 ^ 8) := by
  obtain ⟨u, hu⟩ := parseWordsPast_visits past hv v
  rw [hu, hdrop, parseWordsPast_cons, behind, if_pos hw, List.tail_cons,
    trigTime_of_no_time past hrest, put_trigTime, if_pos hw]
  exact toNat_time w c

def LastTime (data : List UInt32) (i : Nat) (w c : UInt32) : Prop :=
  IsType 3 w ∧ ∃ rest, data.drop i = w :: c :: rest ∧ ∀ x ∈ c :: rest, ¬IsType 3 x

/-- `ParseBank` stays within the data and sets the time of the last word of type 3. -/
def SetsTime (data : List UInt32) (v : VTPBank) : Prop :=
  ∃ u, parseBank data v = .ok u ∧
    ∀ i w c, LastTime data i w c →
      u.trigTime.toNat = w.toNat % 2 ^ 24 + 2 ^ 24 * (c.toNat % 2 ^ 24)

theorem trigTime_last (hu : parseBank data v = .ok u) (hlast : LastTime data i w c) :
    (Visits data i → u.trigTime.toNat = w.toNat % 2 ^ 24 + 2 ^ 24 * (c.toNat % 2 ^ 8)) ∧
      (¬Visits data i → ∃ b, data[i - 1]? = some b ∧
        u.trigTime.toNat = b.toNat % 2 ^ 24 + 2 ^ 24 * (w.toNat % 2 ^ 8)) := by
  obtain ⟨hw, rest, hdrop, hrest⟩ := hlast
  obtain rfl := parseBankPast_of_ok 0 hu
  refine ⟨fun hv => trigTime_of_visits 0 hv hdrop hw (List.forall_mem_cons.mp hrest).2 v.clear,
    fun hv => ?_⟩
  have hi : i ≤ data.length := by
    by_contra hi
    rw [List.drop_of_length_le (by omega)] at hdrop
    cases hdrop
  obtain ⟨j, b, rfl, hj, hb, ht⟩ := (visits_or_taken hi).resolve_left hv
  obtain ⟨hlt, rfl⟩ := List.getElem?_eq_some_iff.mp hb
  have htaken : data.drop j = data[j] :: w :: c :: rest := by
    rw [List.drop_eq_getElem_cons hlt, hdrop]
  exact ⟨data[j], hb, trigTime_of_visits 0 hj htaken ht hrest v.clear⟩

/-- The time is right just when its upper half has 8 bits; where a word of type 3 is itself
taken as an upper half, its own halves have to be those of the time that takes it. -/
theorem setsTime_iff (data : List UInt32) (v : VTPBank) :
    SetsTime data v ↔
      ¬Truncated data ∧ ∀ i w c, LastTime data i w c →
        (Visits data i → c.toNat % 2 ^ 24 < 2 ^ 8) ∧
        (¬Visits data i → ∀ b, data[i - 1]? = some b →
          b.toNat % 2 ^ 24 = w.toNat % 2 ^ 24 ∧ w.toNat % 2 ^ 8 = c.toNat % 2 ^ 24) := by
  constructor
  · rintro ⟨u, hu, htime⟩
    refine ⟨parseWords_isOk_iff.mp ⟨u, hu⟩, fun i w c hlast => ?_⟩
    obtain ⟨hvisits, htaken⟩ := trigTime_last hu hlast
    have hsum := htime i w c hlast
    refine ⟨fun hv => ?_, fun hv b hb => ?_⟩
    · have hcode := hvisits hv
      omega
    · obtain ⟨b', hb', hcode⟩ := htaken hv
      obtain rfl := Option.some.inj (hb.symm.trans hb')
      omega
  · rintro ⟨htrunc, hfits⟩
    obtain ⟨u, hu⟩ := parseWords_isOk_iff.mpr htrunc
    refine ⟨u, hu, fun i w c hlast => ?_⟩
    obtain ⟨hvisits, htaken⟩ := trigTime_last hu hlast
    obtain ⟨hfit, hsame⟩ := hfits i w c hlast
    by_cases hv : Visits data i
    · rw [hvisits hv]
      have := hfit hv
      omega
    · obtain ⟨b, hb, hcode⟩ := htaken hv
      have := hsame hv b hb
      omega

theorem wideTime_not_set :
    ¬SetsTime [0x98000000, 0x00000100] ⟨0, 0, 0, 0, [], [], [], [], [], [], true⟩ ∧
      ¬SetsTime [0x98000000] ⟨0, 0, 0, 0, [], [], [], [], [], [], true⟩ := by
  constructor
  · rintro ⟨u, hu, htime⟩
    have hparse : parseBank [0x98000000, 0x00000100] ⟨0, 0, 0, 0, [], [], [], [], [], [], true⟩ =
        .ok ⟨0, 0, 0, 0, [], [], [], [], [], [], true⟩ := by rfl
    obtain rfl := Except.ok.inj (hparse.symm.trans hu)
    have hsum := htime 0 0x98000000 0x00000100 ⟨by decide, [], rfl, by simp [IsType]⟩
    revert hsum
    decide
  · rintro ⟨u, hu, -⟩
    cases hu

end EvioTool.VTPBank
