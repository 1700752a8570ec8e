import EvioTool.Defs.VTPTrigger

namespace EvioTool

open Lib

theorem HPSSingleTrig_t.get_layout (mem : BitVec n) :
    HPSSingleTrig_t.layout.get mem =
      { T := mem.extractLsb' 0 10
        Pass :=
          { emin := mem.extractLsb' 16 1
            emax := mem.extractLsb' 17 1
            nmin := mem.extractLsb' 18 1
            xmin := mem.extractLsb' 19 1
            pose := mem.extractLsb' 20 1
            hodo1c := mem.extractLsb' 21 1
            hodo2c := mem.extractLsb' 22 1
            hodogeo := mem.extractLsb' 23 1
            hodoecal := mem.extractLsb' 24 1 }
        topnbot := mem.extractLsb' 32 1
        inst := mem.extractLsb' 33 3
        subtype := mem.extractLsb' 36 4
        type := mem.extractLsb' 40 4
        istype := mem.extractLsb' 44 1 } := rfl

theorem HPSPairTrig_t.get_layout (mem : BitVec n) :
    HPSPairTrig_t.layout.get mem =
      { T := mem.extractLsb' 0 10
        Pass :=
          { clusesum := mem.extractLsb' 32 1
            clusedif := mem.extractLsb' 33 1
            eslope := mem.extractLsb' 34 1
            coplane := mem.extractLsb' 35 1
            dummy := mem.extractLsb' 36 5 }
        topnbot := mem.extractLsb' 64 1
        inst := mem.extractLsb' 65 3
        subtype := mem.extractLsb' 68 4
        type := mem.extractLsb' 72 4
        istype := mem.extractLsb' 76 1 } := rfl

theorem HPSCalibTrig_t.get_layout (mem : BitVec n) :
    HPSCalibTrig_t.layout.get mem =
      { T := mem.extractLsb' 0 10
        reserved := mem.extractLsb' 10 9
        trigtype :=
          { cosmic := mem.extractLsb' 24 1
            led := mem.extractLsb' 25 1
            hodoscope := mem.extractLsb' 26 1
            pulser := mem.extractLsb' 27 1 }
        subtype := mem.extractLsb' 32 4
        type := mem.extractLsb' 36 4
        istype := mem.extractLsb' 40 1 } := rfl

theorem HPSSingleTrig_t.documented_iff (left : BitVec 32) (w : UInt32) :
    layout.get (left ++ w.toBitVec) = documented w ↔
      w.toBitVec.extractLsb 24 16 = w.toBitVec.extractLsb 18 10 ∧
        left.extractLsb 12 0 = w.toBitVec.extractLsb 31 19 := by
  have hpass := sameFields_iff (x := w.toBitVec) (y := w.toBitVec) 16 10 [1, 1, 1, 1, 1, 1, 1, 1, 1]
  have hrest := sameFields_iff (x := left) (y := w.toBitVec) 0 19 [1, 3, 4, 4, 1]
  simp only [SameFields, and_true, Nat.reduceAdd, List.sum_cons, List.sum_nil] at hpass hrest
  rw [get_layout, documented]
  simp (disch := decide) only [mk.injEq, SinglePass.mk.injEq, BitVec.extractLsb,
    BitVec.extractLsb'_append_eq_of_add_le, BitVec.extractLsb'_append_eq_of_le]
  simp only [Nat.reduceSub, Nat.reduceAdd, true_and]
  rw [hpass, hrest]

theorem HPSPairTrig_t.documented_iff (left : BitVec 64) (w : UInt32) :
    layout.get (left ++ w.toBitVec) = documented w ↔
      left.extractLsb 8 0 = w.toBitVec.extractLsb 18 10 ∧
        left.extractLsb 44 32 = w.toBitVec.extractLsb 31 19 := by
  have hpass := sameFields_iff (x := left) (y := w.toBitVec) 0 10 [1, 1, 1, 1, 5]
  have hrest := sameFields_iff (x := left) (y := w.toBitVec) 32 19 [1, 3, 4, 4, 1]
  simp only [SameFields, and_true, Nat.reduceAdd, List.sum_cons, List.sum_nil] at hpass hrest
  rw [get_layout, documented]
  simp (disch := decide) only [mk.injEq, PairPass.mk.injEq, BitVec.extractLsb,
    BitVec.extractLsb'_append_eq_of_add_le, BitVec.extractLsb'_append_eq_of_le]
  simp only [Nat.reduceSub, Nat.reduceAdd, true_and]
  rw [hpass, hrest]

theorem HPSCalibTrig_t.documented_iff (left : BitVec 32) (w : UInt32) :
    layout.get (left ++ w.toBitVec) = documented w ↔
      w.toBitVec.extractLsb 27 24 = w.toBitVec.extractLsb 22 19 ∧
        left.extractLsb 8 0 = w.toBitVec.extractLsb 31 23 := by
  have htype := sameFields_iff (x := w.toBitVec) (y := w.toBitVec) 24 19 [1, 1, 1, 1]
  have hrest := sameFields_iff (x := left) (y := w.toBitVec) 0 23 [4, 4, 1]
  simp only [SameFields, and_true, Nat.reduceAdd, List.sum_cons, List.sum_nil] at htype hrest
  rw [get_layout, documented]
  simp (disch := decide) only [mk.injEq, CalibType.mk.injEq, BitVec.extractLsb,
    BitVec.extractLsb'_append_eq_of_add_le, BitVec.extractLsb'_append_eq_of_le]
  simp only [Nat.reduceSub, Nat.reduceAdd, true_and]
  rw [htype, hrest]

namespace VTPBank

def behind (w : UInt32) (rest : List UInt32) : List UInt32 :=
  if IsType 3 w then rest.tail else rest

theorem length_behind (w : UInt32) (rest : List UInt32) :
    (behind w rest).length < (w :: rest).length := by
  unfold behind
  split <;> grind

theorem loop_induction {P : List UInt32 → Prop} (nil : P [])
    (cons : ∀ w rest, P (behind w rest) → P (w :: rest)) (ws : List UInt32) : P ws := by
  induction h : ws.length using Nat.strongRecOn generalizing ws with
  | ind n ih =>
    cases ws with
    | nil => exact nil
    | cons w rest => exact cons w rest (ih _ (h ▸ length_behind w rest) _ rfl)

theorem parseWords_cons (past w : UInt32) (rest : List UInt32) (v : VTPBank) :
    parseWords (w :: rest) v =
      if rest = [] ∧ (IsType 3 w ∨ IsHPS 2 w) then .error .outside
      else parseWords (behind w rest) (v.put w (rest.head?.getD past)) := by
  rw [parseWords.eq_def (w :: rest)]
  simp only [put, behind, IsHPS, IsType]
  by_cases h : w &&& (1 : UInt32) <<< 31 = 0
  · simp [h]
  · simp only [h, ne_eq, not_false_eq_true, if_true, true_and]
    generalize ((w >>> 27) &&& 0x0F).toNat = type
    generalize ((w >>> 23) &&& 0x0F).toNat = subtype
    split
    case h_5 => rcases rest with _ | ⟨c, rest⟩ <;> split <;> simp_all
    all_goals rcases rest with _ | ⟨c, rest⟩ <;> simp_all

theorem parseWordsPast_cons (past w : UInt32) (rest : List UInt32) (v : VTPBank) :
    parseWordsPast past (w :: rest) v =
      parseWordsPast past (behind w rest) (v.put w (rest.head?.getD past)) := by
  rw [parseWordsPast.eq_def, behind]
  dsimp only
  split
  · cases rest <;> rfl
  · rfl

theorem vtpWords_cons (w : UInt32) (rest : List UInt32) :
    vtpWords (w :: rest) = w :: vtpWords (behind w rest) := by
  rw [vtpWords.eq_def, behind]
  dsimp only
  split
  · cases rest <;> rfl
  · rfl

theorem parseBankPast_of_ok (past : UInt32) {data : List UInt32} {v u : VTPBank}
    (h : parseBank data v = .ok u) : parseBankPast past data v = u := by
  unfold parseBank at h
  unfold parseBankPast
  generalize v.clear = v at h ⊢
  induction data using loop_induction generalizing v with
  | nil => simpa [parseWords, parseWordsPast] using h
  | cons w rest ih =>
    rw [parseWords_cons past] at h
    split at h
    · cases h
    · rw [parseWordsPast_cons]
      exact ih _ h

theorem put_trigs (w c : UInt32) (v : VTPBank) :
    (v.put w c).singletrigs = v.singletrigs ++ (if IsHPS 3 w then [w] else []) ∧
      (v.put w c).pairtrigs = v.pairtrigs ++ (if IsHPS 4 w then [w] else []) ∧
      (v.put w c).calibtrigs = v.calibtrigs ++ (if IsHPS 5 w then [w] else []) := by
  simp only [put, IsHPS, IsType]
  by_cases h : w &&& (1 : UInt32) <<< 31 = 0
  · simp [h]
  · simp only [h, ne_eq, not_false_eq_true, if_true, true_and]
    split
    case h_5 => split <;> simp_all
    all_goals simp_all

theorem trigWords_cons (k : Nat) (w : UInt32) (rest : List UInt32) :
    trigWords k (w :: rest) = (if IsHPS k w then [w] else []) ++ trigWords k (behind w rest) := by
  rw [trigWords, vtpWords_cons, List.filter_cons, trigWords]
  simp only [decide_eq_true_eq]
  split <;> rfl

theorem parseWordsPast_trigs (past : UInt32) (ws : List UInt32) (v : VTPBank) :
    (parseWordsPast past ws v).singletrigs = v.singletrigs ++ trigWords 3 ws ∧
      (parseWordsPast past ws v).pairtrigs = v.pairtrigs ++ trigWords 4 ws ∧
      (parseWordsPast past ws v).calibtrigs = v.calibtrigs ++ trigWords 5 ws := by
  induction ws using loop_induction generalizing v with
  | nil => simp [parseWordsPast, trigWords, vtpWords]
  | cons w rest ih =>
    obtain ⟨hsingle, hpair, hcalib⟩ := put_trigs w (rest.head?.getD past) v
    obtain ⟨ihsingle, ihpair, ihcalib⟩ := ih (v.put w (rest.head?.getD past))
    simp only [parseWordsPast_cons, trigWords_cons]
    rw [ihsingle, ihpair, ihcalib, hsingle, hpair, hcalib]
    simp only [List.append_assoc, and_self]

theorem parseBankPast_trigs (past : UInt32) (data : List UInt32) (v : VTPBank) :
    (parseBankPast past data v).singletrigs = trigWords 3 data ∧
      (parseBankPast past data v).pairtrigs = trigWords 4 data ∧
      (parseBankPast past data v).calibtrigs = trigWords 5 data :=
  parseWordsPast_trigs past data v.clear

theorem mapIdx_eq_map_iff {f : Nat → α → β} {g : α → β} {l : List α} :
    l.mapIdx f = l.map g ↔ ∀ k a, l[k]? = some a → f k a = g a := by
  constructor
  · intro h k a ha
    simpa [ha] using congrArg (·[k]?) h
  · intro h
    apply List.ext_getElem? 
    intro k
    rw [List.getElem?_mapIdx, List.getElem?_map]
    cases ha : l[k]? with
    | none => rfl
    | some a => simp [h k a ha]

/-- The records of the trigger words are those of the data format just where the words and
the memory around them happen to hold the same bits twice: one flag of a single trigger in
the bits six further on, and all that lies behind the word in what was left there. -/
theorem trigRecords_documented_iff (past : UInt32) (data : List UInt32) (v : VTPBank)
    (left : Leftover) :
    (singleRecords left (parseBankPast past data v) =
          (trigWords 3 data).map HPSSingleTrig_t.documented ∧
        pairRecords left (parseBankPast past data v) =
          (trigWords 4 data).map HPSPairTrig_t.documented ∧
        calibRecords left (parseBankPast past data v) =
          (trigWords 5 data).map HPSCalibTrig_t.documented) ↔
      (∀ k w, (trigWords 3 data)[k]? = some w →
          w.toBitVec.extractLsb 24 16 = w.toBitVec.extractLsb 18 10 ∧
            (left.strig k).extractLsb 12 0 = w.toBitVec.extractLsb 31 19) ∧
        (∀ k w, (trigWords 4 data)[k]? = some w →
          (left.ptrig k).extractLsb 8 0 = w.toBitVec.extractLsb 18 10 ∧
            (left.ptrig k).extractLsb 44 32 = w.toBitVec.extractLsb 31 19) ∧
        ∀ k w, (trigWords 5 data)[k]? = some w →
          w.toBitVec.extractLsb 27 24 = w.toBitVec.extractLsb 22 19 ∧
            (left.ctrig k).extractLsb 8 0 = w.toBitVec.extractLsb 31 23 := by
  obtain ⟨hsingle, hpair, hcalib⟩ := parseBankPast_trigs past data v
  simp only [singleRecords, pairRecords, calibRecords, hsingle, hpair, hcalib, mapIdx_eq_map_iff,
    HPSSingleTrig_t.documented_iff, HPSPairTrig_t.documented_iff, HPSCalibTrig_t.documented_iff]

theorem single_not_documented : 
    ¬ ∀ (past : UInt32) (data : List UInt32) (v : VTPBank) (left : Leftover),
      singleRecords left (parseBankPast past data v) =
          (trigWords 3 data).map HPSSingleTrig_t.documented ∧
        pairRecords left (parseBankPast past data v) =
          (trigWords 4 data).map HPSPairTrig_t.documented ∧
        calibRecords left (parseBankPast past data v) =
          (trigWords 5 data).map HPSCalibTrig_t.documented := by
  intro h
  obtain ⟨hsingle, -, -⟩ := h 0 [0xE1800400] ⟨0, 0, 0, 0, [], [], [], [], [], [], true⟩
    ⟨fun _ => 0, fun _ => 0, fun _ => 0⟩
  revert hsingle
  decide

end VTPBank

end EvioTool
