import EvioTool.Defs.VTPRecord

namespace EvioTool

open Lib

theorem toNat_bit31 : ((1 : UInt32) <<< 31).toNat = 2 ^ 31 := by decide

theorem and_bit31_of_lt {w : UInt32} (h : w.toNat < 2 ^ 31) : w &&& (1 : UInt32) <<< 31 = 0 := by
  apply UInt32.toNat_inj.mp
  rw [UInt32.toNat_and, toNat_bit31, Nat.and_two_pow, Nat.testBit_lt_two_pow h]
  rfl

theorem and_bit31_of_le {w : UInt32} (h : 2 ^ 31 ≤ w.toNat) : w &&& (1 : UInt32) <<< 31 ≠ 0 := by
  intro h0
  have hw : w.toNat < 2 ^ 32 := w.toNat_lt
  have hbit : w.toNat.testBit 31 = true := by
    rw [Nat.testBit_eq_decide_div_mod_eq, decide_eq_true_eq]
    omega
  have hand := congrArg UInt32.toNat h0
  rw [UInt32.toNat_and, toNat_bit31, Nat.and_two_pow, hbit] at hand
  revert hand
  decide

namespace VTPRecord

theorem toNat_word (type : BitVec 4) (fields : BitVec 27) :
    (word type fields).toNat = (2 ^ 4 + type.toNat) * 2 ^ 27 + fields.toNat := by
  have h : (word type fields).toNat = (1#1 ++ type ++ fields).toNat := rfl
  rw [h, BitVec.toNat_append_add, BitVec.toNat_append_add]
  simp

theorem isType_word (type : BitVec 4) (fields : BitVec 27) :
    word type fields &&& (1 : UInt32) <<< 31 ≠ 0 := by
  apply and_bit31_of_le
  rw [toNat_word]
  omega

theorem type_word (type : BitVec 4) (fields : BitVec 27) :
    ((word type fields >>> 27) &&& 0x0F).toNat = type.toNat := by
  have ht := type.isLt
  have hf := fields.isLt
  rw [UInt32.toNat_field_of (k := 27) (n := 4) rfl (by decide) rfl, toNat_word]
  omega

theorem subtype_expansion (subtype : BitVec 4) (fields : BitVec 23) :
    ((expansion subtype fields >>> 23) &&& 0x0F).toNat = subtype.toNat := by
  have hs := subtype.isLt
  have hf := fields.isLt
  rw [UInt32.toNat_field_of (k := 23) (n := 4) rfl (by decide) rfl, expansion, toNat_word,
    BitVec.toNat_append_add]
  omega

theorem isType_expansion (subtype : BitVec 4) (fields : BitVec 23) :
    expansion subtype fields &&& (1 : UInt32) <<< 31 ≠ 0 := isType_word _ _

theorem type_expansion (subtype : BitVec 4) (fields : BitVec 23) :
    ((expansion subtype fields >>> 27) &&& 0x0F).toNat = 12 := type_word _ _

theorem isType_continuationWord (fields : BitVec 31) :
    continuationWord fields &&& (1 : UInt32) <<< 31 = 0 := by
  apply and_bit31_of_lt
  have h : (continuationWord fields).toNat = (0#1 ++ fields).toNat := rfl
  rw [h, BitVec.toNat_append_add]
  have hf := fields.isLt
  simpa using hf

end VTPRecord

namespace VTPBank

open VTPRecord

def add (v : VTPBank) : VTPRecord → VTPBank
  | .blockHeader slotid unused blockNumber blockLevel =>
    { v with blockHeader := word 0 (slotid ++ unused ++ blockNumber ++ blockLevel) }
  | .blockTail slotid nwords => { v with blockTail := word 1 (slotid ++ nwords) }
  | .eventHeader eventnum => { v with eventHeader := word 2 eventnum }
  | .trigTime unused timel unused' timeh =>
    { v with trigTime := UInt32.toUInt64 ((word 3 (unused ++ timel) &&& 0x00FFFFFF) +
        (continuationWord (unused' ++ timeh) &&& 0x00FFFFFF) <<< (24 : UInt32)) }
  | .cluster E Y X unused N T =>
    { v with clusters := v.clusters ++ [(expansion 2 (E ++ Y ++ X)).toUInt64 +
        (continuationWord (unused ++ N ++ T)).toUInt64 <<< 32] }
  | .singleTrig fields => { v with singletrigs := v.singletrigs ++ [expansion 3 fields] }
  | .pairTrig fields => { v with pairtrigs := v.pairtrigs ++ [expansion 4 fields] }
  | .calibTrig fields => { v with calibtrigs := v.calibtrigs ++ [expansion 5 fields] }
  | .multTrig inst multTot multBot multTop T =>
    { v with clustermult := v.clustermult ++
        [expansion 6 (inst ++ multTot ++ multBot ++ multTop ++ T)] }
  | .feeTrig reserved region T =>
    { v with feetrigger := v.feetrigger ++ [expansion 7 (reserved ++ region ++ T)] }
  | .unknownType _ _ _ | .unknownSubtype _ _ _ | .continuation _ => v

theorem parseWords_continuation (fields : BitVec 31) (ws : List UInt32) (v : VTPBank) :
    parseWords (continuationWord fields :: ws) v = parseWords ws v := by
  rw [parseWords.eq_def]
  simp [isType_continuationWord]

theorem parseWords_unknownType {type : BitVec 4} (fields : BitVec 27) (ws : List UInt32)
    (v : VTPBank) (h : type ∉ [0, 1, 2, 3, 12]) :
    parseWords (word type fields :: ws) v = parseWords ws v := by
  have hne (k : BitVec 4) (hk : k ∈ [0, 1, 2, 3, 12]) : type.toNat ≠ k.toNat := fun he =>
    h (BitVec.eq_of_toNat_eq he ▸ hk)
  have h0 : type.toNat ≠ 0 := hne 0 (by decide)
  have h1 : type.toNat ≠ 1 := hne 1 (by decide)
  have h2 : type.toNat ≠ 2 := hne 2 (by decide)
  have h3 : type.toNat ≠ 3 := hne 3 (by decide)
  have h12 : type.toNat ≠ 12 := hne 12 (by decide)
  rw [parseWords.eq_def]
  simp only [ne_eq, isType_word, not_false_eq_true, if_true, type_word]

theorem parseWords_unknownSubtype {subtype : BitVec 4} (fields : BitVec 23) (ws : List UInt32)
    (v : VTPBank) (h : subtype ∉ [2, 3, 4, 5, 6, 7]) :
    parseWords (expansion subtype fields :: ws) v = parseWords ws v := by
  have hne (k : BitVec 4) (hk : k ∈ [2, 3, 4, 5, 6, 7]) : subtype.toNat ≠ k.toNat := fun he =>
    h (BitVec.eq_of_toNat_eq he ▸ hk)
  have h2 : subtype.toNat ≠ 2 := hne 2 (by decide)
  have h3 : subtype.toNat ≠ 3 := hne 3 (by decide)
  have h4 : subtype.toNat ≠ 4 := hne 4 (by decide)
  have h5 : subtype.toNat ≠ 5 := hne 5 (by decide)
  have h6 : subtype.toNat ≠ 6 := hne 6 (by decide)
  have h7 : subtype.toNat ≠ 7 := hne 7 (by decide)
  rw [parseWords.eq_def]
  simp only [ne_eq, isType_expansion, not_false_eq_true, if_true, type_expansion, subtype_expansion]

theorem parseWords_encode (r : VTPRecord) (ws : List UInt32) (v : VTPBank) :
    parseWords (r.encode ++ ws) v = parseWords ws (v.add r) := by
  cases r with
  | continuation fields => exact parseWords_continuation fields ws v
  | unknownType type fields h => exact parseWords_unknownType fields ws v h
  | unknownSubtype subtype fields h => exact parseWords_unknownSubtype fields ws v h
  | cluster E Y X unused N T =>
    simp only [encode, List.cons_append, List.nil_append]
    rw [parseWords.eq_def]
    simp only [ne_eq, isType_expansion, not_false_eq_true, if_true, type_expansion,
      subtype_expansion]
    -- the second word is looked at again, and passed over
    exact parseWords_continuation _ ws _
  | singleTrig | pairTrig | calibTrig | multTrig | feeTrig =>
    simp only [encode, List.cons_append, List.nil_append]
    rw [parseWords.eq_def]
    simp only [ne_eq, isType_expansion, not_false_eq_true, if_true, type_expansion,
      subtype_expansion]
    rfl
  | _ =>
    simp only [encode, List.cons_append, List.nil_append]
    rw [parseWords.eq_def]
    simp only [ne_eq, isType_word, not_false_eq_true, if_true, type_word]
    rfl

theorem parseWords_records (rs : List VTPRecord) (v : VTPBank) :
    parseWords (rs.flatMap encode) v = .ok (rs.foldl add v) := by
  induction rs generalizing v with
  | nil => rfl
  | cons r rs ih => rw [List.flatMap_cons, parseWords_encode, ih, List.foldl_cons]

end VTPBank

namespace VTPRecord

theorem read_blockHeader (slotid : BitVec 5) (unused : BitVec 4) (blockNumber : BitVec 10)
    (blockLevel : BitVec 8) :
    (BlockHeader.read.run (word 0 (slotid ++ unused ++ blockNumber ++ blockLevel)).toNat).1 =
      { blocklevel := blockLevel, blocknum := blockNumber, nothing := unused, slotid, type := 0,
        istype := 1 } := by
  have h : (word 0 (slotid ++ unused ++ blockNumber ++ blockLevel)).toNat =
      (1#1 ++ 0#4 ++ slotid ++ unused ++ blockNumber ++ blockLevel).toNat := by
    simp only [toNat_word, BitVec.toNat_append_add]
    simp
    ring
  rw [h]
  simp only [BlockHeader.read, run_field_append, run_field_last]
  rfl

theorem read_blockTail (slotid : BitVec 5) (nwords : BitVec 22) :
    (BlockTail.read.run (word 1 (slotid ++ nwords)).toNat).1 =
      { nwords, slotid, type := 1, istype := 1 } := by
  have h : (word 1 (slotid ++ nwords)).toNat = (1#1 ++ 1#4 ++ slotid ++ nwords).toNat := by
    simp only [toNat_word, BitVec.toNat_append_add]
    simp
    ring
  rw [h]
  simp only [BlockTail.read, run_field_append, run_field_last]
  rfl

theorem read_eventHeader (eventnum : BitVec 27) :
    (EventHeader.read.run (word 2 eventnum).toNat).1 = { eventnum, type := 2, istype := 1 } := by
  have h : (word 2 eventnum).toNat = (1#1 ++ 2#4 ++ eventnum).toNat := rfl
  rw [h]
  simp only [EventHeader.read, run_field_append, run_field_last]
  rfl

theorem read_multTrig (inst : BitVec 1) (multTot multBot multTop : BitVec 4) (T : BitVec 10) :
    (HPSClusterMult_t.read.run
        (expansion 6 (inst ++ multTot ++ multBot ++ multTop ++ T)).toNat).1 =
      { T, multtop := multTop, multbot := multBot, multtot := multTot, bitinst := inst,
        subtype := 6, type := 12, istype := 1 } := by
  have h : (expansion 6 (inst ++ multTot ++ multBot ++ multTop ++ T)).toNat =
      (1#1 ++ 12#4 ++ 6#4 ++ inst ++ multTot ++ multBot ++ multTop ++ T).toNat := by
    simp only [expansion, toNat_word, BitVec.toNat_append_add]
    simp
    ring
  rw [h]
  simp only [HPSClusterMult_t.read, run_field_append, run_field_last]
  rfl

theorem read_feeTrig (reserved : BitVec 6) (region : BitVec 7) (T : BitVec 10) :
    (HPSFEETrig_t.read.run (expansion 7 (reserved ++ region ++ T)).toNat).1 =
      { T, region, reserved, subtype := 7, type := 12, istype := 1 } := by
  have h : (expansion 7 (reserved ++ region ++ T)).toNat =
      (1#1 ++ 12#4 ++ 7#4 ++ reserved ++ region ++ T).toNat := by
    simp only [expansion, toNat_word, BitVec.toNat_append_add]
    simp
    ring
  rw [h]
  simp only [HPSFEETrig_t.read, run_field_append, run_field_last]
  rfl

theorem toNat_clusterWords (w c : UInt32) :
    (w.toUInt64 + c.toUInt64 <<< 32).toNat = c.toNat * 2 ^ 32 + w.toNat := by
  have hw : w.toNat < 2 ^ 32 := w.toNat_lt
  have hc : c.toNat < 2 ^ 32 := c.toNat_lt
  rw [UInt64.toNat_add, UInt64.toNat_shiftLeft]
  simp [Nat.shiftLeft_eq]
  omega

theorem read_cluster (E : BitVec 13) (Y : BitVec 4) (X : BitVec 6) (unused : BitVec 17)
    (N : BitVec 4) (T : BitVec 10) :
    (HPSCluster_t.read.run ((expansion 2 (E ++ Y ++ X)).toUInt64 +
        (continuationWord (unused ++ N ++ T)).toUInt64 <<< 32).toNat).1 =
      { X := X.toInt, Y := Y.toInt, E, subtype := 2, type := 12, istype := 1, T, N,
        nothing := 0#1 ++ unused } := by
  have h : ((expansion 2 (E ++ Y ++ X)).toUInt64 +
      (continuationWord (unused ++ N ++ T)).toUInt64 <<< 32).toNat =
        (0#1 ++ unused ++ N ++ T ++ 1#1 ++ 12#4 ++ 2#4 ++ E ++ Y ++ X).toNat := by
    have hc : (continuationWord (unused ++ N ++ T)).toNat = (0#1 ++ (unused ++ N ++ T)).toNat := rfl
    rw [toNat_clusterWords, hc]
    simp only [expansion, toNat_word, BitVec.toNat_append_add]
    simp
    ring
  rw [h]
  simp only [HPSCluster_t.read, run_field_append, run_field_last]
  rfl

end VTPRecord

namespace VTPBank

open VTPRecord

variable {β : Type}

theorem foldl_add_list {f : VTPBank → List β} {g : VTPRecord → Option β}
    (h : ∀ v r, f (v.add r) = f v ++ (g r).toList) (rs : List VTPRecord) (v : VTPBank) :
    f (rs.foldl add v) = f v ++ rs.filterMap g := by
  induction rs generalizing v with
  | nil => simp
  | cons r rs ih =>
    rw [List.foldl_cons, ih, h]
    cases hg : g r <;> simp [hg]

theorem foldl_add_length {f : VTPBank → List β} {p : VTPRecord → Bool}
    (h : ∀ v r, (f (v.add r)).length = (f v).length + if p r then 1 else 0)
    (rs : List VTPRecord) (v : VTPBank) :
    (f (rs.foldl add v)).length = (f v).length + rs.countP p := by
  induction rs generalizing v with
  | nil => simp
  | cons r rs ih =>
    rw [List.foldl_cons, ih, h, List.countP_cons, Nat.add_assoc, Nat.add_comm (rs.countP p)]

theorem foldl_add_last {f : VTPBank → β} {g : VTPRecord → Option β}
    (h : ∀ v r, f (v.add r) = (g r).getD (f v)) (rs : List VTPRecord) (v : VTPBank) :
    f (rs.foldl add v) = (rs.filterMap g).getLast?.getD (f v) := by
  induction rs generalizing v with
  | nil => rfl
  | cons r rs ih =>
    rw [List.foldl_cons, ih, h]
    cases hg : g r with
    | none => simp [hg]
    | some b => cases hl : (rs.filterMap g).getLast? <;> simp [hg, List.getLast?_cons, hl]

theorem clusterRecords_add (v : VTPBank) (r : VTPRecord) :
    (v.add r).clusterRecords = v.clusterRecords ++ r.cluster?.toList := by
  cases r with
  | cluster =>
    simp only [add, clusterRecords, cluster?, List.map_append, List.map_cons, List.map_nil, read_cluster,
      Option.toList_some]
  | _ => simp [add, clusterRecords, cluster?]

theorem multRecords_add (v : VTPBank) (r : VTPRecord) :
    (v.add r).multRecords = v.multRecords ++ r.multTrig?.toList := by
  cases r with
  | multTrig =>
    simp only [add, multRecords, multTrig?, List.map_append, List.map_cons, List.map_nil, read_multTrig,
      Option.toList_some]
  | _ => simp [add, multRecords, multTrig?]

theorem feeRecords_add (v : VTPBank) (r : VTPRecord) :
    (v.add r).feeRecords = v.feeRecords ++ r.feeTrig?.toList := by
  cases r with
  | feeTrig =>
    simp only [add, feeRecords, feeTrig?, List.map_append, List.map_cons, List.map_nil, read_feeTrig,
      Option.toList_some]
  | _ => simp [add, feeRecords, feeTrig?]

theorem blockHeaderRecord_add (v : VTPBank) (r : VTPRecord) :
    (v.add r).blockHeaderRecord = r.blockHeader?.getD v.blockHeaderRecord := by
  cases r with
  | blockHeader => simp only [add, blockHeaderRecord, blockHeader?, read_blockHeader, Option.getD_some]
  | _ => simp only [add, blockHeaderRecord, blockHeader?, Option.getD_none]

theorem blockTailRecord_add (v : VTPBank) (r : VTPRecord) :
    (v.add r).blockTailRecord = r.blockTail?.getD v.blockTailRecord := by
  cases r with
  | blockTail => simp only [add, blockTailRecord, blockTail?, read_blockTail, Option.getD_some]
  | _ => simp only [add, blockTailRecord, blockTail?, Option.getD_none]

theorem eventHeaderRecord_add (v : VTPBank) (r : VTPRecord) :
    (v.add r).eventHeaderRecord = r.eventHeader?.getD v.eventHeaderRecord := by
  cases r with
  | eventHeader => simp only [add, eventHeaderRecord, eventHeader?, read_eventHeader, Option.getD_some]
  | _ => simp only [add, eventHeaderRecord, eventHeader?, Option.getD_none]

/-- `ParseBank` on the words of records leaves the records, by kind and in their order. -/
theorem parseBank_records (rs : List VTPRecord) (v : VTPBank) :
    ∃ u, parseBank (rs.flatMap encode) v = .ok u ∧
      u.clusterRecords = rs.filterMap cluster? ∧
      u.multRecords = rs.filterMap multTrig? ∧
      u.feeRecords = rs.filterMap feeTrig? ∧
      u.singletrigs.length = rs.countP isSingleTrig ∧
      u.pairtrigs.length = rs.countP isPairTrig ∧
      u.calibtrigs.length = rs.countP isCalibTrig ∧
      u.blockHeaderRecord = (rs.filterMap blockHeader?).getLast?.getD v.blockHeaderRecord ∧
      u.blockTailRecord = (rs.filterMap blockTail?).getLast?.getD v.blockTailRecord ∧
      u.eventHeaderRecord = (rs.filterMap eventHeader?).getLast?.getD v.eventHeaderRecord := by
  refine ⟨rs.foldl add v.clear, parseWords_records rs v.clear, ?_, ?_, ?_, ?_, ?_, ?_, ?_, ?_, ?_⟩
  · exact foldl_add_list clusterRecords_add rs v.clear
  · exact foldl_add_list multRecords_add rs v.clear
  · exact foldl_add_list feeRecords_add rs v.clear
  · have hadd (v : VTPBank) (r : VTPRecord) : (v.add r).singletrigs.length =
        v.singletrigs.length + if r.isSingleTrig then 1 else 0 := by
      cases r <;> simp [add, isSingleTrig]
    simpa [clear] using foldl_add_length hadd rs v.clear
  · have hadd (v : VTPBank) (r : VTPRecord) : (v.add r).pairtrigs.length =
        v.pairtrigs.length + if r.isPairTrig then 1 else 0 := by
      cases r <;> simp [add, isPairTrig]
    simpa [clear] using foldl_add_length hadd rs v.clear
  · have hadd (v : VTPBank) (r : VTPRecord) : (v.add r).calibtrigs.length =
        v.calibtrigs.length + if r.isCalibTrig then 1 else 0 := by
      cases r <;> simp [add, isCalibTrig]
    simpa [clear] using foldl_add_length hadd rs v.clear
  · exact foldl_add_last blockHeaderRecord_add rs v.clear
  · exact foldl_add_last blockTailRecord_add rs v.clear
  · exact foldl_add_last eventHeaderRecord_add rs v.clear

end VTPBank

end EvioTool
