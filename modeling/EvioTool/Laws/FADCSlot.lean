import EvioTool.Defs.FADCSlot
import EvioTool.Laws.Fillers

namespace EvioTool

open Lib Exec

variable {mem : Mem} {σ : Type} {s : σ} {f : FADCFormat} {cbuf indx : Int} {d : FADCdata}

theorem returns_readLE {who : Reader} {b : Int} {bs : List UInt8} (h : mem.HoldsBytes b bs) :
    Returns (readLE mem who b bs.length) s (leNat bs) s := by
  simp [readLE, h.bytes]

theorem returns_readLE_toBytes {who : Reader} {b : Int} {w n : Nat} (hn : n < 256 ^ w)
    (h : mem.HoldsBytes b (toBytes w n)) : Returns (readLE mem who b w) s n s := by
  have hr : Returns (readLE mem who b (toBytes w n).length) s _ s := returns_readLE h
  rwa [length_toBytes, leNat_toBytes, Nat.mod_eq_of_lt hn] at hr

theorem returns_readLE_byte {who : Reader} {b : Int} {x : UInt8} (h : mem.HoldsBytes b [x]) :
    Returns (readLE mem who b 1) s x.toNat s := by
  have hr : Returns (readLE mem who b [x].length) s _ s := returns_readLE h
  simpa [leNat] using hr

theorem returns_getNext_toBytes {w n : Nat} (hn : n < 256 ^ w) (hfit : FitsInt (indx + w))
    (h : mem.HoldsBytes (cbuf + indx) (toBytes w n)) :
    Returns (FADCdata.getNext mem cbuf indx w) s (n, indx + w) s :=
  FADCdata.returns_getNext.mpr ⟨returns_readLE_toBytes hn h, hfit, rfl⟩

theorem returns_getNext_byte {x : UInt8} (hfit : FitsInt (indx + 1))
    (h : mem.HoldsBytes (cbuf + indx) [x]) :
    Returns (FADCdata.getNext mem cbuf indx 1) s (x.toNat, indx + 1) s :=
  FADCdata.returns_getNext.mpr ⟨returns_readLE_byte h, hfit, rfl⟩

namespace FADCFormat

/-- What is read at an entry of the format. -/
def read (mem : Mem) (cbuf : Int) (d : FADCdata) :
    FADCFormat → Int → Exec Halt Obs σ (FADCdata × Int)
  | samples => FADCdata.ofSamples mem cbuf d
  | values => FADCdata.ofValue mem cbuf d
  | chanVals => FADCdata.ofChanVal mem cbuf d

theorem readHits_eq (f : FADCFormat) :
    (FADCdata.readHits mem f.tag cbuf d indx : Exec Halt Obs σ _) =
      FADCdata.readEntries mem cbuf (f.read mem cbuf d) indx := by
  cases f <;> rfl

theorem returns_ofSamples {chan : UInt8} {ss : List UInt16} (hi : 0 ≤ indx)
    (hl : indx + (entryBytes .samples (chan, ss)).length < 2 ^ 31)
    (hm : mem.HoldsBytes (cbuf + indx) (entryBytes .samples (chan, ss))) :
    Returns (FADCdata.ofSamples mem cbuf d indx) s
      ({ d with chan, samples := ss }, indx + (entryBytes .samples (chan, ss)).length) s := by
  have hlen : (entryBytes .samples (chan, ss)).length = 5 + ss.length * 2 := by
    simp [entryBytes]
    ring
  rw [hlen] at hl
  obtain ⟨hchan, hrest⟩ := hm.cons
  obtain ⟨hcount, hss⟩ := hrest.append
  rw [add_assoc cbuf] at hcount hss
  rw [length_toBytes, add_assoc cbuf] at hss
  have helems := hss.elems (n := ss.length) (w := 2) (by simp)
  have hpack := elements_pack 2 (ss.map UInt16.toBitVec) []
  rw [List.append_nil, List.length_map] at hpack
  have hn : toInt32 (ss.length : Int) = ss.length := toInt32_eq (by omega) (by omega)
  rw [FADCdata.ofSamples]
  refine (returns_getNext_byte ⟨by omega, by omega⟩ hchan).bind
    ((returns_getNext_toBytes (by norm_num; omega) ⟨by omega, by omega⟩ hcount).bind ?_)
  simp only [hn, show ¬(ss.length : Int) < 0 by omega, if_false, Int.toNat_natCast]
  refine (returns_tell (r := ()).mpr rfl).bind ((returns_demand.mpr ⟨helems, rfl⟩).bind ?_)
  refine (returns_int32.mpr ⟨⟨by omega, by omega⟩, rfl, rfl⟩).bind
    ((returns_int32.mpr ⟨⟨by omega, by omega⟩, rfl, rfl⟩).bind ?_)
  rw [returns_pure, hpack, hlen]
  simp [Function.comp_def]
  ring

theorem returns_ofValue {v : UInt32} (hi : 0 ≤ indx)
    (hl : indx + (entryBytes .values v).length < 2 ^ 31)
    (hm : mem.HoldsBytes (cbuf + indx) (entryBytes .values v)) :
    Returns (FADCdata.ofValue mem cbuf d indx) s
      ({ d with iAdc := v }, indx + (entryBytes .values v).length) s := by
  have hlen : (entryBytes .values v).length = 4 := length_toBytes _ _
  rw [hlen] at hl ⊢
  refine (returns_getNext_toBytes v.toNat_lt ⟨by omega, by omega⟩ hm).bind ?_
  simp

theorem returns_ofChanVal {chan : UInt8} {val : UInt16} (hi : 0 ≤ indx)
    (hl : indx + (entryBytes .chanVals (chan, val)).length < 2 ^ 31)
    (hm : mem.HoldsBytes (cbuf + indx) (entryBytes .chanVals (chan, val))) :
    Returns (FADCdata.ofChanVal mem cbuf d indx) s
      ({ d with chan, adc := val }, indx + (entryBytes .chanVals (chan, val)).length) s := by
  have hlen : (entryBytes .chanVals (chan, val)).length = 3 := by simp [entryBytes]
  rw [hlen] at hl ⊢
  obtain ⟨hchan, hval⟩ := hm.cons
  rw [add_assoc cbuf] at hval
  refine (returns_getNext_byte ⟨by omega, by omega⟩ hchan).bind
    ((returns_getNext_toBytes val.toNat_lt ⟨by omega, by omega⟩ hval).bind ?_)
  simp [add_assoc]

theorem returns_read {f : FADCFormat} {e : f.Entry} (hi : 0 ≤ indx)
    (hl : indx + (f.entryBytes e).length < 2 ^ 31)
    (hm : mem.HoldsBytes (cbuf + indx) (f.entryBytes e)) :
    Returns (f.read mem cbuf d indx) s (f.hit d e, indx + (f.entryBytes e).length) s := by
  cases f with
  | samples => exact returns_ofSamples hi hl hm
  | values => exact returns_ofValue hi hl hm
  | chanVals => exact returns_ofChanVal hi hl hm

theorem length_entryBytes_pos {f : FADCFormat} (e : f.Entry) : 0 < (f.entryBytes e).length := by
  cases f with
  | values => simp [entryBytes]
  | samples | chanVals =>
    obtain ⟨chan, x⟩ := e
    simp [entryBytes]

end FADCFormat

namespace FADCSlot

theorem returns_repeatEntry {es : List f.Entry} (hi : 0 ≤ indx)
    (hl : indx + (es.flatMap f.entryBytes).length < 2 ^ 31)
    (hm : mem.HoldsBytes (cbuf + indx) (es.flatMap f.entryBytes)) :
    Returns (FADCdata.repeatEntry (f.read mem cbuf d) es.length indx) s
      (es.map (f.hit d), indx + (es.flatMap f.entryBytes).length) s := by
  induction es generalizing indx with
  | nil => simp [FADCdata.repeatEntry]
  | cons e es ih =>
    simp only [List.flatMap_cons, List.length_append, Nat.cast_add] at hl hm ⊢
    obtain ⟨he, hes⟩ := hm.append
    rw [add_assoc] at hes
    refine (FADCFormat.returns_read hi (by omega) he).bind ((ih (by omega) (by omega) hes).bind ?_)
    simp [add_assoc]

theorem length_bytes (x : FADCSlot f) :
    x.bytes.length = 17 + (x.entries.flatMap f.entryBytes).length := by
  simp only [bytes, List.length_cons, List.length_append, length_toBytes]
  omega

theorem length_entries_le (es : List f.Entry) : es.length ≤ (es.flatMap f.entryBytes).length := by
  induction es with
  | nil => simp
  | cons e es ih =>
    have he := FADCFormat.length_entryBytes_pos e
    rw [List.flatMap_cons, List.length_append, List.length_cons]
    omega

theorem returns_readEntries {es : List f.Entry} (hi : 0 ≤ indx)
    (hl : indx + 4 + (es.flatMap f.entryBytes).length < 2 ^ 31)
    (hm : mem.HoldsBytes (cbuf + indx) (toBytes 4 es.length ++ es.flatMap f.entryBytes)) :
    Returns (FADCdata.readEntries mem cbuf (f.read mem cbuf d) indx) s
      (es.map (f.hit d), indx + 4 + (es.flatMap f.entryBytes).length) s := by
  obtain ⟨hcount, hes⟩ := hm.append
  have hn := length_entries_le es
  have hint : toInt32 (es.length : Int) = es.length := toInt32_eq (by omega) (by omega)
  rw [length_toBytes, add_assoc] at hes
  refine (returns_getNext_toBytes (by norm_num; omega) ⟨by omega, by omega⟩ hcount).bind ?_
  simp only [hint, Int.toNat_natCast]
  exact returns_repeatEntry (by omega) hl hes

theorem returns_readSlots {slots : List (FADCSlot f)} {pad : List UInt8} {crate : UInt8}
    {buflen : Int} {k : Nat} (hk : slots.length < k) (hpad : pad.length < 4)
    (hi : 0 ≤ indx) (hend : indx + (slots.flatMap bytes).length + pad.length = buflen + 4)
    (hu : buflen < 2 ^ 31 - 4) (hm : mem.HoldsBytes (cbuf + indx) (slots.flatMap bytes)) :
    Returns (FADCdata.readSlots mem crate f.tag cbuf buflen k indx) s
      (slots.flatMap (hits crate)) s := by
  induction slots generalizing indx k with
  | nil =>
    obtain ⟨k, rfl⟩ := Nat.exists_eq_add_of_le' (Nat.one_le_of_lt hk)
    simp only [List.flatMap_nil, List.length_nil] at hend
    rw [FADCdata.readSlots, if_neg (by omega)]
    simp
  | cons x slots ih =>
    obtain ⟨k, rfl⟩ := Nat.exists_eq_add_of_le' (Nat.one_le_of_lt hk)
    simp only [List.length_cons] at hk
    simp only [List.flatMap_cons, List.length_append, Nat.cast_add, length_bytes, Nat.cast_ofNat]
      at hend hm ⊢
    obtain ⟨hx, hrest⟩ := hm.append
    obtain ⟨hslot, hx⟩ := hx.cons
    obtain ⟨htrig, hx⟩ := hx.append
    obtain ⟨htime, hx⟩ := hx.append
    rw [length_toBytes] at htime hx
    rw [length_toBytes] at hx
    simp only [add_assoc cbuf] at htrig htime hx
    rw [length_bytes, add_assoc] at hrest
    rw [FADCdata.readSlots, if_pos (by omega)]
    refine (returns_getNext_byte ⟨by omega, by omega⟩ hslot).bind
      ((returns_getNext_toBytes x.trig.toNat_lt ⟨by omega, by omega⟩ htrig).bind
        ((returns_getNext_toBytes x.time.toNat_lt ⟨by omega, by omega⟩ htime).bind ?_))
    simp only [UInt8.ofNat_toNat, UInt32.ofNat_toNat, UInt64.ofNat_toNat, FADCFormat.readHits_eq]
    refine (returns_readEntries (by omega) (by omega) hx).bind ?_
    have hnext : indx + 1 + (4 : Nat) + (8 : Nat) + 4 +
        ((x.entries.flatMap f.entryBytes).length : Int) =
        indx + ((17 + (x.entries.flatMap f.entryBytes).length : Nat) : Int) := by
      push_cast
      ring
    refine (ih (by omega) (by omega) (by push_cast at hend ⊢; omega)
      (by rwa [hnext])).bind ?_
    simp [hits]

end FADCSlot

section Payload

variable {slots : List (FADCSlot f)} {head dataTag : UInt32} {format data : List UInt32}
  {buf : Int} {fill loc : Nat} {crate : UInt8} {fAutoAdd : Bool} {num : UInt8} {tag : UInt16}
  {b c : BankInfo} {l : Leaf .fadc}

def fadcStr (tag : UInt16) (num : UInt8) : String :=
  "FADC-" ++ toString tag.toNat ++ "-" ++ toString num.toNat

theorem returns_addOrFillLeafFADCdata {r : Int} {e : BankInfo}
    (hleaf : b.leafFor fAutoAdd .fadc (fadcStr tag num) "Auto added string leaf" tag num =
      some (loc, c)) (hloc : c.leafs[loc]? = some ⟨.fadc, l⟩) :
    Returns (addOrFillLeafFADCdata fAutoAdd mem fill buf tag num) b r e ↔
      ∃ xs, Returns (FADCdata.read mem fill c.thisTag.toUInt8 tag buf) c xs c ∧ r = 1 ∧
        e = c.setLeaf loc ⟨.fadc, l.pushDataArray xs⟩ := by
  have hlt : loc < c.leafs.length := (List.getElem?_eq_some_iff.mp hloc).1
  have hplain : l.cls = .leaf := by
    cases l.cls
    rfl
  have hfind : Returns (findOrAddLeaf fAutoAdd .fadc (fadcStr tag num) "Auto added string leaf"
      tag num) b (some loc) c := by
    rw [Returns, findOrAddLeaf_eq, hleaf]
    exact ⟨rfl, rfl⟩
  have hcall (xs : List FADCdata) (d : BankInfo) :
      Returns (callBack loc) (c.setLeaf loc ⟨.fadc, l.pushDataArray xs⟩) () d ↔
        d = c.setLeaf loc ⟨.fadc, l.pushDataArray xs⟩ :=
    returns_callBack_plain (l := l.pushDataArray xs) (by simp [hlt]) hplain
  rw [addOrFillLeafFADCdata, returns_bind]
  constructor
  · rintro ⟨x, d, hx, hfill⟩
    obtain ⟨rfl, rfl⟩ := hfind.det hx
    obtain ⟨d, hpush, hd, rfl⟩ := (returns_fillLeaf hloc).mp hfill
    simp only [returns_bind, returns_gets] at hpush
    obtain ⟨_, _, ⟨rfl, rfl⟩, xs, u, hxs, hpush⟩ := hpush
    obtain rfl := hxs.state_of_keeps fun _ => keeps_readFADC _ _ _ _
    obtain rfl := Option.some.inj
      ((BankInfo.pushLeaf_eq hloc xs).symm.trans (returns_pushLeaf.mp hpush))
    exact ⟨xs, hxs, rfl, (hcall xs e).mp hd⟩
  · rintro ⟨xs, hxs, rfl, rfl⟩
    refine ⟨_, _, hfind, (returns_fillLeaf hloc).mpr ⟨_, ?_, (hcall xs _).mpr rfl, rfl⟩⟩
    exact (returns_gets.mpr ⟨rfl, rfl⟩).bind (hxs.bind (returns_pushLeaf.mpr
      (BankInfo.pushLeaf_eq hloc xs)))

theorem toNat_dataLength (hl : data.length < 2 ^ 31) :
    (UInt32.ofNat (data.length + 1)).toNat = data.length + 1 ∧
      toInt32 (((data.length + 1 : Nat) : Int) - 1) = data.length := by
  refine ⟨UInt32.toNat_ofNat_of_lt' (by norm_num; omega), ?_⟩
  rw [toInt32_eq] <;> push_cast <;> omega

theorem returns_readFADC (hp : Packs slots head format data) (hl : data.length < 2 ^ 29)
    (hm : mem.Holds buf (fadcPayload head format dataTag data)) (hf : slots.length < fill) :
    Returns (FADCdata.read mem fill crate f.tag buf) s (slots.flatMap (FADCSlot.hits crate)) s := by
  obtain ⟨hformat, pad, hpad, hdata⟩ := hp
  have hhead := hm.head
  have htail := hm.tail.append.2
  have hlen := htail.head
  have hbytes := htail.tail.tail.bytes
  rw [hdata] at hbytes
  obtain ⟨hcount, hint⟩ := toNat_dataLength (show data.length < 2 ^ 31 by omega)
  have htotal := congrArg List.length hdata
  rw [Mem.length_wordBytes, List.length_append] at htotal
  have hfour : FitsInt ((data.length : Int) * 4) := ⟨by omega, by omega⟩
  have hless : FitsInt ((data.length : Int) * 4 - 4) := ⟨by omega, by omega⟩
  rw [FADCdata.read]
  refine (returns_readWord.mpr ⟨hhead, rfl⟩).bind ?_
  simp only [hformat]
  refine (returns_readWord.mpr ⟨hlen, rfl⟩).bind ?_
  simp only [hcount, hint]
  refine (returns_int32.mpr ⟨hfour, rfl, rfl⟩).bind ((returns_int32.mpr ⟨hless, rfl, rfl⟩).bind ?_)
  refine FADCSlot.returns_readSlots hf hpad le_rfl (by omega) (by omega) ?_
  convert hbytes.append.1 using 1
  ring

/-- The leaf gets the records of the slots, in order, with the tag of the bank for a crate. -/
theorem addOrFillLeafFADCdata_slots (hp : Packs slots head format data)
    (hl : data.length < 2 ^ 29) (hm : mem.Holds buf (fadcPayload head format dataTag data))
    (hf : slots.length < fill)
    (hleaf : b.leafFor fAutoAdd .fadc (fadcStr f.tag num) "Auto added string leaf" f.tag num =
      some (loc, c)) (hloc : c.leafs[loc]? = some ⟨.fadc, l⟩) :
    Returns (addOrFillLeafFADCdata fAutoAdd mem fill buf f.tag num) b 1
      (c.setLeaf loc
        ⟨.fadc, l.pushDataArray (slots.flatMap (FADCSlot.hits b.thisTag.toUInt8))⟩) := by
  have htag : c.thisTag = b.thisTag := by
    unfold BankInfo.leafFor at hleaf
    split at hleaf
    · cases hleaf
      rfl
    · split at hleaf
      · cases hleaf
        rfl
      · cases hleaf
  rw [returns_addOrFillLeafFADCdata hleaf hloc, htag]
  exact ⟨_, returns_readFADC hp hl hm hf, rfl, rfl⟩

end Payload

def fadcLeaf : Leaf .fadc := { name := "FADC", title := "", tag := 57601, num := 0 }

def fadcNode : BankInfo :=
  { name := "crate", title := "", tags := [0x25], thisTag := 0x125, leafs := [⟨_, fadcLeaf⟩] }

def oneSlot : List (FADCSlot .samples) := [⟨3, 7, 9, [(2, [11, 12])]⟩]

def oneSlotData : List UInt32 := [0x00000703, 0x00000900, 0, 0x00000100, 0x00020200, 0x000B0000, 0x0C]

theorem oneSlot_packs : Packs oneSlot 0x00100001 [0] oneSlotData :=
  ⟨by decide, [0, 0], by decide, by decide⟩

theorem addOrFillLeafFADCdata_oneSlot :
    Returns (addOrFillLeafFADCdata false (Mem.ofList (fadcPayload 0x00100001 [0] 0x100 oneSlotData))
      2 0 57601 0) fadcNode 1 (fadcNode.setLeaf 0 ⟨.fadc, fadcLeaf.pushDataArray
        [{ crate := 0x25, slot := 3, chan := 2, trig := 7, reftime := 9, samples := [11, 12] }]⟩) := by
  have hm : (Mem.ofList (fadcPayload 0x00100001 [0] 0x100 oneSlotData)).Holds 0 _ := Mem.holds_ofList _
  have hleaf : fadcNode.leafFor false .fadc (fadcStr FADCFormat.samples.tag 0)
      "Auto added string leaf" FADCFormat.samples.tag 0 = some (0, fadcNode) := rfl
  have hloc : fadcNode.leafs[0]? = some ⟨.fadc, fadcLeaf⟩ := rfl
  have hf : oneSlot.length < 2 := by decide
  have hfill := addOrFillLeafFADCdata_slots oneSlot_packs (by decide) hm hf hleaf hloc
  exact hfill

section Huge

variable {buf : Int} {fill : Nat} {crate : UInt8} {tag : UInt16} {head dataTag : UInt32}
  {format data : List UInt32}

theorem not_returns_readFADC {xs : List FADCdata} {t : σ}
    (hformat : (head &&& 0xFFFF).toNat = format.length) (hl : 2 ^ 29 ≤ data.length)
    (hu : data.length < 2 ^ 31) (hm : mem.Holds buf (fadcPayload head format dataTag data)) :
    ¬Returns (FADCdata.read mem fill crate tag buf) s xs t := by
  have hhead := hm.head
  have hlen := hm.tail.append.2.head
  obtain ⟨hcount, hint⟩ := toNat_dataLength hu
  simp only [FADCdata.read, returns_bind, returns_readWord, returns_int32]
  rintro ⟨w, _, ⟨hw, rfl⟩, v, _, ⟨hv, rfl⟩, _, _, ⟨hfit, -⟩, -⟩
  rw [hhead] at hw
  cases hw
  rw [hformat, hlen] at hv
  cases hv
  rw [hcount, hint] at hfit
  have := hfit.2
  omega

end Huge

def hugeSlots : List (FADCSlot .values) := List.replicate (2 ^ 27) ⟨0, 0, 0, []⟩

def hugeData : List UInt32 := List.replicate (17 * 2 ^ 25) 0

theorem hugeSlots_packs : Packs hugeSlots 0 [] hugeData := by
  have hword (n : Nat) : Mem.wordBytes (List.replicate n 0) = List.replicate (n * 4) 0 := by
    have hzero : toBytes 4 (0 : UInt32).toNat = List.replicate 4 0 := rfl
    rw [Mem.wordBytes, List.flatMap_replicate, hzero, List.flatten_replicate_replicate]
  have hslot (n : Nat) : (List.replicate n (⟨0, 0, 0, []⟩ : FADCSlot .values)).flatMap
      FADCSlot.bytes = List.replicate (n * 17) 0 := by
    have hzero : (⟨0, 0, 0, []⟩ : FADCSlot .values).bytes = List.replicate 17 0 := rfl
    rw [List.flatMap_replicate, hzero, List.flatten_replicate_replicate]
  refine ⟨rfl, [], by decide, ?_⟩
  rw [hugeSlots, hugeData, hword, hslot, List.append_nil, show 17 * 2 ^ 25 * 4 = 2 ^ 27 * 17 by norm_num]

theorem addOrFillLeafFADCdata_huge :
    Packs hugeSlots 0 [] hugeData ∧
    fadcNode.leafFor true .fadc (fadcStr 57650 0) "Auto added string leaf" 57650 0 =
      some (1, fadcNode.addLeaf .fadc (fadcStr 57650 0) 57650 0 "Auto added string leaf") ∧
    ¬∃ F, ∀ fill, F ≤ fill → ∃ r e, Returns (addOrFillLeafFADCdata true
      (Mem.ofList (fadcPayload 0 [] 0 hugeData)) fill 0 57650 0) fadcNode r e := by
  have hlen : hugeData.length = 17 * 2 ^ 25 := List.length_replicate
  refine ⟨hugeSlots_packs, rfl, ?_⟩
  rintro ⟨F, hF⟩
  obtain ⟨r, e, hr⟩ := hF F le_rfl
  obtain ⟨xs, hxs, -⟩ := (returns_addOrFillLeafFADCdata rfl rfl).mp hr
  exact not_returns_readFADC rfl (by rw [hlen]; norm_num) (by rw [hlen]; norm_num)
    (Mem.holds_ofList _) hxs

end EvioTool
