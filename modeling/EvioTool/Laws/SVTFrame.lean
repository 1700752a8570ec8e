import EvioTool.Defs.SVTFrame
import EvioTool.Laws.AddOrFillLeaf
import EvioTool.Laws.Header

namespace EvioTool

open Lib Exec

/-- An `SVTBank` as its constructor leaves it: `SVTleaf` is one of its leaves. -/
structure BankInfo.HoldsSVT (b : BankInfo) (v : SVTBank) (l : Leaf (.prim .uint32)) : Prop where
  cls : b.cls = .svtBank v
  leaf : b.leafs[v.svtLeaf]? = some ⟨.prim .uint32, l⟩

variable {mem : Mem} {b : BankInfo} {u v : SVTBank} {l : Leaf (.prim .uint32)} {dat : Int}
  {i : UInt32}

theorem returns_readSVTWords {σ : Type} {s : σ} {a : Int} {x : SVTWords}
    (h : mem.Holds a x.words) : Returns (readSVTWords mem a) s x s := by
  have h0 : mem a = some x.w0 := h.head
  have h1 : mem (a + 1) = some x.w1 := h 1 (by simp [SVTWords.words])
  have h2 : mem (a + 2) = some x.w2 := h 2 (by simp [SVTWords.words])
  have h3 : mem (a + 3) = some x.w3 := h 3 (by simp [SVTWords.words])
  simp [readSVTWords, h0, h1, h2, h3]

theorem BankInfo.HoldsSVT.modify (h : b.HoldsSVT u l) {f : SVTBank → SVTBank}
    (hf : ∀ v, (f v).svtLeaf = v.svtLeaf) :
    ∃ c, Returns (modifySVT f) b () c ∧ c.HoldsSVT (f u) l := by
  refine ⟨{ b with cls := b.cls.mapSVT f }, by simp [modifySVT], ?_, ?_⟩
  · simp [h.cls, BankClass.mapSVT]
  · rw [hf]
    exact h.leaf

theorem BankInfo.HoldsSVT.when {m : Exec Halt Obs BankInfo Unit} {x : Bool} {u' : SVTBank}
    {l' : Leaf (.prim .uint32)} (hb : b.HoldsSVT u l)
    (hm : x = true → ∃ c, Returns m b () c ∧ c.HoldsSVT u' l') :
    ∃ c, Returns (Exec.when x m) b () c ∧
      c.HoldsSVT (if x then u' else u) (if x then l' else l) := by
  cases x with
  | true =>
    obtain ⟨c, hc, hcl⟩ := hm rfl
    exact ⟨c, returns_when_true.mpr ⟨(), hc⟩, hcl⟩
  | false => exact ⟨b, returns_when_false.mpr rfl, hb⟩

@[simp] theorem SVTWords.length_words (s : SVTWords) : s.words.length = 4 := rfl

@[simp] theorem SVTFrame.length_words (f : SVTFrame) :
    f.words.length = 4 * (f.samples.length + 2) := by
  have hs : (f.samples.flatMap SVTWords.words).length = f.samples.length * 4 := by
    simp [List.length_flatMap]
  simp only [words, List.length_append, SVTWords.length_words, hs]
  omega

namespace SVTBank

theorem returns_pushChan {s : SVTWords} (hb : b.HoldsSVT u l) (hs : s.isTail = false) :
    ∃ c, Returns (pushChan s) b () c ∧ c.HoldsSVT
      { u with svtData := u.svtData ++ [s].filter fun s => !s.isHeader } l := by
  cases hh : s.isHeader with
  | true =>
    refine ⟨b, ?_, by simpa [hh] using hb⟩
    simp [pushChan, hs, hh]
  | false =>
    obtain ⟨c, hc, hcl⟩ := hb.modify (f := fun v => { v with svtData := v.svtData ++ [s] })
      fun _ => rfl
    refine ⟨c, ?_, by simpa [hh] using hcl⟩
    simp only [pushChan, hs, hh, Bool.not_false, Bool.and_self]
    exact returns_when_true.mpr ⟨(), hc⟩

theorem returns_readChans {samples : List SVTWords} {frameEnd : UInt32} {n : Nat}
    (hm : mem.Holds (dat + i.toNat) (samples.flatMap SVTWords.words))
    (ht : ∀ s ∈ samples, s.isTail = false)
    (he : frameEnd.toNat = i.toNat + 4 * samples.length) (hn : samples.length < n)
    (hb : b.HoldsSVT u l) :
    ∃ c, Returns (readChans mem dat frameEnd n i) b frameEnd c ∧ c.HoldsSVT
      { u with svtData := u.svtData ++ samples.filter fun s => !s.isHeader } l := by
  induction samples generalizing b u i n with
  | nil =>
    obtain ⟨n, rfl⟩ := Nat.exists_eq_succ_of_ne_zero (Nat.ne_zero_of_lt hn)
    have hi : frameEnd = i := UInt32.toNat_inj.mp (by simpa using he)
    refine ⟨b, ?_, by simpa using hb⟩
    rw [readChans, if_neg (by simp [hi])]
    simp [hi]
  | cons s ss ih =>
    obtain ⟨n, rfl⟩ := Nat.exists_eq_succ_of_ne_zero (Nat.ne_zero_of_lt hn)
    simp only [List.length_cons] at he hn
    have hlt : frameEnd.toNat < 2 ^ 32 := frameEnd.toNat_lt
    have hi := UInt32.toNat_add_four (i := i) (by omega)
    rw [List.flatMap_cons] at hm
    obtain ⟨hs, hss⟩ := hm.append
    have hstart : dat + i.toNat + (s.words.length : Nat) = dat + (i + 4).toNat := by
      rw [hi]
      simp [SVTWords.words]
      omega
    rw [hstart] at hss
    obtain ⟨c, hc, hcl⟩ := returns_pushChan hb (ht s (by simp))
    obtain ⟨d, hd, hdl⟩ := ih (n := n) hss (fun x hx => ht x (by simp [hx])) (by omega) (by omega) hcl
    rw [List.append_assoc, ← List.filter_append, List.singleton_append] at hdl
    refine ⟨d, ?_, hdl⟩
    rw [readChans, if_pos (UInt32.lt_iff_toNat_lt.mpr (by omega))]
    exact (returns_readSVTWords hs).bind (hc.bind hd)

theorem returns_storeRaw {raw : List UInt32} (hm : mem.Holds dat raw) (hb : b.HoldsSVT u l)
    (hv : v.svtLeaf = u.svtLeaf) :
    ∃ c, Returns (storeRaw v mem dat raw.length) b () c ∧
      c.HoldsSVT u (l.pushDataArray (raw.map UInt32.toBitVec)) := by
  have hlt := (List.getElem?_eq_some_iff.mp hb.leaf).1
  have hread : Returns (readElems mem .svt .uint32 dat raw.length) b (raw.map UInt32.toBitVec) b :=
    returns_readElems.mpr ⟨by omega, hm.elems_words, rfl⟩
  refine ⟨b.setLeaf u.svtLeaf ⟨_, l.pushDataArray (raw.map UInt32.toBitVec)⟩, ?_, hb.cls, ?_⟩
  · rw [storeRaw, hv]
    exact hread.bind (returns_pushLeaf.mpr (BankInfo.pushLeaf_eq hb.leaf _))
  · simp [hlt]

theorem frameEnd_eq (f : SVTFrame) (hi : i.toNat + f.words.length < 2 ^ 32) :
    (i + f.header.totalEvtSize / 4 - 4).toNat = (i + 4).toNat + 4 * f.samples.length := by
  rw [SVTFrame.length_words] at hi
  have hsize := f.size
  have h4 : (4 : UInt32).toNat = 4 := rfl
  have hdiv : (f.header.totalEvtSize / 4).toNat = 4 * (f.samples.length + 2) := by
    rw [UInt32.toNat_div, hsize, h4]
    omega
  have hadd : (i + f.header.totalEvtSize / 4).toNat = i.toNat + 4 * (f.samples.length + 2) := by
    rw [UInt32.toNat_add, hdiv, Nat.mod_eq_of_lt (by omega)]
  rw [UInt32.toNat_sub_of_le _ _ (UInt32.le_iff_toNat_le.mpr (by omega)), hadd,
    UInt32.toNat_add_four (by omega)]
  omega

theorem lt_ofInt_iff {len : Nat} (h0 : 0 < len) (hlen : len < 2 ^ 31) :
    i < UInt32.ofInt (len - 1) ↔ i.toNat + 1 < len := by
  have hval : (UInt32.ofInt (len - 1)).toNat = len - 1 := by
    rw [UInt32.ofInt, UInt32.toNat_ofNat_of_lt'] <;> norm_num [UInt32.size] at * <;> omega
  rw [UInt32.lt_iff_toNat_lt, hval]
  omega

theorem returns_readFrames_cons {f : SVTFrame} {raw : List UInt32} {n : Nat}
    (hraw : mem.Holds dat raw) (hm : mem.Holds (dat + i.toNat) f.words)
    (hi : i.toNat + f.words.length < raw.length) (hlen : raw.length < 2 ^ 31)
    (hn : f.samples.length < n) (hb : b.HoldsSVT u l) (hleaf : v.svtLeaf = u.svtLeaf)
    (hhead : v.fSaveHeaders = u.fSaveHeaders) :
    ∃ c j, j.toNat = i.toNat + f.words.length ∧
      c.HoldsSVT (u.addFrames [f])
        (if v.fStoreRaw then l.pushDataArray (raw.map UInt32.toBitVec) else l) ∧
      ∀ d, Returns (readFrames v mem dat raw.length n j) c () d →
        Returns (readFrames v mem dat raw.length (n + 1) i) b () d := by
  rw [SVTFrame.length_words] at hi
  have hlt : i < UInt32.ofInt (raw.length - 1) := (lt_ofInt_iff (by omega) hlen).mpr (by omega)
  have hend := frameEnd_eq (i := i) f (by rw [SVTFrame.length_words]; omega)
  obtain ⟨hhs, ht⟩ := hm.append
  obtain ⟨hh, hs⟩ := hhs.append
  have hi4 := UInt32.toNat_add_four (i := i) (by omega)
  have hs' : mem.Holds (dat + (i + 4).toNat) (f.samples.flatMap SVTWords.words) := by
    rw [hi4]
    simpa [add_assoc] using hs
  have ht' : mem.Holds (dat + (i + f.header.totalEvtSize / 4 - 4).toNat) f.tail.words := by
    rw [hend, hi4]
    convert ht using 1
    simp [List.length_flatMap]
    omega
  obtain ⟨c₁, hc₁, hl₁⟩ := hb.when (x := v.fSaveHeaders)
    (m := modifySVT fun v => { v with svtHeaders := v.svtHeaders ++ [f.header] })
    fun _ => hb.modify fun _ => rfl
  obtain ⟨c₂, hc₂, hl₂⟩ := returns_readChans (n := n) hs' f.noTail hend hn hl₁
  obtain ⟨c₃, hc₃, hl₃⟩ := hl₂.when (x := v.fSaveHeaders)
    (m := modifySVT fun v => { v with svtTails := v.svtTails ++ [f.tail.w0] })
    fun _ => hl₂.modify fun _ => rfl
  have hl : c₃.HoldsSVT (u.addFrames [f]) l := by
    cases hf : v.fSaveHeaders <;> rw [hf] at hl₃ hhead <;>
      simpa [addFrames, SVTFrame.data, ← hhead] using hl₃
  obtain ⟨c₄, hc₄, hl₄⟩ := hl.when (x := v.fStoreRaw) (m := storeRaw v mem dat raw.length)
    fun _ => returns_storeRaw hraw hl hleaf
  rw [ite_self] at hl₄
  refine ⟨c₄, i + f.header.totalEvtSize / 4 - 4 + 4, ?_, hl₄, fun d hd => ?_⟩
  · rw [UInt32.toNat_add_four (by omega), hend, hi4, SVTFrame.length_words]
    omega
  · rw [readFrames, if_pos hlt]
    refine (returns_readSVTWords hh).bind (hc₁.bind (hc₂.bind ?_))
    exact (returns_readSVTWords ht').bind (hc₃.bind (hc₄.bind hd))

theorem addFrames_nil : u.addFrames [] = u := by
  cases u
  simp [addFrames]

theorem addFrames_cons (f : SVTFrame) (fs : List SVTFrame) :
    u.addFrames (f :: fs) = (u.addFrames [f]).addFrames fs := by
  cases h : u.fSaveHeaders <;> simp [addFrames, h]

def rawLeaf (v : SVTBank) (raw : List UInt32) (n : Nat) (l : Leaf (.prim .uint32)) :
    Leaf (.prim .uint32) :=
  (fun l => if v.fStoreRaw then l.pushDataArray (raw.map UInt32.toBitVec) else l)^[n] l

theorem returns_readFrames {frames : List SVTFrame} {raw : List UInt32} {n : Nat}
    (hraw : mem.Holds dat raw) (hm : mem.Holds (dat + i.toNat) (frames.flatMap SVTFrame.words))
    (hi : i.toNat + (frames.flatMap SVTFrame.words).length + 1 = raw.length)
    (hlen : raw.length < 2 ^ 31) (hn : (frames.flatMap SVTFrame.words).length < n)
    (hb : b.HoldsSVT u l) (hleaf : v.svtLeaf = u.svtLeaf)
    (hhead : v.fSaveHeaders = u.fSaveHeaders) :
    ∃ c, Returns (readFrames v mem dat raw.length n i) b () c ∧
      c.HoldsSVT (u.addFrames frames) (v.rawLeaf raw frames.length l) := by
  induction frames generalizing b u l i n with
  | nil =>
    obtain ⟨n, rfl⟩ := Nat.exists_eq_succ_of_ne_zero (Nat.ne_zero_of_lt hn)
    refine ⟨b, ?_, by rw [addFrames_nil]; exact hb⟩
    simp only [List.flatMap_nil, List.length_nil] at hi
    rw [readFrames, if_neg (by rw [lt_ofInt_iff (by omega) hlen]; omega)]
    simp
  | cons f fs ih =>
    obtain ⟨n, rfl⟩ := Nat.exists_eq_succ_of_ne_zero (Nat.ne_zero_of_lt hn)
    simp only [List.flatMap_cons, List.length_append] at hm hi hn
    obtain ⟨hf, hfs⟩ := hm.append
    have hflen := f.length_words
    obtain ⟨c, j, hj, hcl, hstep⟩ := returns_readFrames_cons (n := n) hraw hf (by omega) hlen
      (by omega) hb hleaf hhead
    have hfs' : mem.Holds (dat + j.toNat) (fs.flatMap SVTFrame.words) := by
      rw [hj]
      simpa [add_assoc] using hfs
    obtain ⟨d, hd, hdl⟩ := ih (n := n) hfs' (by omega) (by omega) hcl hleaf hhead
    rw [addFrames_cons]
    exact ⟨d, hstep d hd, hdl⟩

theorem returns_payload {lead trail : UInt32} {frames : List SVTFrame} (hb : b.HoldsSVT v l)
    (hm : mem.Holds dat (SVTFrame.payload lead frames trail))
    (hlen : (SVTFrame.payload lead frames trail).length < 2 ^ 31) (fill : Nat)
    (hfill : (SVTFrame.payload lead frames trail).length ≤ fill) :
    ∃ c, Returns (v.pushDataArray mem fill dat (SVTFrame.payload lead frames trail).length) b () c ∧
      c.HoldsSVT (v.addFrames frames)
        (v.rawLeaf (SVTFrame.payload lead frames trail) frames.length l) := by
  have hpay : (SVTFrame.payload lead frames trail).length =
      (frames.flatMap SVTFrame.words).length + 2 := by
    simp [SVTFrame.payload]
  have hsplit : SVTFrame.payload lead frames trail =
      [lead] ++ (frames.flatMap SVTFrame.words ++ [trail]) := rfl
  have hframes : mem.Holds (dat + (1 : UInt32).toNat) (frames.flatMap SVTFrame.words) := by
    rw [hsplit] at hm
    exact hm.append.2.append.1
  have h1 : (1 : UInt32).toNat = 1 := rfl
  exact returns_readFrames hm hframes (by omega) hlen (by omega) hb rfl rfl

/-- `PushDataArray` on a payload of frames adds what the frames hold to the bank. -/
theorem pushDataArray_frames {loc : Nat} {lead trail : UInt32} {frames : List SVTFrame}
    (hb : b.HoldsSVT v l) (hm : mem.Holds dat (SVTFrame.payload lead frames trail))
    (hlen : (SVTFrame.payload lead frames trail).length < 2 ^ 31) :
    ∃ F, ∀ fill, F ≤ fill → ∃ c, Returns (EvioTool.pushDataArray mem fill loc .uint32 dat
        (SVTFrame.payload lead frames trail).length) b () c ∧
      c.cls = .svtBank (v.addFrames frames) := by
  refine ⟨(SVTFrame.payload lead frames trail).length, fun fill hfill => ?_⟩
  obtain ⟨c, hc, hcl⟩ := returns_payload hb hm hlen fill hfill
  refine ⟨c, (returns_congr ?_).mpr hc, hcl.cls⟩
  rw [EvioTool.pushDataArray, gets_bind_apply, hb.cls]
  rfl

def oneSample : SVTFrame where
  header := ⟨0xB0000001, 0, 0, 0xA0003000⟩
  samples := [⟨0x00020001, 0x00040003, 0x00060005, 0⟩]
  tail := ⟨1, 0, 0, 0xA8000000⟩
  mark := by decide
  noTail := by decide
  size := by decide

def svtInfo (v : SVTBank) : BankInfo where
  name := "SVT"
  title := ""
  tags := [51]
  leafs := [⟨.prim .uint32, { name := "SVTLeaf", title := "", tag := 57648, num := 0 }⟩]
  cls := .svtBank v

theorem pushDataArray_oneSample :
    ∃ F, ∀ fill, F ≤ fill → ∃ c, Returns (EvioTool.pushDataArray
        (Mem.ofList (SVTFrame.payload 0 [oneSample, oneSample] 0)) fill 0 .uint32 0
        (SVTFrame.payload 0 [oneSample, oneSample] 0).length) (svtInfo { fSaveHeaders := true }) () c ∧
      c.cls = .svtBank (addFrames { fSaveHeaders := true } [oneSample, oneSample]) :=
  pushDataArray_frames ⟨rfl, rfl⟩ (Mem.holds_ofList _) (by decide)

end SVTBank

end EvioTool
