import EvioTool.Laws.Reads
import EvioTool.Laws.SVTFrame

namespace EvioTool

open Lib Exec

variable {mem : Mem} {words : List UInt32} {dat : Int} {b c : BankInfo} {v : SVTBank} {n : Nat}
  {i j frameEnd : UInt32}

def Obs.Inside (lo hi : Int) : Obs → Prop
  | .read _ b n => lo ≤ b ∧ b + n ≤ hi
  | _ => True

/-- Every run with enough steps returns, and reads inside the `len` words from `dat` on. -/
def ReadsPayload (dat len : Int) (b : BankInfo) (m : Nat → Exec Halt Obs BankInfo Unit) : Prop :=
  ∃ F, ∀ fill, F ≤ fill → ∃ c, Runs (Obs.Inside (4 * dat) (4 * (dat + len))) (m fill) b () c

/-- The leaf that raw words are stored in is there. -/
def BankInfo.HasRaw (b : BankInfo) (loc : Nat) : Prop :=
  ∃ l : Leaf (.prim .uint32), b.leafs[loc]? = some ⟨.prim .uint32, l⟩

abbrev InPayload (dat : Int) (words : List UInt32) : Obs → Prop :=
  Obs.Inside (4 * dat) (4 * (dat + words.length))

section

variable (hm : mem.Holds dat words)

include hm

theorem runs_readWord_iff {σ : Type} {s t : σ} {k : Nat} {w : UInt32} :
    Runs (InPayload dat words) (readWord mem .svt (dat + k)) s w t ↔
      k < words.length ∧ w = words.getD k 0 ∧ t = s := by
  have hinside : Obs.Inside (4 * dat) (4 * (dat + words.length)) (.read .svt (4 * (dat + k)) 4) ↔
      k < words.length := by
    simp only [Obs.Inside]
    omega
  have hget (hk : k < words.length) : mem (dat + k) = some (words.getD k 0) := by
    rw [hm k hk, List.getD_eq_getElem?_getD, List.getElem?_eq_getElem hk, Option.getD_some]
  rw [readWord, runs_bind]
  constructor
  · rintro ⟨_, _, htell, hdemand⟩
    obtain ⟨hin, rfl⟩ := runs_tell.mp htell
    have hk := hinside.mp hin
    obtain ⟨hw, rfl⟩ := runs_demand.mp hdemand
    exact ⟨hk, Option.some.inj (hw.symm.trans (hget hk)), rfl⟩
  · rintro ⟨hk, rfl, rfl⟩
    exact ⟨(), t, runs_tell.mpr ⟨hinside.mpr hk, rfl⟩, runs_demand.mpr ⟨hget hk, rfl⟩⟩

theorem runs_readSVTWords_iff {σ : Type} {s t : σ} {k : Nat} {x : SVTWords} :
    Runs (InPayload dat words) (readSVTWords mem (dat + k)) s x t ↔
      k + 4 ≤ words.length ∧ x = svtWordsAt words k ∧ t = s := by
  have h1 : dat + (k : Int) + 1 = dat + (k + 1 : Nat) := by omega
  have h2 : dat + (k : Int) + 2 = dat + (k + 2 : Nat) := by omega
  have h3 : dat + (k : Int) + 3 = dat + (k + 3 : Nat) := by omega
  simp only [readSVTWords, runs_bind, h1, h2, h3, runs_readWord_iff hm, runs_pure]
  constructor
  · rintro ⟨_, _, ⟨-, rfl, rfl⟩, _, _, ⟨-, rfl, rfl⟩, _, _, ⟨-, rfl, rfl⟩, _, _, ⟨hk, rfl, rfl⟩,
      rfl, rfl⟩
    exact ⟨by omega, rfl, rfl⟩
  · rintro ⟨hk, rfl, rfl⟩
    exact ⟨_, t, ⟨by omega, rfl, rfl⟩, _, t, ⟨by omega, rfl, rfl⟩, _, t, ⟨by omega, rfl, rfl⟩,
      _, t, ⟨by omega, rfl, rfl⟩, rfl, rfl⟩

omit hm in
theorem runs_modifySVT {P : Obs → Prop} (x : Bool) (f : SVTBank → SVTBank) :
    ∃ c, Runs P (when x (modifySVT f)) b () c ∧ c.leafs = b.leafs := by
  cases x with
  | false => exact ⟨b, runs_when_false.mpr rfl, rfl⟩
  | true => exact ⟨_, runs_when_true.mpr ⟨(), runs_modify.mpr rfl⟩, rfl⟩

namespace SVTBank

theorem runs_storeRaw {l : Leaf (.prim .uint32)}
    (hl : b.leafs[v.svtLeaf]? = some ⟨.prim .uint32, l⟩) :
    ∃ c, Runs (InPayload dat words) (storeRaw v mem dat words.length) b () c ∧
      c.leafs[v.svtLeaf]? = some ⟨_, l.pushDataArray (words.map UInt32.toBitVec)⟩ := by
  have hlt := (List.getElem?_eq_some_iff.mp hl).1
  have hread : Runs (InPayload dat words) (readElems mem .svt .uint32 dat words.length) b
      (words.map UInt32.toBitVec) b := by
    rw [readElems, if_neg (by omega)]
    refine runs_bind.mpr ⟨(), b, runs_tell.mpr ⟨?_, rfl⟩, runs_demand.mpr ⟨hm.elems_words, rfl⟩⟩
    simp only [Obs.Inside, Prim.width]
    omega
  have hpush : Runs (InPayload dat words) (pushLeaf v.svtLeaf (.prim .uint32)
      (words.map UInt32.toBitVec)) b ()
        (b.setLeaf v.svtLeaf ⟨_, l.pushDataArray (words.map UInt32.toBitVec)⟩) :=
    ⟨returns_pushLeaf.mpr (BankInfo.pushLeaf_eq hl _), logs_pushLeaf _ _ _⟩
  exact ⟨_, hread.bind hpush, by simp [hlt]⟩

theorem runs_readChans (frameEnd : UInt32) {k : Nat} (hend : i.toNat + 4 * k ≤ words.length)
    (hlen : words.length < 2 ^ 31) (hlast : k = 0 ∨ i.toNat + 4 * (k - 1) < frameEnd.toNat)
    (hstop : frameEnd.toNat ≤ i.toNat + 4 * k) (hn : k < n) :
    ∃ j c, j.toNat = i.toNat + 4 * k ∧
      Runs (InPayload dat words) (readChans mem dat frameEnd n i) b j c ∧ c.leafs = b.leafs := by
  induction k generalizing b i n with
  | zero =>
    obtain ⟨n, rfl⟩ := Nat.exists_eq_succ_of_ne_zero (Nat.ne_zero_of_lt hn)
    have hge : ¬i < frameEnd := by
      rw [UInt32.lt_iff_toNat_lt]
      omega
    refine ⟨i, b, rfl, ?_, rfl⟩
    rw [readChans, if_neg hge, runs_pure]
    exact ⟨rfl, rfl⟩
  | succ k ih =>
    obtain ⟨n, rfl⟩ := Nat.exists_eq_succ_of_ne_zero (Nat.ne_zero_of_lt hn)
    have hlt : i < frameEnd := by
      rw [UInt32.lt_iff_toNat_lt]
      omega
    have hi := UInt32.toNat_add_four (i := i) (by omega)
    obtain ⟨c, hc, hleafs⟩ := runs_modifySVT (b := b) (P := InPayload dat words)
      (!(svtWordsAt words i.toNat).isTail && !(svtWordsAt words i.toNat).isHeader)
      fun v => { v with svtData := v.svtData ++ [svtWordsAt words i.toNat] }
    obtain ⟨j, d, hj, hd, hleafs'⟩ := ih (b := c) (i := i + 4) (n := n) (by omega) (by omega)
      (by omega) (by omega)
    refine ⟨j, d, by omega, ?_, hleafs'.trans hleafs⟩
    rw [readChans, if_pos hlt]
    exact ((runs_readSVTWords_iff hm).mpr ⟨by omega, rfl, rfl⟩).bind (hc.bind hd)

theorem stop_of_runs (hlen : words.length < 2 ^ 31) (hi : i.toNat ≤ words.length)
    (h : Runs (InPayload dat words) (readChans mem dat frameEnd n i) b j c) :
    frameEnd.toNat ≤ j.toNat ∧ j.toNat ≤ words.length ∧
      ∃ k, j.toNat = i.toNat + 4 * k ∧ (k = 0 ∨ i.toNat + 4 * (k - 1) < frameEnd.toNat) := by
  induction n generalizing b i with
  | zero => exact absurd h runs_halt
  | succ n ih =>
    rw [readChans] at h
    split at h
    · rename_i hlt
      rw [UInt32.lt_iff_toNat_lt] at hlt
      obtain ⟨cn, _, hread, hrest⟩ := runs_bind.mp h
      obtain ⟨hle, rfl, rfl⟩ := (runs_readSVTWords_iff hm).mp hread
      obtain ⟨_, d, -, hchans⟩ := runs_bind.mp hrest
      have hi4 := UInt32.toNat_add_four (i := i) (by omega)
      obtain ⟨hstop, hj, k, hk, hlast⟩ := ih (by omega) hchans
      exact ⟨hstop, hj, k + 1, by omega, by omega⟩
    · rename_i hge
      rw [UInt32.lt_iff_toNat_lt] at hge
      obtain ⟨rfl, rfl⟩ := runs_pure.mp h
      exact ⟨by omega, hi, 0, by omega, .inl rfl⟩

omit hm in
theorem evtWords_lt (words : List UInt32) (k : Nat) : evtWords words k < 2 ^ 18 := by
  have h20 : (0xFFFFF : UInt32).toNat = 2 ^ 20 - 1 := rfl
  have hle : (svtWordsAt words k).totalEvtSize.toNat ≤ 2 ^ 20 - 1 := by
    rw [SVTWords.totalEvtSize, UInt32.toNat_and, h20]
    exact Nat.and_le_right
  rw [evtWords]
  omega

omit hm in
theorem toNat_frameEnd (words : List UInt32) (i : UInt32) :
    (i + (svtWordsAt words i.toNat).totalEvtSize / 4 - 4).toNat =
      (i.toNat + evtWords words i.toNat + (2 ^ 32 - 4)) % 2 ^ 32 := by
  have h4 : (4 : UInt32).toNat = 4 := rfl
  rw [UInt32.toNat_sub, UInt32.toNat_add, UInt32.toNat_div, h4, evtWords]
  omega

theorem runs_readFrames_turn (hi : 1 ≤ i.toNat) (hlen : words.length < 2 ^ 31)
    (hsize : 4 ≤ i.toNat + evtWords words i.toNat)
    (hend : i.toNat + turnWords words i.toNat ≤ words.length)
    (hn : words.length ≤ n + i.toNat) (hb : b.HasRaw v.svtLeaf) :
    ∃ j c, j.toNat = i.toNat + turnWords words i.toNat ∧ c.HasRaw v.svtLeaf ∧
      ∀ d, Runs (InPayload dat words) (readFrames v mem dat words.length n j) c () d →
        Runs (InPayload dat words) (readFrames v mem dat words.length (n + 1) i) b () d := by
  have hframe := toNat_frameEnd words i
  rw [turnWords] at hend ⊢
  have hi4 := UInt32.toNat_add_four (i := i) (by omega)
  have hlt : i < UInt32.ofInt (words.length - 1) := (lt_ofInt_iff (by omega) hlen).mpr (by omega)
  obtain ⟨c₁, hc₁, hl₁⟩ := runs_modifySVT (b := b) (P := InPayload dat words) v.fSaveHeaders
    fun v => { v with svtHeaders := v.svtHeaders ++ [svtWordsAt words i.toNat] }
  obtain ⟨j, c₂, hj, hc₂, hl₂⟩ := runs_readChans hm (b := c₁) (i := i + 4) (n := n)
    (i + (svtWordsAt words i.toNat).totalEvtSize / 4 - 4)
    (k := max 2 ((evtWords words i.toNat + 3) / 4) - 2) (by omega) hlen (by omega) (by omega)
    (by omega)
  obtain ⟨c₃, hc₃, hl₃⟩ := runs_modifySVT (b := c₂) (P := InPayload dat words) v.fSaveHeaders
    fun v => { v with svtTails := v.svtTails ++ [(svtWordsAt words j.toNat).w0] }
  have hb₃ : c₃.HasRaw v.svtLeaf := by
    rw [BankInfo.HasRaw, hl₃, hl₂, hl₁]
    exact hb
  have hraw : ∃ c, Runs (InPayload dat words) (when v.fStoreRaw (storeRaw v mem dat words.length))
      c₃ () c ∧ c.HasRaw v.svtLeaf := by
    cases v.fStoreRaw with
    | false => exact ⟨c₃, runs_when_false.mpr rfl, hb₃⟩
    | true =>
      obtain ⟨l, hl⟩ := hb₃
      obtain ⟨c, hc, hbc⟩ := runs_storeRaw hm hl
      exact ⟨c, runs_when_true.mpr ⟨(), hc⟩, _, hbc⟩
  obtain ⟨c₄, hc₄, hb₄⟩ := hraw
  have hj4 := UInt32.toNat_add_four (i := j) (by omega)
  refine ⟨j + 4, c₄, by omega, hb₄, fun d hd => ?_⟩
  rw [readFrames, if_pos hlt]
  refine ((runs_readSVTWords_iff hm).mpr ⟨by omega, rfl, rfl⟩).bind (hc₁.bind (hc₂.bind ?_))
  exact ((runs_readSVTWords_iff hm).mpr ⟨by omega, rfl, rfl⟩).bind (hc₃.bind (hc₄.bind hd))

theorem turn_of_runs (hi : 1 ≤ i.toNat) (hle : i.toNat + 1 < words.length)
    (hlen : words.length < 2 ^ 31)
    (h : Runs (InPayload dat words) (readFrames v mem dat words.length (n + 1) i) b () c) :
    4 ≤ i.toNat + evtWords words i.toNat ∧ i.toNat + turnWords words i.toNat ≤ words.length ∧
      ∃ j d, j.toNat = i.toNat + turnWords words i.toNat ∧
        Runs (InPayload dat words) (readFrames v mem dat words.length n j) d () c := by
  have hframe := toNat_frameEnd words i
  have hsize := evtWords_lt words i.toNat
  have hlt : i < UInt32.ofInt (words.length - 1) := (lt_ofInt_iff (by omega) hlen).mpr hle
  rw [turnWords]
  rw [readFrames, if_pos hlt] at h
  obtain ⟨head, _, hhead, hrest⟩ := runs_bind.mp h
  obtain ⟨hin, rfl, rfl⟩ := (runs_readSVTWords_iff hm).mp hhead
  obtain ⟨_, _, -, hrest⟩ := runs_bind.mp hrest
  obtain ⟨j, _, hchans, hrest⟩ := runs_bind.mp hrest
  obtain ⟨tail, _, htail, hrest⟩ := runs_bind.mp hrest
  obtain ⟨_, _, -, hrest⟩ := runs_bind.mp hrest
  obtain ⟨_, d, -, hrest⟩ := runs_bind.mp hrest
  have hi4 := UInt32.toNat_add_four (i := i) (by omega)
  have htail := ((runs_readSVTWords_iff hm).mp htail).1
  obtain ⟨hstop, -, k, hk, hlast⟩ := stop_of_runs hm hlen (by omega) hchans
  have hj4 := UInt32.toNat_add_four (i := j) (by omega)
  refine ⟨by omega, by omega, j + 4, d, by omega, hrest⟩

omit hm in
theorem svtWordsAt_of_drop {k : Nat} {f ws : List UInt32} (h : words.drop k = f ++ ws)
    (hf : 4 ≤ f.length) : svtWordsAt words k = svtWordsAt f 0 := by
  have hget (m : Nat) (hm : m < 4) : words.getD (k + m) 0 = f.getD (0 + m) 0 := by
    rw [Nat.zero_add, List.getD_eq_getElem?_getD, ← List.getElem?_drop, h,
      List.getElem?_append_left (by omega), List.getD_eq_getElem?_getD]
  rw [svtWordsAt, svtWordsAt, hget 1 (by decide), hget 2 (by decide), hget 3 (by decide)]
  exact congrArg (SVTWords.mk · _ _ _) (hget 0 (by decide))

def FramesFrom (words : List UInt32) (k : Nat) (frames : List (List UInt32)) : Prop :=
  ∃ rest : List UInt32, words.drop k = frames.flatten ++ rest ∧ rest.length ≤ 1 ∧
    (∀ f ∈ frames, f.length = turnWords f 0) ∧ ∀ f ∈ frames.head?, 4 ≤ k + evtWords f 0

theorem runs_readFrames {frames : List (List UInt32)} (hfrom : FramesFrom words i.toNat frames)
    (hi : 1 ≤ i.toNat) (hle : i.toNat ≤ words.length) (hlen : words.length < 2 ^ 31)
    (hn : words.length < n + i.toNat) (hb : b.HasRaw v.svtLeaf) :
    ∃ c, Runs (InPayload dat words) (readFrames v mem dat words.length n i) b () c := by
  obtain ⟨rest, hdrop, hrest, hsizes, hfirst⟩ := hfrom
  have htotal := congrArg List.length hdrop
  rw [List.length_drop, List.length_append] at htotal
  obtain ⟨n, rfl⟩ := Nat.exists_eq_succ_of_ne_zero (show n ≠ 0 by omega)
  induction frames generalizing b i n with
  | nil =>
    rw [List.flatten_nil, List.length_nil] at htotal
    rw [readFrames, if_neg (by rw [lt_ofInt_iff (by omega) hlen]; omega)]
    exact ⟨b, runs_pure.mpr ⟨rfl, rfl⟩⟩
  | cons f fs ih =>
    rw [List.flatten_cons, List.append_assoc] at hdrop
    rw [List.flatten_cons, List.length_append] at htotal
    obtain ⟨hf, hfs⟩ := List.forall_mem_cons.mp hsizes
    have hf4 : 4 ≤ f.length := by
      rw [hf, turnWords]
      omega
    have hwords := svtWordsAt_of_drop hdrop hf4
    have hevt : evtWords words i.toNat = evtWords f 0 := by rw [evtWords, evtWords, hwords]
    have hturn : turnWords words i.toNat = f.length := by rw [hf, turnWords, turnWords, hevt]
    have hsize : 4 ≤ i.toNat + evtWords words i.toNat := hevt ▸ hfirst f rfl
    obtain ⟨j, c, hj, hbc, hstep⟩ := runs_readFrames_turn hm hi hlen hsize (n := n) (by omega)
      (by omega) hb
    have hdrop' : words.drop j.toNat = fs.flatten ++ rest := by
      rw [hj, hturn, ← List.drop_drop, hdrop, List.drop_left]
    rw [hturn] at hj
    have hlater (g : List UInt32) (_ : g ∈ fs.head?) : 4 ≤ j.toNat + evtWords g 0 := by omega
    obtain ⟨m, rfl⟩ := Nat.exists_eq_succ_of_ne_zero (show n ≠ 0 by omega)
    obtain ⟨d, hd⟩ := ih (n := m) (by omega) (by omega) hbc hdrop' hfs hlater (by omega) (by omega)
    exact ⟨d, hstep d hd⟩

theorem frames_of_runs (hi : 1 ≤ i.toNat) (hle : i.toNat ≤ words.length)
    (hlen : words.length < 2 ^ 31)
    (h : Runs (InPayload dat words) (readFrames v mem dat words.length n i) b () c) :
    ∃ frames, FramesFrom words i.toNat frames := by
  induction n generalizing b i with
  | zero => exact absurd h runs_halt
  | succ n ih =>
    by_cases hmore : i.toNat + 1 < words.length
    · obtain ⟨hsize, hend, j, d, hj, hrest⟩ := turn_of_runs hm hi hmore hlen h
      obtain ⟨frames, rest, hdrop, hrest, hsizes, -⟩ := ih (by omega) (by omega) hrest
      have hsplit : words.drop i.toNat =
          (words.drop i.toNat).take (turnWords words i.toNat) ++ (frames.flatten ++ rest) := by
        rw [← hdrop, hj, ← List.drop_drop, List.take_append_drop]
      have hflen : ((words.drop i.toNat).take (turnWords words i.toNat)).length =
          turnWords words i.toNat := by
        rw [List.length_take, List.length_drop]
        omega
      have hf4 : 4 ≤ ((words.drop i.toNat).take (turnWords words i.toNat)).length := by
        rw [hflen, turnWords]
        omega
      have hwords := svtWordsAt_of_drop hsplit hf4
      generalize (words.drop i.toNat).take (turnWords words i.toNat) = f at hsplit hflen hwords
      have hevt : evtWords words i.toNat = evtWords f 0 := by rw [evtWords, evtWords, hwords]
      have hturn : turnWords words i.toNat = turnWords f 0 := by rw [turnWords, turnWords, hevt]
      refine ⟨f :: frames, rest, ?_, hrest, List.forall_mem_cons.mpr ⟨hflen.trans hturn, hsizes⟩, ?_⟩
      · rw [hsplit, List.flatten_cons, List.append_assoc]
      · intro g hg
        obtain rfl := Option.some.inj hg
        exact hevt ▸ hsize
    · refine ⟨[], words.drop i.toNat, rfl, ?_, nofun, nofun⟩
      rw [List.length_drop]
      omega

omit hm in
theorem splits_iff : SplitsIntoFrames words ↔
    1 ≤ words.length ∧ ∃ frames, FramesFrom words 1 frames := by
  constructor
  · rintro ⟨lead, frames, rest, rfl, hrest, hsizes, hfirst⟩
    refine ⟨by simp, frames, rest, rfl, hrest, hsizes, fun f hf => ?_⟩
    have := hfirst f hf
    omega
  · rintro ⟨hpos, frames, rest, hdrop, hrest, hsizes, hfirst⟩
    obtain ⟨lead, ws, rfl⟩ := List.exists_cons_of_length_pos hpos
    refine ⟨lead, frames, rest, congrArg (lead :: ·) hdrop, hrest, hsizes, fun f hf => ?_⟩
    have := hfirst f hf
    omega

theorem pushDataArray_reads_iff (hlen : words.length < 2 ^ 31) (hb : b.HasRaw v.svtLeaf) :
    ReadsPayload dat words.length b (fun fill => v.pushDataArray mem fill dat words.length) ↔
      SplitsIntoFrames words := by
  have h1 : (1 : UInt32).toNat = 1 := rfl
  rw [splits_iff]
  constructor
  · rintro ⟨F, hF⟩
    obtain ⟨c, hc⟩ := hF (F + 1) (by omega)
    have hc : Runs (InPayload dat words) (readFrames v mem dat words.length (F + 1) 1) b () c := hc
    by_cases hpos : 1 ≤ words.length
    · exact ⟨hpos, frames_of_runs hm (i := 1) le_rfl hpos hlen hc⟩
    · -- the bound of the loop wraps around, and the first header is read
      have hzero : words.length = 0 := by omega
      rw [readFrames, if_pos (by rw [hzero]; decide)] at hc
      obtain ⟨head, _, hhead, -⟩ := runs_bind.mp hc
      have hin := ((runs_readSVTWords_iff hm (k := (1 : UInt32).toNat)).mp hhead).1
      omega
  · rintro ⟨hpos, frames, hfrom⟩
    refine ⟨words.length, fun fill hfill => ?_⟩
    exact runs_readFrames hm (i := 1) hfrom le_rfl hpos hlen (by omega) hb

end SVTBank

namespace SVTBank2016

theorem runs_readFrames (hmod : i.toNat % 4 = 1) (hle : i.toNat ≤ words.length)
    (hlen : words.length < 2 ^ 31) (hend : words.length % 4 = 1 ∨ words.length % 4 = 2)
    (hn : words.length < n + i.toNat) :
    ∃ c, Runs (InPayload dat words) (readFrames mem dat words.length n i) b () c ∧
      c.leafs = b.leafs := by
  induction n generalizing b i with
  | zero => omega
  | succ n ih =>
    have hstop := SVTBank.lt_ofInt_iff (i := i) (show 0 < words.length by omega) hlen
    by_cases hmore : i.toNat + 1 < words.length
    · have hi := UInt32.toNat_add_four (i := i) (by omega)
      obtain ⟨c, hc, hleafs⟩ := runs_modifySVT (b := b) (P := InPayload dat words)
        (!(svtWordsAt words i.toNat).isTail && !(svtWordsAt words i.toNat).isHeader)
        fun v => { v with svtData := v.svtData ++ [svtWordsAt words i.toNat] }
      obtain ⟨d, hd, hleafs'⟩ := ih (b := c) (i := i + 4) (by omega) (by omega) (by omega)
      refine ⟨d, ?_, hleafs'.trans hleafs⟩
      rw [readFrames, if_pos (hstop.mpr hmore)]
      exact ((runs_readSVTWords_iff hm).mpr ⟨by omega, rfl, rfl⟩).bind (hc.bind hd)
    · refine ⟨b, ?_, rfl⟩
      rw [readFrames, if_neg fun h => hmore (hstop.mp h)]
      exact runs_pure.mpr ⟨rfl, rfl⟩

theorem mod_of_runs (hmod : i.toNat % 4 = 1) (hle : i.toNat ≤ words.length)
    (hlen : words.length < 2 ^ 31)
    (h : Runs (InPayload dat words) (readFrames mem dat words.length n i) b () c) :
    words.length % 4 = 1 ∨ words.length % 4 = 2 := by
  induction n generalizing b i with
  | zero => exact absurd h runs_halt
  | succ n ih =>
    have hstop := SVTBank.lt_ofInt_iff (i := i) (show 0 < words.length by omega) hlen
    by_cases hmore : i.toNat + 1 < words.length
    · rw [readFrames, if_pos (hstop.mpr hmore)] at h
      obtain ⟨cn, _, hread, hrest⟩ := runs_bind.mp h
      obtain ⟨hin, rfl, rfl⟩ := (runs_readSVTWords_iff hm).mp hread
      obtain ⟨_, d, -, hrest⟩ := runs_bind.mp hrest
      have hi := UInt32.toNat_add_four (i := i) (by omega)
      exact ih (by omega) (by omega) hrest
    · omega

theorem runs_pushDataArray {l : Leaf (.prim .uint32)} (hlen : words.length < 2 ^ 31)
    (hend : words.length % 4 = 1 ∨ words.length % 4 = 2)
    (hl : b.leafs[v.svtLeaf]? = some ⟨.prim .uint32, l⟩) (hn : words.length ≤ n) :
    ∃ c, Runs (InPayload dat words) (SVTBank2016.pushDataArray v mem n dat words.length) b () c ∧
      c.leafs[v.svtLeaf]? = some ⟨.prim .uint32, v.rawLeaf words 1 l⟩ := by
  have h1 : (1 : UInt32).toNat = 1 := rfl
  obtain ⟨c, hc, hleafs⟩ := runs_readFrames hm (b := b) (i := 1) (n := n) rfl (by omega) hlen hend
    (by omega)
  have htail : ∃ d, Runs (InPayload dat words) (when v.fSaveHeaders do
      let tail ← readWord mem .svt (dat + ((words.length : Int) - 1))
      modifySVT fun v => { v with svtTails := v.svtTails ++ [tail] }) c () d ∧
      d.leafs = c.leafs := by
    have hlast : dat + ((words.length : Int) - 1) = dat + (words.length - 1 : Nat) := by omega
    cases v.fSaveHeaders with
    | false => exact ⟨c, runs_when_false.mpr rfl, rfl⟩
    | true =>
      have hread : Runs (InPayload dat words) (readWord mem .svt (dat + ((words.length : Int) - 1)))
          c (words.getD (words.length - 1) 0) c := by
        rw [hlast]
        exact (runs_readWord_iff hm).mpr ⟨by omega, rfl, rfl⟩
      exact ⟨_, runs_when_true.mpr ⟨(), hread.bind (runs_modify.mpr rfl)⟩, rfl⟩
  obtain ⟨d, hd, hleafs'⟩ := htail
  have hld : d.leafs[v.svtLeaf]? = some ⟨.prim .uint32, l⟩ := by rw [hleafs', hleafs, hl]
  have hraw : ∃ e, Runs (InPayload dat words)
      (when v.fStoreRaw (v.storeRaw mem dat words.length)) d () e ∧
      e.leafs[v.svtLeaf]? = some ⟨.prim .uint32, v.rawLeaf words 1 l⟩ := by
    cases hstore : v.fStoreRaw with
    | false => exact ⟨d, runs_when_false.mpr rfl, by simpa [SVTBank.rawLeaf, hstore] using hld⟩
    | true =>
      obtain ⟨e, he, hle⟩ := SVTBank.runs_storeRaw hm hld
      exact ⟨e, runs_when_true.mpr ⟨(), he⟩, by simpa [SVTBank.rawLeaf, hstore] using hle⟩
  obtain ⟨e, he, hle⟩ := hraw
  exact ⟨e, hc.bind (hd.bind he), hle⟩

theorem pushDataArray_reads_iff (hlen : words.length < 2 ^ 31) (hb : b.HasRaw v.svtLeaf) :
    ReadsPayload dat words.length b
        (fun fill => SVTBank2016.pushDataArray v mem fill dat words.length) ↔
      words.length % 4 = 1 ∨ words.length % 4 = 2 := by
  have h1 : (1 : UInt32).toNat = 1 := rfl
  constructor
  · rintro ⟨F, hF⟩
    obtain ⟨c, hc⟩ := hF (F + 1) (by omega)
    obtain ⟨_, d, hframes, -⟩ := runs_bind.mp hc
    by_cases hpos : 1 ≤ words.length
    · exact mod_of_runs hm (i := 1) rfl hpos hlen hframes
    · have hzero : words.length = 0 := by omega
      rw [readFrames, if_pos (by rw [hzero]; decide)] at hframes
      obtain ⟨cn, _, hread, -⟩ := runs_bind.mp hframes
      have hin := ((runs_readSVTWords_iff hm (k := (1 : UInt32).toNat)).mp hread).1
      omega
  · intro hend
    obtain ⟨l, hl⟩ := hb
    refine ⟨words.length, fun fill hfill => ?_⟩
    obtain ⟨c, hc, -⟩ := runs_pushDataArray hm hlen hend hl hfill
    exact ⟨c, hc⟩

end SVTBank2016

/-- Which payloads the two banks read without leaving them. -/
theorem svt_reads_iff (hlen : words.length < 2 ^ 31) (hb : b.HasRaw v.svtLeaf) :
    (ReadsPayload dat words.length b (fun fill => v.pushDataArray mem fill dat words.length) ↔
      SplitsIntoFrames words) ∧
    (ReadsPayload dat words.length b
        (fun fill => SVTBank2016.pushDataArray v mem fill dat words.length) ↔
      words.length % 4 = 1 ∨ words.length % 4 = 2) :=
  ⟨SVTBank.pushDataArray_reads_iff hm hlen hb, SVTBank2016.pushDataArray_reads_iff hm hlen hb⟩

end

theorem hasRaw_svtInfo (v : SVTBank) : (SVTBank.svtInfo v).HasRaw 0 := ⟨_, rfl⟩

theorem svt_reads_oneSample :
    let words := SVTFrame.payload 0 [SVTBank.oneSample] 0
    ReadsPayload 0 words.length (SVTBank.svtInfo {})
        (fun fill => SVTBank.pushDataArray {} (Mem.ofList words) fill 0 words.length) ∧
      ReadsPayload 0 words.length (SVTBank.svtInfo {})
        (fun fill => SVTBank2016.pushDataArray {} (Mem.ofList words) fill 0 words.length) := by
  intro words
  obtain ⟨hreads, hreads2016⟩ := svt_reads_iff (v := {}) (Mem.holds_ofList words) (by decide)
    (hasRaw_svtInfo {})
  refine ⟨hreads.mpr ⟨0, [SVTBank.oneSample.words], [0], rfl, le_rfl, ?_, ?_⟩, hreads2016.mpr ?_⟩
  · exact List.forall_mem_singleton.mpr (by decide)
  · intro f hf
    obtain rfl := Option.some.inj hf
    decide
  · exact .inr (by decide)

theorem svt_reads_past :
    ¬ReadsPayload 0 10 (SVTBank.svtInfo {})
        (fun fill => SVTBank.pushDataArray {} (Mem.ofList (List.replicate 10 0)) fill 0 10) ∧
      ¬ReadsPayload 0 3 (SVTBank.svtInfo {})
        (fun fill => SVTBank2016.pushDataArray {} (Mem.ofList [0, 0, 0]) fill 0 3) ∧
      ¬ReadsPayload 0 0 (SVTBank.svtInfo {})
        (fun fill => SVTBank.pushDataArray {} (Mem.ofList []) fill 0 0) ∧
      ¬ReadsPayload 0 0 (SVTBank.svtInfo {})
        (fun fill => SVTBank2016.pushDataArray {} (Mem.ofList []) fill 0 0) := by
  have hframes (words : List UInt32) (hlen : words.length < 2 ^ 31) :=
    SVTBank.pushDataArray_reads_iff (v := {}) (Mem.holds_ofList words) hlen (hasRaw_svtInfo {})
  have hrecords (words : List UInt32) (hlen : words.length < 2 ^ 31) :=
    SVTBank2016.pushDataArray_reads_iff (v := {}) (Mem.holds_ofList words) hlen (hasRaw_svtInfo {})
  refine ⟨fun h => ?_, fun h => ?_, fun h => ?_, fun h => ?_⟩
  · obtain ⟨lead, frames, rest, heq, hrest, hsizes, hfirst⟩ :=
      (hframes (List.replicate 10 0) (by decide)).mp h
    have hlen := congrArg List.length heq
    rw [List.length_replicate, List.length_cons, List.length_append] at hlen
    cases frames with
    | nil =>
      rw [List.flatten_nil, List.length_nil] at hlen
      omega
    | cons f fs =>
      have hf4 : 4 ≤ f.length := by
        rw [hsizes f List.mem_cons_self, turnWords]
        omega
      have hdrop : (List.replicate 10 (0 : UInt32)).drop 1 = f ++ (fs.flatten ++ rest) := by
        rw [heq, List.flatten_cons, List.append_assoc]
        rfl
      have hsize := hfirst f rfl
      rw [evtWords, ← SVTBank.svtWordsAt_of_drop hdrop hf4] at hsize
      exact absurd hsize (by decide)
  · exact absurd ((hrecords [0, 0, 0] (by decide)).mp h) (by decide)
  · obtain ⟨lead, frames, rest, heq, -⟩ := (hframes [] (by decide)).mp h
    exact List.cons_ne_nil _ _ heq.symm
  · exact absurd ((hrecords [] (by decide)).mp h) (by decide)

end EvioTool
