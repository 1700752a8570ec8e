import EvioTool.Defs.HitMap
import EvioTool.Laws.ConfigPaths
import EvioTool.Laws.Mode7
import EvioTool.Lib.Once

namespace EvioTool

open Lib Exec TriggerConfig

def FADC250_slot_t.channel (s : FADC250_slot_t) (chan : Nat) : Int × Int × Int :=
  (s.subsystem.getD chan 0, s.ix.getD chan 0, s.iy.getD chan 0)

def FADC250_crate_t.channel (c : FADC250_crate_t) (k : Int) (chan : Nat) : Int × Int × Int :=
  ((c.slots k).getD {}).channel chan

section Channel

variable {s : FADC250_slot_t} {c : FADC250_crate_t} {k : Int} {chan : Nat}

theorem channel_default (chan : Nat) : ({} : FADC250_slot_t).channel chan = (0, 0, 0) := by
  have hzero : (List.replicate 16 (0 : Int)).getD chan 0 = 0 := by
    rw [List.getD_eq_getElem?_getD, List.getElem?_replicate]
    split <;> rfl
  unfold FADC250_slot_t.channel
  rw [show ({} : FADC250_slot_t).subsystem = List.replicate 16 0 from rfl,
    show ({} : FADC250_slot_t).ix = List.replicate 16 0 from rfl,
    show ({} : FADC250_slot_t).iy = List.replicate 16 0 from rfl, hzero]

theorem channel_put (s : FADC250_slot_t) (v : Int) (f : Setting) :
    (s.put v f).channel chan = s.channel chan := by
  cases f <;> rfl

theorem SlotEdit.channel_run (e : SlotEdit) (s : FADC250_slot_t) :
    (e.run s).channel chan = s.channel chan := by
  cases e with
  | setting f v => exact channel_put s v f
  | _ => rfl

theorem channel_onSlot {f : FADC250_slot_t → FADC250_slot_t}
    (hf : ∀ s, (f s).channel chan = s.channel chan) (j : Int) :
    (c.onSlot j f).channel k chan = c.channel k chan := by
  simp only [FADC250_crate_t.channel, FADC250_crate_t.onSlot, Function.update_apply]
  split
  · rename_i h
    rw [h, Option.getD_some, hf]
  · rfl

theorem channel_addSlot (j : Int) : (c.addSlot j).channel k chan = c.channel k chan := by
  unfold FADC250_crate_t.addSlot
  split
  · rfl
  · apply channel_onSlot
    exact fun _ => rfl

theorem isSome_onSlot (h : (c.slots k).isSome) (j : Int) (f : FADC250_slot_t → FADC250_slot_t) :
    ((c.onSlot j f).slots k).isSome := by
  simp only [FADC250_crate_t.onSlot, Function.update_apply]
  split
  · rfl
  · exact h

theorem isSome_addSlot (h : (c.slots k).isSome) (j : Int) : ((c.addSlot j).slots k).isSome := by
  unfold FADC250_crate_t.addSlot
  split
  · exact h
  · exact isSome_onSlot h j _

theorem Edit.channel_run (e : Edit) : (e.run c).channel k chan = c.channel k chan := by
  cases e with
  | slot j => exact channel_addSlot j
  | mode v => rfl
  | all f v =>
    simp only [Edit.run, FADC250_crate_t.putAll, FADC250_crate_t.channel]
    cases c.slots k with
    | none => rfl
    | some s => exact channel_put s v f
  | own j e => exact channel_onSlot e.channel_run j

theorem Edit.isSome_run (e : Edit) (h : (c.slots k).isSome) : ((e.run c).slots k).isSome := by
  cases e with
  | slot j => exact isSome_addSlot h j
  | mode v => exact h
  | all f v => exact (Option.isSome_map ..).trans h
  | own j e => exact isSome_onSlot h j e.run

theorem channel_foldl (es : List Edit) (c : FADC250_crate_t) :
    (es.foldl Edit.run c).channel k chan = c.channel k chan := by
  induction es generalizing c with
  | nil => rfl
  | cons e es ih => rw [List.foldl_cons, ih, e.channel_run]

theorem isSome_foldl (es : List Edit) (h : (c.slots k).isSome) :
    ((es.foldl Edit.run c).slots k).isSome := by
  induction es generalizing c with
  | nil => exact h
  | cons e es ih => exact ih (e.isSome_run h)

theorem channel_setChannel (hs : s.Sized) (hchan : chan < 16) (m : DAQChannel) :
    (setChannel s m).channel chan =
      if m.chan = chan then (m.sub, m.x, m.y) else s.channel chan := by
  unfold setChannel FADC250_slot_t.set_sxy FADC250_slot_t.channel
  simp only [List.getD_eq_getElem?_getD, List.getElem?_set, hs.subsystem, hs.ix, hs.iy]
  split
  · rename_i h
    have hm : m.chan < 16 := h ▸ hchan
    simp only [if_pos hm, Option.getD_some]
  · rfl

theorem channel_place (hs : s.Sized) (hchan : chan < 16) (ms : List DAQChannel) :
    (ms.foldl setChannel s).channel chan =
      written (ms.map fun m => if m.chan = chan then some (m.sub, m.x, m.y) else none)
        (s.channel chan) := by
  refine foldl_written setChannel (fun s => s.channel chan) _ (I := FADC250_slot_t.Sized)
    (fun s m hs => sized_setChannel hs m) (fun s m hs => ?_) ms hs
  rw [channel_setChannel hs hchan]
  split <;> rfl

end Channel

def DAQChannel.place (m : DAQChannel) : Nat := (m.crate * 64 + m.slot.toNat) * 16 + m.chan

def DAQChannel.crystal (m : DAQChannel) : Nat := (m.x + 23).toNat * 16 + (m.y + 5).toNat

theorem once_places : once (daqMap.map DAQChannel.place) 0 := by decide +kernel

theorem once_crystals : once (daqMap.map DAQChannel.crystal) 0 := by decide +kernel

theorem daqMap_ecal : ∀ m ∈ daqMap, m.sub = 2 ∧ m.chan < 16 ∧ m.crate < 3 := by decide +kernel

section CarriesMap

variable {m n : DAQChannel}

theorem eq_of_place (hm : m ∈ daqMap) (hn : n ∈ daqMap) (hcrate : m.crate = n.crate)
    (hslot : m.slot = n.slot) (hchan : m.chan = n.chan) : m = n := by
  apply eq_of_once once_places hm hn
  rw [DAQChannel.place, hcrate, hslot, hchan, DAQChannel.place]

theorem eq_of_crystal (hm : m ∈ daqMap) (hn : n ∈ daqMap) (hx : m.x = n.x) (hy : m.y = n.y) :
    m = n := by
  apply eq_of_once once_crystals hm hn
  rw [DAQChannel.crystal, hx, hy, DAQChannel.crystal]

/-- The channels are what they are in the map. -/
structure TriggerConfig.CarriesMap (t : TriggerConfig) : Prop where
  length : 3 ≤ t.crates.length
  sized : t.Sized
  slots : ∀ m ∈ daqMap, ((t.crateAt m.crate).slots m.slot).isSome
  channels : ∀ m ∈ daqMap, (t.crateAt m.crate).channel m.slot m.chan = (m.sub, m.x, m.y)
  others : ∀ c k, ∀ chan < 16, (∀ m ∈ daqMap, ¬(m.crate = c ∧ m.slot = k ∧ m.chan = chan)) →
    (t.crateAt c).channel k chan = (0, 0, 0)

variable {u : Uninit} {t t' : TriggerConfig}

theorem TriggerConfig.Sized.slot_getD (ht : t.Sized) (c : Nat) (k : Int) :
    (((t.crateAt c).slots k).getD {}).Sized := (ht c).getD

theorem channel_mapSlot {o : Option FADC250_slot_t} (ho : (o.getD {}).Sized) (c : Nat) (k : Int)
    {chan : Nat} (hchan : chan < 16) :
    ((mapSlot c k o).getD {}).channel chan =
      written ((placed c k daqMap).map fun m =>
        if m.chan = chan then some (m.sub, m.x, m.y) else none) ((o.getD {}).channel chan) := by
  by_cases h : placed c k daqMap = []
  · rw [mapSlot_of_nil h, h]
    cases o with
    | none => rfl
    | some s => rfl
  · rw [mapSlot_of_ne_nil h, ← channel_place ho hchan]
    rfl

theorem carriesMap_InitDAQMaps (ht : t.Sized)
    (hzero : ∀ c k, ∀ chan < 16, (t.crateAt c).channel k chan = (0, 0, 0)) :
    (InitDAQMaps t).CarriesMap := by
  have hchannel (c : Nat) (k : Int) {chan : Nat} (hchan : chan < 16) :
      ((InitDAQMaps t).crateAt c).channel k chan =
        written ((placed c k daqMap).map fun m =>
          if m.chan = chan then some (m.sub, m.x, m.y) else none) (0, 0, 0) := by
    rw [crateAt_InitDAQMaps]
    exact (channel_mapSlot (ht.slot_getD c k) c k hchan).trans (congrArg _ (hzero c k chan hchan))
  refine ⟨?_, ht.InitDAQMaps, fun m hm => ?_, fun m hm => ?_, fun c k chan hchan hno => ?_⟩
  · rw [length_InitDAQMaps]
    exact le_max_right _ _
  · rw [crateAt_InitDAQMaps]
    have hne : placed m.crate m.slot daqMap ≠ [] :=
      List.ne_nil_of_mem (List.mem_filter.mpr ⟨hm, by simp⟩)
    dsimp only
    rw [mapSlot_of_ne_nil hne]
    rfl
  · rw [hchannel _ _ (daqMap_ecal m hm).2.1]
    apply written_of_const
    · intro w hw
      obtain ⟨n, hn, rfl⟩ := List.mem_map.mp hw
      obtain ⟨hmem, hat⟩ := List.mem_filter.mp hn
      obtain ⟨hcrate, hslot⟩ := of_decide_eq_true hat
      by_cases hchan : n.chan = m.chan
      · rw [eq_of_place hmem hm hcrate hslot hchan]
        exact .inr (if_pos rfl)
      · exact .inl (if_neg hchan)
    · exact List.mem_map.mpr ⟨m, List.mem_filter.mpr ⟨hm, by simp⟩, if_pos rfl⟩
  · rw [hchannel _ _ hchan]
    apply written_of_none
    intro w hw
    obtain ⟨n, hn, rfl⟩ := List.mem_map.mp hw
    obtain ⟨hmem, hat⟩ := List.mem_filter.mp hn
    obtain ⟨hcrate, hslot⟩ := of_decide_eq_true hat
    exact if_neg fun h => hno n hmem ⟨hcrate, hslot, h⟩

theorem channel_Parse_raw_data (ht : t.Sized) (h : Returns (Parse_raw_data u) t () t') (c : Nat)
    (k : Int) (chan : Nat) : (t'.crateAt c).channel k chan = (t.crateAt c).channel k chan := by
  rw [crateAt_Parse_raw_data ht h, channel_foldl]

theorem TriggerConfig.CarriesMap.parse (ht : t.CarriesMap)
    (h : Returns (Parse_raw_data u) t () t') : t'.CarriesMap := by
  refine ⟨ht.length.trans (length_Parse_raw_data ht.sized h).1, sized_Parse_raw_data ht.sized h,
    fun m hm => ?_, fun m hm => ?_, fun c k chan hchan hno => ?_⟩
  · rw [crateAt_Parse_raw_data ht.sized h]
    exact isSome_foldl _ (ht.slots m hm)
  · rw [channel_Parse_raw_data ht.sized h, ht.channels m hm]
  · rw [channel_Parse_raw_data ht.sized h, ht.others c k chan hchan hno]

theorem TriggerConfig.Mapped.carriesMap (ht : t.Mapped u) : t.CarriesMap := by
  induction ht with
  | constructed ht =>
    cases ht with
    | bank => exact carriesMap_InitDAQMaps sized_empty fun c k chan _ => channel_default chan
    | @file lines _ h =>
      obtain ⟨v, hv, rfl⟩ := returns_ofFile.mp h
      have hempty : ({ raw_data := rawLines lines } : TriggerConfig).Sized := sized_empty
      refine carriesMap_InitDAQMaps (sized_Parse_raw_data hempty hv) fun c k chan _ => ?_
      rw [channel_Parse_raw_data hempty hv]
      exact channel_default chan
  | @filled lines t t' _ h ih =>
    have hparse :
        Returns (Parse_raw_data u) { t with data := lines, raw_data := rawLines lines } () t' := by
      simpa [fill, CallBack, Parse_evio_bank] using h
    have hmap : ({ t with data := lines, raw_data := rawLines lines } : TriggerConfig).CarriesMap :=
      ⟨ih.length, ih.sized, ih.slots, ih.channels, ih.others⟩
    exact hmap.parse hparse

end CarriesMap

section Vectors

variable {σ α β : Type} {xs : List α} {i : Nat} {s s' : σ}

theorem returns_ecalAt {x : α} :
    Returns (ecalAt xs i : Exec Halt EcalObs σ α) s x s' ↔ xs[i]? = some x ∧ s' = s := by
  simp [ecalAt, vectorAt]

theorem returns_ecalAt_bind (h : i < xs.length) (x : α) (f : α → Exec Halt EcalObs σ β) {b : β} :
    Returns (ecalAt xs i >>= f) s b s' ↔ Returns (f (xs.getD i x)) s b s' := by
  have hget : xs[i]? = some (xs.getD i x) := by
    rw [List.getD_eq_getElem?_getD, List.getElem?_eq_getElem h, Option.getD_some]
  constructor
  · intro hr
    obtain ⟨y, _, hat, hf⟩ := returns_bind.mp hr
    obtain ⟨hy, rfl⟩ := returns_ecalAt.mp hat
    rwa [← Option.some.inj (hget.symm.trans hy)] at hf
  · exact fun hf => (returns_ecalAt.mpr ⟨hget, rfl⟩).bind hf

theorem returns_GetSlot {t : TriggerConfig} {d : FADCdata}
    (h : t.GetCrateNum d.crate < t.crates.length) {o : Option FADC250_slot_t} :
    Returns (t.GetSlot d.crate d.slot) s o s' ↔ o = t.slotOf d ∧ s' = s := by
  unfold GetSlot
  rw [returns_ecalAt_bind h {}, returns_ecalAt_bind h {}, returns_pure]
  rfl

end Vectors

section Entry

variable {t : TriggerConfig} {d : FADCdata} {s : FADC250_slot_t}

theorem getCrateNum_of {m : DAQChannel} (hcrate : d.crate = 37 ∨ d.crate = 39) (hm : m.Of d) :
    t.GetCrateNum d.crate = m.crate := by
  rw [hm.2.1, GetCrateNum]
  obtain h | h := hcrate
  · rw [if_pos h, if_pos h]
  · rw [h]
    rfl

theorem slotOf_eq (t : TriggerConfig) (d : FADCdata) :
    t.slotOf d = (t.crateAt (t.GetCrateNum d.crate)).slots d.slot.toNat := rfl

theorem channel_of_slotOf (hs : t.slotOf d = some s) (chan : Nat) :
    (t.crateAt (t.GetCrateNum d.crate)).channel d.slot.toNat chan = s.channel chan := by
  rw [FADC250_crate_t.channel, ← slotOf_eq, hs]
  rfl

theorem returns_parseEntry_not (ht : t.CarriesMap) (hfull : t.Full)
    (hcrate : d.crate = 37 ∨ d.crate = 39) (h16 : d.chan.toNat < 16)
    (hno : ∀ m ∈ daqMap, ¬m.Of d) {F : Type} [IntCast F] (call : HitMap.Call F) (round : Rat → F)
    (i : Nat) (M : HitMap F) :
    Returns (HitMap.parseEntry call round t i d) M () M := by
  have hlt : t.GetCrateNum d.crate < t.crates.length := by
    have hlength := ht.length
    unfold GetCrateNum
    obtain h | h := hcrate <;> rw [h] <;> simp <;> omega
  refine (returns_GetSlot hlt).mpr ⟨rfl, rfl⟩ |>.bind ?_
  cases hs : t.slotOf d with
  | none => exact returns_pure.mpr ⟨rfl, rfl⟩
  | some s =>
    dsimp only
    have hlen := (hfull _ _ s hs).2.2.2.1
    have hchannel := ht.others (t.GetCrateNum d.crate) d.slot.toNat d.chan.toNat h16 ?_
    · rw [channel_of_slotOf hs] at hchannel
      have hsubsystem := (Prod.mk.inj hchannel).1
      rw [returns_ecalAt_bind (by omega) 0, hsubsystem, if_pos (by decide)]
      exact returns_pure.mpr ⟨rfl, rfl⟩
    · rintro m hmem ⟨hc, hk, hchan⟩
      refine hno m hmem ⟨(daqMap_ecal m hmem).1, ?_, hk, hchan⟩
      rw [hc, GetCrateNum]
      obtain h | h := hcrate <;> simp [h]

end Entry

section Hits

variable {F : Type} [Add F] [Sub F] [Mul F] [Div F] [IntCast F] [LT F] [DecidableLT F] [LE F]
  [DecidableLE F]
variable {t : TriggerConfig} {d : FADCdata} {s : FADC250_slot_t}

theorem computeMode7fast_mono {past : Nat → UInt16} {thres pedestal gain : F} {NSB NSA npeak : Int}
    {hits : List (FADC_Hit F)} {fuel fuel' : Nat} (hle : fuel ≤ fuel')
    (h : d.computeMode7fast past fuel thres pedestal NSB NSA npeak gain = some hits) :
    d.computeMode7fast past fuel' thres pedestal NSB NSA npeak gain = some hits := by
  unfold FADCdata.computeMode7fast at h ⊢
  by_cases hNSA : NSA ≤ 0
  · rw [if_pos hNSA] at h ⊢
    exact h
  · rw [if_neg hNSA] at h ⊢
    dsimp only at h ⊢
    obtain ⟨cs, hcs, hhits⟩ := Option.bind_eq_some_iff.mp h
    exact Option.bind_eq_some_iff.mpr ⟨cs, FADCdata.search_mono hcs hle, hhits⟩

theorem exists_hitsOf (hNSA : ¬(1 ≤ s.NSA ∧ s.NSA ≤ 3)) (past : Nat → UInt16) (round : Rat → F)
    (d : FADCdata) : ∃ hits, s.HitsOf past round d hits := by
  by_cases hpos : s.NSA ≤ 0
  · exact ⟨[], 0, if_pos hpos⟩
  · have h4 : 4 ≤ s.NSA := by omega
    obtain ⟨l, -, hl⟩ := d.exists_scan past (((s.threshold.getD d.chan.toNat 0 : Int) : F) +
      d.pedestalOf past (round (s.pedestal.getD d.chan.toNat 0))) h4
    exact ⟨_, (FADCdata.mode7_iff (by omega)).mpr ⟨_, hl s.npeak, rfl⟩⟩

theorem returns_parseEntry_of (ht : t.CarriesMap) (hfull : t.Full)
    (hNSA : ∀ s, t.slotOf d = some s → ¬(1 ≤ s.NSA ∧ s.NSA ≤ 3))
    (hcrate : d.crate = 37 ∨ d.crate = 39) {m : DAQChannel} (hmem : m ∈ daqMap) (hm : m.Of d)
    (past : Nat → Nat → UInt16) (round : Rat → F) (i : Nat) :
    ∃ s hits fuel₀, t.slotOf d = some s ∧ s.HitsOf (past i) round d hits ∧
      ∀ fuel ≥ fuel₀, ∀ M, Returns (HitMap.parseEntry (HitMap.compute past fuel) round t i d) M ()
        (Function.update M (m.x, m.y) (some ⟨i, (m.x, m.y), hits⟩)) := by
  have hnum : t.GetCrateNum d.crate = m.crate := getCrateNum_of hcrate hm
  obtain ⟨hsub, -, hslot, hchan⟩ := hm
  have hlt : t.GetCrateNum d.crate < t.crates.length := by
    rw [hnum]
    exact (daqMap_ecal m hmem).2.2.trans_le ht.length
  have hsome := ht.slots m hmem
  rw [← hnum, hslot] at hsome
  obtain ⟨s, hs⟩ : ∃ s, t.slotOf d = some s := Option.isSome_iff_exists.mp hsome
  have hchannel := ht.channels m hmem
  rw [← hnum, hslot, hchan, channel_of_slotOf hs] at hchannel
  obtain ⟨hsubsystem, hixy⟩ := Prod.mk.inj hchannel
  obtain ⟨hix, hiy⟩ := Prod.mk.inj hixy
  have h16 : d.chan.toNat < 16 := hchan ▸ (daqMap_ecal m hmem).2.1
  obtain ⟨hpedestal, hgain, hthreshold, hlsub, hlix, hliy⟩ := hfull _ _ s hs
  obtain ⟨hits, fuel₀, hhits⟩ := exists_hitsOf (hNSA s hs) (past i) round d
  refine ⟨s, hits, fuel₀, hs, ⟨fuel₀, hhits⟩, fun fuel hfuel M => ?_⟩
  refine (returns_GetSlot hlt).mpr ⟨hs.symm, rfl⟩ |>.bind ?_
  dsimp only
  rw [returns_ecalAt_bind (by omega) 0, hsubsystem, hsub, if_neg (by decide)]
  have htell : Returns (tell (.taken i) : Exec Halt EcalObs (HitMap F) Unit) M () M := ⟨rfl, rfl⟩
  refine htell.bind ?_
  rw [returns_ecalAt_bind (by omega) 0, returns_ecalAt_bind (by omega) 0,
    returns_ecalAt_bind (by omega) 0, returns_ecalAt_bind (by omega) 0,
    returns_ecalAt_bind (by omega) 0, hix, hiy]
  have hcall := computeMode7fast_mono hfuel hhits
  exact (returns_demand.mpr ⟨hcall, rfl⟩).bind ⟨rfl, rfl⟩

/-- The entries with the numbers from `n` on have brought `M` to `M'`. -/
structure Stored (t : TriggerConfig) (past : Nat → Nat → UInt16) (round : Rat → F) (n : Nat)
    (data : List FADCdata) (M M' : HitMap F) : Prop where
  found : ∀ i d m, data[i]? = some d → m ∈ daqMap → m.Of d → ∃ s hits, t.slotOf d = some s ∧
    s.HitsOf (past (n + i)) round d hits ∧ M' (m.x, m.y) = some ⟨n + i, (m.x, m.y), hits⟩
  frame : ∀ p, (∀ d ∈ data, ∀ m ∈ daqMap, m.Of d → p ≠ (m.x, m.y)) → M' p = M p

theorem DAQChannel.Of.sameChannel {m : DAQChannel} {d d' : FADCdata}
    (hcrate : d.crate = 37 ∨ d.crate = 39) (hcrate' : d'.crate = 37 ∨ d'.crate = 39)
    (hm : m.Of d) (hm' : m.Of d') : d.SameChannel d' := by
  refine ⟨?_, ?_, ?_⟩
  · have heq := hm.2.1.symm.trans hm'.2.1
    obtain h | h := hcrate <;> obtain h' | h' := hcrate' <;> simp_all
  · exact UInt8.toNat_inj.mp (Int.ofNat_inj.mp (hm.2.2.1.symm.trans hm'.2.2.1))
  · exact UInt8.toNat_inj.mp (hm.2.2.2.symm.trans hm'.2.2.2)

variable {past : Nat → Nat → UInt16} {round : Rat → F} {n : Nat} {data : List FADCdata}
  {M M₁ M' : HitMap F}

theorem Stored.of_head (hdistinct : ∀ d' ∈ data, ¬d.SameChannel d')
    (hcrate : ∀ d' ∈ d :: data, d'.crate = 37 ∨ d'.crate = 39) {m : DAQChannel} (hmem : m ∈ daqMap)
    (hm : m.Of d) (hs : t.slotOf d = some s) {hits : List (FADC_Hit F)}
    (hhits : s.HitsOf (past n) round d hits)
    (htail : Stored t past round (n + 1) data
      (Function.update M (m.x, m.y) (some ⟨n, (m.x, m.y), hits⟩)) M') :
    Stored t past round n (d :: data) M M' := by
  refine ⟨fun i d' m' hd' hmem' hm' => ?_, fun p hp => ?_⟩
  · cases i with
    | succ i =>
      rw [show n + (i + 1) = n + 1 + i by omega]
      exact htail.found i d' m' hd' hmem' hm'
    | zero =>
      cases Option.some.inj hd'
      have heq : m' = m := eq_of_place hmem' hmem (hm'.2.1.trans hm.2.1.symm)
        (hm'.2.2.1.trans hm.2.2.1.symm) (hm'.2.2.2.trans hm.2.2.2.symm)
      subst heq
      refine ⟨s, hits, hs, hhits, ?_⟩
      rw [htail.frame, Function.update_self]
      · rfl
      · intro e he m₁ hmem₁ hm₁ hpoint
        obtain ⟨hx, hy⟩ := Prod.mk.inj hpoint
        rw [← eq_of_crystal hmem hmem₁ hx hy] at hm₁
        exact hdistinct e he (hm.sameChannel (hcrate d (.head _)) (hcrate e (.tail _ he)) hm₁)
  · rw [htail.frame p fun e he => hp e (.tail _ he),
      Function.update_of_ne (hp d (.head _) m hmem hm)]

theorem Stored.of_skip (hno : ∀ m ∈ daqMap, ¬m.Of d)
    (htail : Stored t past round (n + 1) data M M') : Stored t past round n (d :: data) M M' := by
  refine ⟨fun i d' m' hd' hmem' hm' => ?_, fun p hp => htail.frame p fun e he => hp e (.tail _ he)⟩
  cases i with
  | succ i =>
    rw [show n + (i + 1) = n + 1 + i by omega]
    exact htail.found i d' m' hd' hmem' hm'
  | zero =>
    cases Option.some.inj hd'
    exact absurd hm' (hno m' hmem')

theorem exists_stored (past : Nat → Nat → UInt16) (round : Rat → F) (n : Nat)
    (ht : t.CarriesMap) (hfull : t.Full)
    (hNSA : ∀ d s, t.slotOf d = some s → ¬(1 ≤ s.NSA ∧ s.NSA ≤ 3))
    (hcrate : ∀ d ∈ data, d.crate = 37 ∨ d.crate = 39) (hchan : ∀ d ∈ data, d.chan.toNat < 16)
    (hdistinct : data.Pairwise fun d d' => ¬d.SameChannel d') (M : HitMap F) :
    ∃ fuel₀ M', Stored t past round n data M M' ∧ ∀ fuel ≥ fuel₀,
      Returns (HitMap.parseEntries (HitMap.compute past fuel) round t n data) M () M' := by
  induction data generalizing n M with
  | nil =>
    exact ⟨0, M, ⟨fun _ _ _ h => by simp at h, fun _ _ => rfl⟩, fun _ _ => ⟨rfl, rfl⟩⟩
  | cons d data ih =>
    obtain ⟨hhead, htail⟩ := List.pairwise_cons.mp hdistinct
    have hrest := fun n M => ih (n := n) (fun e he => hcrate e (.tail _ he))
      (fun e he => hchan e (.tail _ he)) htail M
    by_cases hno : ∀ m ∈ daqMap, ¬m.Of d
    · obtain ⟨fuel₀, M', hstored, hret⟩ := hrest (n + 1) M
      refine ⟨fuel₀, M', hstored.of_skip hno, fun fuel hfuel => ?_⟩
      have hskip := returns_parseEntry_not ht hfull (hcrate d (.head _)) (hchan d (.head _)) hno
        (HitMap.compute past fuel) round n M
      exact hskip.bind (hret fuel hfuel)
    · push Not at hno
      obtain ⟨m, hmem, hm⟩ := hno
      obtain ⟨s, hits, fuel₁, hs, hhits, hentry⟩ :=
        returns_parseEntry_of ht hfull (hNSA d) (hcrate d (.head _)) hmem hm past round n
      obtain ⟨fuel₂, M', hstored, hret⟩ :=
        hrest (n + 1) (Function.update M (m.x, m.y) (some ⟨n, (m.x, m.y), hits⟩))
      refine ⟨max fuel₁ fuel₂, M', hstored.of_head hhead hcrate hmem hm hs hhits,
        fun fuel hfuel => ?_⟩
      exact (hentry fuel (le_of_max_le_left hfuel) M).bind (hret fuel (le_of_max_le_right hfuel))

/-- The map has the hits of every entry of a channel of the ECAL at the crystal of the channel,
and it has nothing else. -/
theorem Parse_hitmap (past : Nat → Nat → UInt16) (round : Rat → F) {u : Uninit}
    (ht : t.Mapped u) (hfull : t.Full)
    (hNSA : ∀ d s, t.slotOf d = some s → ¬(1 ≤ s.NSA ∧ s.NSA ≤ 3))
    (hcrate : ∀ d ∈ data, d.crate = 37 ∨ d.crate = 39) (hchan : ∀ d ∈ data, d.chan.toNat < 16)
    (hdistinct : data.Pairwise fun d d' => ¬d.SameChannel d') (M : HitMap F) :
    ∃ fuel₀ map,
      (∀ fuel ≥ fuel₀, Returns (HitMap.Parse (HitMap.compute past fuel) round t data) M () map) ∧
      (∀ i d m, data[i]? = some d → m ∈ daqMap → m.Of d → ∃ s hits, t.slotOf d = some s ∧
        s.HitsOf (past i) round d hits ∧ map (m.x, m.y) = some ⟨i, (m.x, m.y), hits⟩) ∧
      ∀ p h, map p = some h → ∃ d, data[h.fadc_index]? = some d ∧
        ∃ m ∈ daqMap, m.Of d ∧ p = (m.x, m.y) := by
  obtain ⟨fuel₀, map, hstored, hret⟩ :=
    exists_stored past round 0 ht.carriesMap hfull hNSA hcrate hchan hdistinct fun _ => none
  have hfound := hstored.found
  simp only [Nat.zero_add] at hfound
  have hclear : Returns (modify fun _ _ => none : Exec Halt EcalObs (HitMap F) Unit) M ()
    fun _ => none := ⟨rfl, rfl⟩
  refine ⟨fuel₀, map, fun fuel hfuel => hclear.bind (hret fuel hfuel), hfound, fun p h hp => ?_⟩
  by_contra hnot
  have hnone : map p = none := by
    refine hstored.frame p ?_
    rintro d hd m hmem hm rfl
    obtain ⟨i, hi⟩ := List.getElem?_of_mem hd
    obtain ⟨s, hits, -, -, hat⟩ := hfound i d m hi hmem hm
    cases Option.some.inj (hp.symm.trans hat)
    exact hnot ⟨d, hi, m, hmem, hm, rfl⟩
  rw [hnone] at hp
  cases hp

end Hits

theorem Full.of {t : TriggerConfig} (h : ∀ c k s, (t.crateAt c).slots k = some s →
    s.Sized ∧ s.pedestal.length = 16 ∧ s.gain.length = 16) : t.Full := by
  intro c k s hs
  obtain ⟨hsized, hpedestal, hgain⟩ := h c k s hs
  exact ⟨hpedestal, hgain, hsized.threshold, hsized.subsystem, hsized.ix, hsized.iy⟩

theorem slots_putAll (c : FADC250_crate_t) (k v : Int) (f : Setting) :
    (c.putAll v f).slots k = (c.slots k).map (·.put v f) := rfl

def windowLines : List Str :=
  [str "FADC250_CRATE hps1", str "FADC250_NSA 8", str "FADC250_CRATE hps2", str "FADC250_NSA 8"]

def windowed : TriggerConfig := (fill ⟨0, 0, 0⟩ windowLines ofBank).state

set_option maxRecDepth 10000 in
theorem returns_windowed : Returns (fill ⟨0, 0, 0⟩ windowLines) ofBank () windowed := by
  constructor
  · decide +kernel
  · rfl

set_option maxRecDepth 10000 in
theorem edits_windowLines :
    edits ⟨0, 0, 0⟩ (rawLines windowLines) {} = [(1, .all .NSA 8), (2, .all .NSA 8)] := rfl

theorem slots_windowed {c : Nat} {k : Int} {s : FADC250_slot_t}
    (h : (windowed.crateAt c).slots k = some s) :
    s.Sized ∧ s.pedestal.length = 16 ∧ s.gain.length = 16 ∧ (s.NSA = 0 ∨ s.NSA = 8) := by
  have hcrate : windowed.crateAt c =
      (crateEdits ⟨0, 0, 0⟩ (rawLines windowLines) c).foldl Edit.run (ofBank.crateAt c) := by
    rw [crateAt_Parse_raw_data (sized_filled windowLines) (returns_fill.mp returns_windowed) c,
      crateAt_filled]
    rfl
  have hedits : crateEdits ⟨0, 0, 0⟩ (rawLines windowLines) c = [] ∨
      crateEdits ⟨0, 0, 0⟩ (rawLines windowLines) c = [.all .NSA 8] := by
    rw [crateEdits, edits_windowLines]
    simp only [ofCrate, List.filterMap_cons, List.filterMap_nil]
    split_ifs
    · omega
    · exact .inr rfl
    · exact .inr rfl
    · exact .inl rfl
  rw [hcrate] at h
  obtain hes | hes := hedits
  · rw [hes] at h
    obtain ⟨hsized, hpedestal, hgain, hNSA⟩ := slots_ofBank h
    exact ⟨hsized, hpedestal, hgain, .inl hNSA⟩
  · rw [hes, List.foldl_cons, List.foldl_nil, Edit.run, slots_putAll] at h
    obtain ⟨s', hs', rfl⟩ := Option.map_eq_some_iff.mp h
    obtain ⟨hsized, hpedestal, hgain, -⟩ := slots_ofBank hs'
    exact ⟨hsized.put 8 .NSA, hpedestal, hgain, .inr rfl⟩

theorem full_windowed : windowed.Full :=
  Full.of fun _ _ _ h => ⟨(slots_windowed h).1, (slots_windowed h).2.1, (slots_windowed h).2.2.1⟩

theorem mapped_windowed : windowed.Mapped ⟨0, 0, 0⟩ := .filled (.constructed .bank) returns_windowed

def hitMapEntries : List FADCdata :=
  [{ crate := 37, slot := 20, chan := 12, samples := [100, 100, 104, 96, 180, 150, 100, 100] },
    { crate := 39, slot := 20, chan := 12, samples := [100, 100, 104, 96] }]

theorem Parse_hitmap_hitMapEntries :
    ∃ fuel₀ map,
      (∀ fuel ≥ fuel₀, Returns (HitMap.Parse (HitMap.compute (fun _ _ => 0) fuel) id windowed
        hitMapEntries) (fun _ => none) () map) ∧
      (∀ i d m, hitMapEntries[i]? = some d → m ∈ daqMap → m.Of d → ∃ s hits,
        windowed.slotOf d = some s ∧ s.HitsOf (fun _ => 0) id d hits ∧
          map (m.x, m.y) = some ⟨i, (m.x, m.y), hits⟩) ∧
      ∀ p h, map p = some h → ∃ d, hitMapEntries[h.fadc_index]? = some d ∧
        ∃ m ∈ daqMap, m.Of d ∧ p = (m.x, m.y) := by
  refine Parse_hitmap (F := Rat) (fun _ _ => 0) id mapped_windowed full_windowed ?_ ?_ ?_ ?_ _
  · intro d s hs
    rw [slotOf_eq] at hs
    obtain hNSA | hNSA := (slots_windowed hs).2.2.2 <;> omega
  · decide
  · decide
  · exact List.pairwise_pair.mpr (by decide)

/-- There is one pulse in the first entry. -/
example : ∃ d ∈ hitMapEntries[0]?, ∃ s ∈ windowed.slotOf d,
    (d.computeMode7fast (F := Rat) (fun _ => 0) 8 (s.threshold.getD 12 0) (s.pedestal.getD 12 0)
      s.NSB s.NSA s.npeak (s.gain.getD 12 0)).map List.length = some 1 := by
  decide +kernel

end EvioTool
