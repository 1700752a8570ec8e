import EvioTool.Laws.SlotHistory

namespace EvioTool

open Lib Exec TriggerConfig

section Slot

variable {k : Int} {s : FADC250_slot_t} {es rest : List Edit} {e : Edit}

structure OwnPart (k : Int) (part : FADC250_slot_t → Nat) (w : Edit → Option Nat) : Prop where
  put (s : FADC250_slot_t) (v : Int) (f : Setting) : part (s.put v f) = part s
  own (s : FADC250_slot_t) (e : SlotEdit) : part (e.run s) = (w (.own k e)).getD (part s)
  slot : w (.slot k) = none
  other (e : Edit) : ¬e.Names k → w e = none

theorem OwnPart.onSlot {part : FADC250_slot_t → Nat} {w : Edit → Option Nat} (h : OwnPart k part w)
    (s : FADC250_slot_t) (e : Edit) : part (e.onSlot k s) = (w e).getD (part s) := by
  cases e with
  | slot j =>
    by_cases hj : j = k
    · rw [hj, h.slot]
      rfl
    · rw [h.other (.slot j) hj]
      rfl
  | mode v =>
    rw [h.other (.mode v) id]
    rfl
  | all f v =>
    rw [h.other (.all f v) id]
    exact h.put s v f
  | own j e =>
    by_cases hj : j = k
    · rw [hj, Edit.onSlot, if_pos rfl]
      exact h.own s e
    · rw [h.other (.own j e) hj, Edit.onSlot, if_neg hj]
      rfl

theorem OwnPart.fold {part : FADC250_slot_t → Nat} {w : Edit → Option Nat} (h : OwnPart k part w)
    (s : FADC250_slot_t) (es : List Edit) :
    part (es.foldl (Edit.onSlot k) s) = written (es.map w) (part s) :=
  foldl_written (I := fun _ => True) (Edit.onSlot k) part w (fun _ _ _ => trivial)
    (fun s e _ => h.onSlot s e) es trivial

theorem ownPart_gain (k : Int) : OwnPart k (fun s => s.gain.length) (Edit.gainLength k) where
  put _ _ f := by cases f <;> rfl
  own s e := by
    cases e with
    | setting f v => cases f <;> rfl
    | gain xs => simp [SlotEdit.run, Edit.gainLength]
    | _ => rfl
  slot := rfl
  other e he := by
    cases e with
    | own j e =>
      cases e with
      | gain xs => exact if_neg he
      | _ => rfl
    | _ => rfl

theorem ownPart_pedestal (k : Int) :
    OwnPart k (fun s => s.pedestal.length) (Edit.pedestalLength k) where
  put _ _ f := by cases f <;> rfl
  own s e := by
    cases e with
    | setting f v => cases f <;> rfl
    | pedestal xs => simp [SlotEdit.run, Edit.pedestalLength]
    | _ => rfl
  slot := rfl
  other e he := by
    cases e with
    | own j e =>
      cases e with
      | pedestal xs => exact if_neg he
      | _ => rfl
    | _ => rfl

theorem slot_run (s : FADC250_slot_t) (e : SlotEdit) : (e.run s).slot = s.slot := by
  cases e with
  | setting f v => cases f <;> rfl
  | _ => rfl

theorem slot_onSlot (s : FADC250_slot_t) (e : Edit) : (e.onSlot k s).slot = s.slot := by
  cases e with
  | all f v => cases f <;> rfl
  | own j e =>
    simp only [Edit.onSlot]
    split
    · exact slot_run s e
    · rfl
  | _ => rfl

theorem sized_fold (hs : s.Sized) (es : List Edit) : (es.foldl (Edit.onSlot k) s).Sized := by
  induction es generalizing s with
  | nil => exact hs
  | cons e es ih => exact ih (sized_onSlot hs e)

theorem slot_fold (s : FADC250_slot_t) (es : List Edit) :
    (es.foldl (Edit.onSlot k) s).slot = s.slot := by
  induction es generalizing s with
  | nil => rfl
  | cons e es ih => rw [List.foldl_cons, ih, slot_onSlot]

theorem wellShaped_fold_iff (hs : s.Sized) (hslot : s.slot = k) (es : List Edit) :
    (es.foldl (Edit.onSlot k) s).WellShaped k ↔
      written (es.map (Edit.gainLength k)) s.gain.length = 16 ∧
        written (es.map (Edit.pedestalLength k)) s.pedestal.length = 16 := by
  rw [← (ownPart_gain k).fold, ← (ownPart_pedestal k).fold]
  have hsized := sized_fold (k := k) hs es
  constructor
  · exact fun h => ⟨h.gain, h.pedestal⟩
  · exact fun ⟨hgain, hpedestal⟩ => ⟨(slot_fold s es).trans hslot, hpedestal, hgain,
      hsized.threshold, hsized.subsystem, hsized.ix, hsized.iy⟩

theorem gain_foldAll (s : FADC250_slot_t) (es : List Edit) :
    (es.foldl Edit.onAll s).gain = s.gain ∧ (es.foldl Edit.onAll s).pedestal = s.pedestal := by
  induction es generalizing s with
  | nil => exact ⟨rfl, rfl⟩
  | cons e es ih =>
    obtain ⟨hgain, hpedestal⟩ := ih (e.onAll s)
    rw [List.foldl_cons, hgain, hpedestal]
    cases e with
    | all f v => cases f <;> exact ⟨rfl, rfl⟩
    | _ => exact ⟨rfl, rfl⟩

theorem OwnPart.written_since {part : FADC250_slot_t → Nat} {w : Edit → Option Nat}
    (h : OwnPart k part w) (es : List Edit) (n : Nat) :
    written (es.map w) n = written ((since k es).map w) n := by
  conv_lhs => rw [← before_append_since k es, List.map_append, written_append]
  congr 1
  apply written_of_none
  intro x hx
  obtain ⟨e, he, rfl⟩ := List.mem_map.mp hx
  exact h.other e (not_names_of_mem_before k es e he)

end Slot

section Crate

variable {c : FADC250_crate_t} {k : Int} {es rest : List Edit}

theorem slotLines_of_slot (hs : since k es = .slot k :: rest) :
    SlotLines es none k ↔
      written (rest.map (Edit.gainLength k)) 16 = 16 ∧
        written (rest.map (Edit.pedestalLength k)) 16 = 16 := by
  have hgain := (ownPart_gain k).written_since es 16
  have hpedestal := (ownPart_pedestal k).written_since es 16
  rw [hs] at hgain hpedestal
  constructor
  · exact fun h => ⟨hgain.symm.trans h.gain, hpedestal.symm.trans h.pedestal⟩
  · intro h
    refine ⟨fun _ e he => ?_, hgain.trans h.1, hpedestal.trans h.2⟩
    rw [hs] at he
    cases he
    rfl

theorem slotLines_of_nil (hs : since k es = []) : SlotLines es none k := by
  have hgain := (ownPart_gain k).written_since es 16
  have hpedestal := (ownPart_pedestal k).written_since es 16
  rw [hs] at hgain hpedestal
  refine ⟨fun _ e he => ?_, hgain, hpedestal⟩
  rw [hs] at he
  cases he

theorem wellShaped_iff_slotLines (hc : c.Sized) (hslot : ∀ s, c.slots k = some s → s.slot = k)
    (hown : ∀ e, .own k e ∈ es → k ≠ 0) :
    (∀ s, (es.foldl Edit.run c).slots k = some s → s.WellShaped k) ↔ SlotLines es (c.slots k) k := by
  cases h : c.slots k with
  | some s =>
    rw [slots_fold_some h]
    simp only [Option.some.injEq, forall_eq']
    rw [wellShaped_fold_iff (hc.slots k s h) (hslot s h)]
    exact ⟨fun hw => ⟨nofun, hw.1, hw.2⟩, fun hw => ⟨hw.gain, hw.pedestal⟩⟩
  | none =>
    obtain hs | ⟨rest, hs⟩ | ⟨e, rest, hs⟩ := since_cases k es
    · rw [slots_of_nil h hs]
      exact iff_of_true nofun (slotLines_of_nil hs)
    · rw [slots_of_slot h hs]
      simp only [Option.some.injEq, forall_eq']
      obtain ⟨hgain, hpedestal⟩ := gain_foldAll c.all_slots (before k es)
      have hsized := sized_fold (k := k) hc.all (before k es)
      rw [fold_of_not_names (not_names_of_mem_before k es)] at hsized
      refine (wellShaped_fold_iff (s := FADC250_slot_t.fromAll _ k)
        ⟨hsized.threshold, rfl, rfl, rfl⟩ rfl rest).trans ?_
      simp only [FADC250_slot_t.fromAll, hgain, hpedestal, hc.gain, hc.pedestal]
      exact (slotLines_of_slot hs).symm
    · rw [slots_of_own h hs]
      simp only [Option.some.injEq, forall_eq']
      have hmem : Edit.own k e ∈ es := (List.dropWhile_sublist _).mem (hs ▸ List.mem_cons_self)
      refine iff_of_false (fun hw => hown e hmem ?_) fun hw => ?_
      · exact hw.slot.symm.trans ((slot_fold _ rest).trans (slot_run {} e))
      · have hhead := hw.named rfl (.own k e) (by rw [hs]; rfl)
        cases hhead

end Crate

def OwnNeZero (r : Option (Int × List Edit)) : Prop :=
  ∀ cur es k e, r = some (cur, es) → .own k e ∈ es → k ≠ 0

section OwnNeZero

variable {u : Uninit} {dat : Str} {cur : Int}

theorem ownNeZero_ite {c : Prop} [Decidable c] {r r' : Option (Int × List Edit)} (h : OwnNeZero r)
    (h' : OwnNeZero r') : OwnNeZero (if c then r else r') := by
  split
  · exact h
  · exact h'

theorem ownNeZero_map {n : Option Int} {f : Int → Int × List Edit}
    (hf : ∀ v k e, .own k e ∈ (f v).2 → k ≠ 0) : OwnNeZero (n.map f) := by
  intro cur es k e h
  obtain ⟨v, -, hv⟩ := Option.map_eq_some_iff.mp h
  have hfv := hf v k e
  rw [hv] at hfv
  exact hfv

theorem ownNeZero_setting (f : Setting) : OwnNeZero (settingEdit dat cur f) := by
  apply ownNeZero_map
  intro v k e h
  have h := List.mem_singleton.mp h
  split at h
  · cases h
  · rename_i hcur
    cases h
    exact hcur

theorem ownNeZero_ownEdit (e : SlotEdit) : OwnNeZero (ownEdit cur e) := by
  rintro _ _ k e' ⟨⟩ h
  split at h
  · cases h
  · rename_i hcur
    cases List.mem_singleton.mp h
    exact hcur

theorem ownNeZero_fadcEdit (u : Uninit) (tok dat : Str) (cur : Int) :
    OwnNeZero (fadcEdit u tok dat cur) := by
  have hnone : ∀ cur, OwnNeZero (some (cur, [])) := by
    rintro cur _ _ k e ⟨⟩ h
    cases h
  unfold fadcEdit
  apply ownNeZero_ite
  · apply ownNeZero_ite (hnone 0)
    apply ownNeZero_map
    intro v k e h
    cases List.mem_singleton.mp h
  apply ownNeZero_ite
  · apply ownNeZero_map
    intro v k e h
    cases List.mem_singleton.mp h
  iterate 6
    apply ownNeZero_ite (ownNeZero_setting _)
  iterate 3
    apply ownNeZero_ite (ownNeZero_ownEdit _)
  exact hnone cur

end OwnNeZero

theorem lineEdits_own {u : Uninit} {line : Str} {p : Cursor} {c : Nat} {k : Int} {e : SlotEdit}
    (h : (c, .own k e) ∈ (lineEdits u line p).2) : k ≠ 0 := by
  unfold lineEdits at h
  dsimp only at h
  split at h
  · cases h
  split at h
  · cases h
  split at h
  · cases h
  · obtain ⟨e', he', hpair⟩ := List.mem_map.mp h
    cases hpair
    cases hr : fadcEdit u (lineTok line) (lineDat line) p.slot with
    | none =>
      rw [hr] at he'
      cases he'
    | some r =>
      rw [hr] at he'
      exact ownNeZero_fadcEdit u _ _ _ r.1 r.2 k e hr he'

theorem crateEdits_own {u : Uninit} {lines : List Str} {c : Nat} {k : Int} {e : SlotEdit}
    (h : .own k e ∈ crateEdits u lines c) : k ≠ 0 := by
  obtain ⟨⟨j, e'⟩, hm, hcrate⟩ := List.mem_filterMap.mp h
  obtain ⟨-, rfl⟩ : j = c ∧ e' = .own k e := by simpa using hcrate
  clear h hcrate
  revert hm
  generalize ({} : Cursor) = p
  induction lines generalizing p with
  | nil => exact nofun
  | cons line lines ih =>
    intro hm
    obtain hm | hm := List.mem_append.mp hm
    · exact lineEdits_own hm
    · exact ih _ hm

variable {u : Uninit} {t : TriggerConfig}

theorem slot_mapSlot {c : Nat} {k : Int} {o : Option FADC250_slot_t} {s : FADC250_slot_t}
    (h : mapSlot c k o = some s) : s.slot = k := by
  obtain ⟨s', -, rfl⟩ := Option.map_eq_some_iff.mp h
  rfl

theorem slot_InitDAQMaps (t : TriggerConfig) (c : Nat) (k : Int) (s : FADC250_slot_t)
    (h : ((InitDAQMaps t).crateAt c).slots k = some s) : s.slot = k := by
  rw [crateAt_InitDAQMaps] at h
  exact slot_mapSlot h

theorem TriggerConfig.Constructed.sized (h : Constructed u t) : t.Sized := by
  cases h with
  | bank => exact sized_empty.InitDAQMaps
  | file hr =>
    obtain ⟨w, hw, rfl⟩ := returns_ofFile.mp hr
    have hsized := sized_Parse_raw_data (t := { raw_data := rawLines _ }) sized_empty hw
    exact hsized.InitDAQMaps

theorem TriggerConfig.Constructed.slot (h : Constructed u t) (c : Nat) (k : Int)
    (s : FADC250_slot_t) (hs : (t.crateAt c).slots k = some s) : s.slot = k := by
  cases h with
  | bank =>
    rw [ofBank] at hs
    exact slot_InitDAQMaps {} c k s hs
  | file hr =>
    obtain ⟨w, hw, rfl⟩ := returns_ofFile.mp hr
    exact slot_InitDAQMaps w c k s hs

theorem Parse_raw_data_apply (u : Uninit) (t : TriggerConfig) :
    Parse_raw_data u t =
      ⟨(parseLines u t.raw_data { config := t }).out,
        (parseLines u t.raw_data { config := t }).state.config,
        (parseLines u t.raw_data { config := t }).log⟩ := by
  rw [Parse_raw_data, gets_bind_apply]
  rfl

theorem mem_channels {es : List (Nat × Edit)} :
    (∀ chan ∈ channels es, 0 ≤ chan ∧ chan < 16) ↔
      ∀ m ∈ es, ∀ chan ∈ m.2.channels, 0 ≤ chan ∧ chan < 16 := by
  simp only [channels, List.mem_flatMap]
  constructor
  · exact fun h m hm chan hc => h chan ⟨m, hm, hc⟩
  · rintro h chan ⟨m, hm, hc⟩
    exact h m hm chan hc

/-- A parsed configuration has its shape when its lines give it one. -/
theorem Parse_raw_data_shaped_iff (ht : Constructed u t) (lines : List Str)
    (hex : (Parse_raw_data u { t with raw_data := lines }).out ≠ .error .exception) :
    ((∀ chan ∈ (Parse_raw_data u { t with raw_data := lines }).log, 0 ≤ chan ∧ chan < 16) ∧
        (Parse_raw_data u { t with raw_data := lines }).state.WellShaped) ↔
      ShapedLines u lines t := by
  obtain ⟨p, hp⟩ := applies_parseLines (s := { config := { t with raw_data := lines } })
    u lines ht.sized (Nat.zero_le 2)
  rw [Parse_raw_data_apply] at hex ⊢
  dsimp only at hex ⊢
  cases ho : (parseLines u lines { config := { t with raw_data := lines } }).out with
  | error e =>
    cases e with
    | exception => exact (hex ho).elim
    | outside =>
      obtain ⟨chan, hc, hbad⟩ := hp.outside ho
      refine iff_of_false (fun h => hbad (h.1 chan hc)) fun h => hbad ?_
      exact mem_channels.mpr h.channels chan (hp.logs chan hc)
  | ok a =>
    rw [hp.log ho]
    have hslots : ∀ c k, (∀ s, ((parseLines u lines
        { config := { t with raw_data := lines } }).state.config.crateAt c).slots k = some s →
          s.WellShaped k) ↔ SlotLines (crateEdits u lines c) ((t.crates.getD c {}).slots k) k := by
      intro c k
      rw [hp.crates ho c]
      exact wellShaped_iff_slotLines (ht.sized c) (ht.slot c k) fun e => crateEdits_own
    constructor
    · exact fun ⟨hchannels, hshape⟩ =>
        ⟨mem_channels.mp hchannels, fun c k => (hslots c k).mp (hshape c k)⟩
    · exact fun h => ⟨mem_channels.mpr h.channels, fun c k => (hslots c k).mpr (h.slots c k)⟩

def channelLines : List Str :=
  [str "FADC250_CRATE hps1", str "FADC250_SLOT 3", str "FADC250_CH_TET 15 7"]

set_option maxRecDepth 10000 in
theorem edits_channelLines :
    edits ⟨0, 0, 0⟩ channelLines {} = [(1, .slot 3), (1, .own 3 (.threshold 15 7))] := rfl

theorem slotLines_channelLines {o : Option FADC250_slot_t}
    (ho : ∀ s, o = some s → s.gain.length = 16 ∧ s.pedestal.length = 16) (c : Nat) (k : Int) :
    SlotLines (crateEdits ⟨0, 0, 0⟩ channelLines c) o k := by
  have hgain : (o.elim 16 fun s => s.gain.length) = 16 := by
    cases o with
    | none => rfl
    | some s => exact (ho s rfl).1
  have hpedestal : (o.elim 16 fun s => s.pedestal.length) = 16 := by
    cases o with
    | none => rfl
    | some s => exact (ho s rfl).2
  rw [crateEdits, edits_channelLines]
  by_cases hc : 1 = c
  · subst hc
    refine ⟨fun _ e he => ?_, hgain, hpedestal⟩
    by_cases hk : 3 = k
    · subst hk
      cases he
      rfl
    · simp [ofCrate, since, Edit.Names, hk] at he
  · simp only [ofCrate, List.filterMap_cons, if_neg hc, List.filterMap_nil]
    exact ⟨fun _ e he => (Option.not_mem_none e he).elim, hgain, hpedestal⟩

theorem shaped_channelLines : ShapedLines ⟨0, 0, 0⟩ channelLines ofBank := by
  constructor
  · rw [edits_channelLines]
    decide
  · intro c k
    refine slotLines_channelLines (fun s hs => ?_) c k
    rw [← slots_crateAt] at hs
    obtain ⟨-, hpedestal, hgain, -⟩ := slots_ofBank hs
    exact ⟨hgain, hpedestal⟩

set_option maxRecDepth 10000 in
theorem Parse_raw_data_shaped_channel :
    (∀ chan ∈ (Parse_raw_data ⟨0, 0, 0⟩ { ofBank with raw_data := channelLines }).log,
        0 ≤ chan ∧ chan < 16) ∧
      (Parse_raw_data ⟨0, 0, 0⟩ { ofBank with raw_data := channelLines }).state.WellShaped := by
  refine (Parse_raw_data_shaped_iff .bank channelLines ?_).mpr shaped_channelLines
  unfold channelLines
  exact nofun

set_option maxRecDepth 10000 in
theorem Parse_raw_data_one_gain :
    ¬∀ u t lines, Constructed u t →
      (Parse_raw_data u { t with raw_data := lines }).out ≠ .error .exception →
      (∀ chan ∈ (Parse_raw_data u { t with raw_data := lines }).log, 0 ≤ chan ∧ chan < 16) ∧
        (Parse_raw_data u { t with raw_data := lines }).state.WellShaped := by
  intro h
  have hshape := (h ⟨0, 0, 0⟩ ofBank
    [str "FADC250_CRATE hps1", str "FADC250_SLOT 3", str "FADC250_ALLCH_GAIN 1"] .bank nofun).2 1 3
  have hone : (((Parse_raw_data ⟨0, 0, 0⟩ { ofBank with raw_data :=
      [str "FADC250_CRATE hps1", str "FADC250_SLOT 3",
        str "FADC250_ALLCH_GAIN 1"] }).state.crates.getD 1 {}).slots 3).map
      (fun s => s.gain.length) = some 1 := by decide +kernel
  obtain ⟨s, hs, hlength⟩ := Option.map_eq_some_iff.mp hone
  cases hlength.symm.trans (hshape s hs).gain

end EvioTool
