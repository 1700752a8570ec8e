import EvioTool.Laws.ConfigEdits

namespace EvioTool

open Lib Exec TriggerConfig

def setChannel (s : FADC250_slot_t) (m : DAQChannel) : FADC250_slot_t :=
  s.set_sxy m.chan m.sub m.x m.y

def daqSlot (c : Nat) (k : Int) (o : Option FADC250_slot_t) (m : DAQChannel) :
    Option FADC250_slot_t :=
  if m.crate = c ∧ m.slot = k then some (setChannel (o.getD {}) m) else o

def placed (c : Nat) (k : Int) (ms : List DAQChannel) : List DAQChannel :=
  ms.filter fun m => m.crate = c ∧ m.slot = k

section Fold

variable {c : Nat} {k : Int} {ms : List DAQChannel}

theorem foldl_daqSlot (ms : List DAQChannel) (o : Option FADC250_slot_t) :
    ms.foldl (daqSlot c k) o =
      (placed c k ms).foldl (fun o m => some (setChannel (o.getD {}) m)) o := by
  rw [placed, List.foldl_filter]
  congr
  funext o m
  simp only [daqSlot, decide_eq_true_eq]

theorem foldl_setChannel_some (ms : List DAQChannel) (s : FADC250_slot_t) :
    ms.foldl (fun o m => some (setChannel (o.getD {}) m)) (some s) =
      some (ms.foldl setChannel s) :=
  List.foldl_hom some fun _ _ => rfl

theorem foldl_daqSlot_of_nil (h : placed c k ms = []) (o : Option FADC250_slot_t) :
    ms.foldl (daqSlot c k) o = o := by
  rw [foldl_daqSlot, h]
  rfl

theorem foldl_daqSlot_of_ne_nil (h : placed c k ms ≠ []) (o : Option FADC250_slot_t) :
    ms.foldl (daqSlot c k) o = some ((placed c k ms).foldl setChannel (o.getD {})) := by
  rw [foldl_daqSlot]
  cases hm : placed c k ms with
  | nil => exact (h hm).elim
  | cons m ms => exact foldl_setChannel_some ms _

theorem getD_setSxy (crates : List FADC250_crate_t) (m : DAQChannel) (c : Nat)
    (hm : m.crate < crates.length) :
    (setSxy crates m).getD c {} =
      if m.crate = c then (crates.getD c {}).onSlot m.slot (setChannel · m)
      else crates.getD c {} := by
  simp only [setSxy, List.getD_eq_getElem?_getD, List.getElem?_modify]
  split
  · rename_i h
    subst h
    rw [List.getElem?_eq_getElem hm]
    rfl
  · simp

theorem foldl_setSxy (crates : List FADC250_crate_t) (hms : ∀ m ∈ ms, m.crate < crates.length)
    (c : Nat) :
    (ms.foldl setSxy crates).getD c {} =
      { crates.getD c {} with
        slots := fun k => ms.foldl (daqSlot c k) ((crates.getD c {}).slots k) } := by
  induction ms generalizing crates with
  | nil => rfl
  | cons m ms ih =>
    have hlength : (setSxy crates m).length = crates.length := List.length_modify _ _ _
    rw [List.foldl_cons, ih _ fun m' h => hlength ▸ hms m' (.tail _ h),
      getD_setSxy crates m c (hms m (.head _))]
    split
    · rename_i h
      dsimp only
      congr 1
      funext k
      rw [List.foldl_cons]
      congr 1
      simp only [FADC250_crate_t.onSlot, Function.update_apply, daqSlot, h, true_and,
        eq_comm (a := k)]
      split
      · rename_i hk
        rw [hk]
      · rfl
    · rename_i h
      dsimp only
      congr 1
      funext k
      rw [List.foldl_cons, daqSlot, if_neg fun hk => h hk.1]

end Fold

set_option maxRecDepth 10000 in
theorem daqMap_crate_le : ∀ m ∈ daqMap, m.crate ≤ 2 := by decide

theorem length_foldl_setSxy (ms : List DAQChannel) (crates : List FADC250_crate_t) :
    (ms.foldl setSxy crates).length = crates.length := by
  induction ms generalizing crates with
  | nil => rfl
  | cons m ms ih => rw [List.foldl_cons, ih, setSxy, List.length_modify]

theorem length_InitDAQMaps (t : TriggerConfig) :
    (InitDAQMaps t).crates.length = max t.crates.length 3 := by
  rw [InitDAQMaps, List.length_map, length_foldl_setSxy, length_growCrates]

theorem vtp_configs_InitDAQMaps (t : TriggerConfig) :
    (InitDAQMaps t).vtp_configs = t.vtp_configs := by
  rw [InitDAQMaps]

theorem vtp_other_InitDAQMaps (t : TriggerConfig) : (InitDAQMaps t).vtp_other = t.vtp_other := by
  rw [InitDAQMaps]

theorem getD_map_numberSlots (crates : List FADC250_crate_t) (c : Nat) :
    (crates.map numberSlots).getD c {} = numberSlots (crates.getD c {}) := by
  rw [List.getD_eq_getElem?_getD, List.getD_eq_getElem?_getD, List.getElem?_map]
  cases crates[c]? <;> rfl

def FADC250_slot_t.withNumber (s : FADC250_slot_t) (k : Int) : FADC250_slot_t :=
  { s with slot := k }

def mapSlot (c : Nat) (k : Int) (o : Option FADC250_slot_t) : Option FADC250_slot_t :=
  (daqMap.foldl (daqSlot c k) o).map (·.withNumber k)

def place (c : Nat) (k : Int) (s : FADC250_slot_t) : FADC250_slot_t :=
  (placed c k daqMap).foldl setChannel s

theorem mapSlot_of_nil {c : Nat} {k : Int} (h : placed c k daqMap = [])
    (o : Option FADC250_slot_t) : mapSlot c k o = o.map (·.withNumber k) := by
  rw [mapSlot, foldl_daqSlot_of_nil h]

theorem mapSlot_of_ne_nil {c : Nat} {k : Int} (h : placed c k daqMap ≠ [])
    (o : Option FADC250_slot_t) :
    mapSlot c k o = some ((place c k (o.getD {})).withNumber k) := by
  rw [mapSlot, foldl_daqSlot_of_ne_nil h]
  rfl

theorem crateAt_InitDAQMaps (t : TriggerConfig) (c : Nat) :
    (InitDAQMaps t).crateAt c =
      { t.crateAt c with slots := fun k => mapSlot c k ((t.crateAt c).slots k) } := by
  have hlength : ∀ m ∈ daqMap, m.crate < (growCrates 2 t.crates).length := by
    intro m hm
    have hle := daqMap_crate_le m hm
    rw [length_growCrates]
    omega
  have hfold := foldl_setSxy (growCrates 2 t.crates) hlength c
  have hgrow := crateAt_grow (t := t) 2 c
  have hmode := congrArg FADC250_crate_t.mode hgrow
  have hall := congrArg FADC250_crate_t.all_slots hgrow
  have hslots := congrArg FADC250_crate_t.slots hgrow
  simp only [crateAt] at hmode hall hslots
  simp only [crateAt, InitDAQMaps, getD_map_numberSlots, hfold, numberSlots, hmode, hall, hslots]
  rfl

theorem sized_setChannel {s : FADC250_slot_t} (hs : s.Sized) (m : DAQChannel) :
    (setChannel s m).Sized :=
  ⟨hs.threshold, List.length_set.trans hs.subsystem, List.length_set.trans hs.ix,
    List.length_set.trans hs.iy⟩

theorem sized_foldl_setChannel {s : FADC250_slot_t} (hs : s.Sized) (ms : List DAQChannel) :
    (ms.foldl setChannel s).Sized := by
  induction ms generalizing s with
  | nil => exact hs
  | cons m ms ih => exact ih (sized_setChannel hs m)

theorem TriggerConfig.sized_empty : ({} : TriggerConfig).Sized :=
  fun c => FADC250_crate_t.sized_empty c

theorem sized_mapSlot {c : Nat} {k : Int} {o : Option FADC250_slot_t} {s : FADC250_slot_t}
    (ho : ∀ s, o = some s → s.Sized) (hs : mapSlot c k o = some s) : s.Sized := by
  by_cases h : placed c k daqMap = []
  · rw [mapSlot_of_nil h] at hs
    obtain ⟨s', hs', rfl⟩ := Option.map_eq_some_iff.mp hs
    have hs' := ho s' hs'
    exact ⟨hs'.threshold, hs'.subsystem, hs'.ix, hs'.iy⟩
  · rw [mapSlot_of_ne_nil h] at hs
    cases hs
    suffices hplace : (place c k (o.getD {})).Sized from
      ⟨hplace.threshold, hplace.subsystem, hplace.ix, hplace.iy⟩
    apply sized_foldl_setChannel
    cases o with
    | none => exact FADC250_slot_t.sized_default
    | some s => exact ho s rfl

theorem TriggerConfig.Sized.InitDAQMaps {t : TriggerConfig} (ht : t.Sized) :
    (InitDAQMaps t).Sized := by
  intro c
  rw [crateAt_InitDAQMaps]
  have hc := ht c
  exact ⟨hc.all, hc.gain, hc.pedestal, fun k s hs => sized_mapSlot (hc.slots k) hs⟩

theorem rest_foldl_setChannel (ms : List DAQChannel) (s : FADC250_slot_t) :
    (ms.foldl setChannel s).pedestal = s.pedestal ∧ (ms.foldl setChannel s).gain = s.gain ∧
      (ms.foldl setChannel s).NSA = s.NSA := by
  induction ms generalizing s with
  | nil => exact ⟨rfl, rfl, rfl⟩
  | cons m ms ih => exact ih (setChannel s m)

theorem ofBank_slots (c : Nat) (k : Int) : (ofBank.crateAt c).slots k = mapSlot c k none := by
  rw [ofBank, crateAt_InitDAQMaps]
  rfl

theorem slots_ofBank {c : Nat} {k : Int} {s : FADC250_slot_t}
    (h : (ofBank.crateAt c).slots k = some s) :
    s.Sized ∧ s.pedestal.length = 16 ∧ s.gain.length = 16 ∧ s.NSA = 0 := by
  have hsized : ofBank.Sized := sized_empty.InitDAQMaps
  refine ⟨(hsized c).slots k s h, ?_⟩
  have hslot : mapSlot c k none = some s := (ofBank_slots c k).symm.trans h
  by_cases hnil : placed c k daqMap = []
  · rw [mapSlot_of_nil hnil] at hslot
    cases hslot
  · rw [mapSlot_of_ne_nil hnil] at hslot
    cases hslot
    have hrest := rest_foldl_setChannel (placed c k daqMap) {}
    simp only [FADC250_slot_t.withNumber, place, Option.getD_none, hrest, List.length_replicate,
      and_self]

theorem returns_ofFile {u : Uninit} {lines : List Str} {t : TriggerConfig} :
    Returns (ofFile u lines) {} () t ↔
    ∃ v, Returns (Parse_raw_data u) { raw_data := rawLines lines } () v ∧ t = InitDAQMaps v := by
  simp only [ofFile, Parse_trigger_file, returns_bind, returns_modify]
  constructor
  · rintro ⟨_, w, ⟨_, _, rfl, hw⟩, rfl⟩
    exact ⟨w, hw, rfl⟩
  · rintro ⟨w, hw, rfl⟩
    exact ⟨(), w, ⟨(), _, rfl, hw⟩, rfl⟩

end EvioTool
