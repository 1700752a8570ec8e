import EvioTool.Laws.SlotHistory
import EvioTool.Lib.Alike

namespace EvioTool

open Lib Exec TriggerConfig

structure FADC250_slot_t.Beside (s s' : FADC250_slot_t) : Prop where
  sized : s.Sized
  sized' : s'.Sized
  pedestal : s.pedestal = s'.pedestal
  gain : s.gain = s'.gain
  subsystem : s.subsystem = s'.subsystem
  ix : s.ix = s'.ix
  iy : s.iy = s'.iy

section Beside

variable {s s' : FADC250_slot_t} {k : Int} {e : Edit} {es : List Edit}

theorem FADC250_slot_t.Beside.refl (h : s.Sized) : s.Beside s := ⟨h, h, rfl, rfl, rfl, rfl, rfl⟩

theorem FADC250_slot_t.Beside.put (h : s.Beside s') (v v' : Int) (f : Setting) :
    (s.put v f).Beside (s'.put v' f) := by
  cases f <;> exact ⟨h.sized.put v _, h.sized'.put v' _, h.pedestal, h.gain, h.subsystem, h.ix, h.iy⟩

theorem FADC250_slot_t.Beside.put_right (h : s.Beside s') (v : Int) (f : Setting) :
    s.Beside (s'.put v f) := by
  cases f <;> exact ⟨h.sized, h.sized'.put v _, h.pedestal, h.gain, h.subsystem, h.ix, h.iy⟩

theorem FADC250_slot_t.Beside.run (h : s.Beside s') (e : SlotEdit) : (e.run s).Beside (e.run s') := by
  have hs := e.sized_run h.sized
  have hs' := e.sized_run h.sized'
  cases e with
  | setting f v => exact h.put v v f
  | threshold chan thres => exact ⟨hs, hs', h.pedestal, h.gain, h.subsystem, h.ix, h.iy⟩
  | gain xs => exact ⟨hs, hs', h.pedestal, rfl, h.subsystem, h.ix, h.iy⟩
  | pedestal xs => exact ⟨hs, hs', rfl, h.gain, h.subsystem, h.ix, h.iy⟩

theorem FADC250_slot_t.Beside.onSlot (h : s.Beside s') (e : Edit) :
    (e.onSlot k s).Beside (e.onSlot k s') := by
  cases e with
  | all f v => exact h.put v v f
  | own j e =>
    simp only [Edit.onSlot]
    split
    · exact h.run e
    · exact h
  | _ => exact h

theorem FADC250_slot_t.Beside.fold (h : s.Beside s') (es : List Edit) :
    (es.foldl (Edit.onSlot k) s).Beside (es.foldl (Edit.onSlot k) s') := by
  induction es generalizing s s' with
  | nil => exact h
  | cons e es ih => exact ih (h.onSlot e)

theorem FADC250_slot_t.Beside.foldAll (h : s.Beside s') (es : List Edit) :
    s.Beside (es.foldl Edit.onAll s') := by
  induction es generalizing s' with
  | nil => exact h
  | cons e es ih =>
    apply ih
    cases e with
    | all f v => exact h.put_right v f
    | _ => exact h

theorem content_eq_iff (h : s.Beside s') : s.content = s'.content ↔ ∀ q : Field, q.get s = q.get s' := by
  constructor
  · intro hc q
    have hget : ∀ t : FADC250_slot_t, q.get t.content = q.get t := fun t => by cases q <;> rfl
    rw [← hget s, hc, hget]
  · intro hq
    have hthreshold : s.threshold = s'.threshold := by
      apply List.ext_getElem
      · rw [h.sized.threshold, h.sized'.threshold]
      · intro i hi hi'
        have hi16 : i < 16 := h.sized.threshold ▸ hi
        have hi := hq (.threshold ⟨i, hi16⟩)
        simpa [Field.get, h.sized.threshold, h.sized'.threshold, hi16] using hi
    obtain ⟨-, -, hpedestal, hgain, hsubsystem, hix, hiy⟩ := h
    have hNSB : s.NSB = s'.NSB := hq .NSB
    have hNSA : s.NSA = s'.NSA := hq .NSA
    have hnpeak : s.npeak = s'.npeak := hq .npeak
    have hoffset : s.w_offset = s'.w_offset := hq .w_offset
    have hwindow : s.window = s'.window := hq .window
    simp only [FADC250_slot_t.content, hthreshold, hpedestal, hgain, hsubsystem, hix, hiy, hNSB, hNSA,
      hnpeak, hoffset, hwindow]

end Beside

section Created

variable {k : Int} {es rest : List Edit} {q : Field}

def slotOf (k : Int) : FADC250_slot_t := { slot := k }

theorem beside_slotOf (k : Int) : ({} : FADC250_slot_t).Beside (slotOf k) :=
  ⟨FADC250_slot_t.sized_default, ⟨rfl, rfl, rfl, rfl⟩, rfl, rfl, rfl, rfl, rfl⟩

theorem get_default : q.get {} = 0 := by
  cases q with
  | threshold i =>
    change (List.replicate 16 (0 : Int)).getD i 0 = 0
    rw [List.getD_eq_getElem?_getD, List.getElem?_replicate, if_pos i.isLt]
    rfl
  | _ => rfl

theorem get_slotOf (k : Int) : q.get (slotOf k) = 0 := by
  rw [← get_default (q := q)]
  cases q <;> rfl

def settled (k : Int) (es : List Edit) : FADC250_slot_t :=
  (before k es).foldl (Edit.onSlot k) (slotOf k)

theorem settled_eq (k : Int) (es : List Edit) :
    settled k es = (before k es).foldl Edit.onAll (slotOf k) :=
  fold_of_not_names (not_names_of_mem_before k es) _

theorem fold_since (k : Int) (es : List Edit) :
    es.foldl (Edit.onSlot k) (slotOf k) = (since k es).foldl (Edit.onSlot k) (settled k es) := by
  rw [settled, ← List.foldl_append, before_append_since]

theorem beside_settled (k : Int) (es : List Edit) : ({} : FADC250_slot_t).Beside (settled k es) :=
  settled_eq k es ▸ (beside_slotOf k).foldAll _

theorem get_settled (k : Int) (es : List Edit) :
    q.get (settled k es) = written ((before k es).map (Edit.value k q)) 0 := by
  rw [settled, get_fold (beside_slotOf k).sized', get_slotOf]

theorem beside_fromAll (k : Int) (es : List Edit) :
    (((before k es).foldl Edit.onAll {}).fromAll k).Beside (settled k es) := by
  have h := beside_settled k es
  have hall := (FADC250_slot_t.Beside.refl FADC250_slot_t.sized_default).foldAll (before k es)
  exact ⟨⟨hall.sized'.threshold, rfl, rfl, rfl⟩, h.sized', hall.pedestal.symm.trans h.pedestal,
    hall.gain.symm.trans h.gain, h.subsystem, h.ix, h.iy⟩

theorem get_fromAll (k : Int) (es : List Edit) :
    q.get (((before k es).foldl Edit.onAll {}).fromAll k) = q.get (settled k es) := by
  have hfromAll : ∀ all : FADC250_slot_t, q.get (all.fromAll k) = q.get all := by
    intro all
    cases q <;> rfl
  rw [hfromAll, ← fold_of_not_names (not_names_of_mem_before k es),
    get_fold FADC250_slot_t.sized_default, get_default, get_settled]

theorem onSlot_own (s : FADC250_slot_t) (e : SlotEdit) : (Edit.own k e).onSlot k s = e.run s :=
  if_pos rfl

def created (k : Int) (es : List Edit) (c : FADC250_crate_t) : FADC250_slot_t :=
  ((es.foldl Edit.run c).slots k).getD {}

variable {c : FADC250_crate_t} (h : c.slots k = none) (hall : c.all_slots = {})
include h hall

theorem beside_created (es : List Edit) :
    (created k es c).Beside (es.foldl (Edit.onSlot k) (slotOf k)) := by
  rw [fold_since]
  obtain hs | ⟨rest, hs⟩ | ⟨e, rest, hs⟩ := since_cases k es
  · rw [created, slots_of_nil h hs, hs]
    exact beside_settled k es
  · rw [created, slots_of_slot h hs, hs, hall]
    exact (beside_fromAll k es).fold rest
  · rw [created, slots_of_own h hs, hs]
    rw [List.foldl_cons, onSlot_own]
    exact ((beside_settled k es).run e).fold rest

theorem get_created_iff (es : List Edit) :
    q.get (created k es c) = q.get (es.foldl (Edit.onSlot k) (slotOf k)) ↔ ¬Forgotten es k q := by
  rw [fold_since]
  obtain hs | ⟨rest, hs⟩ | ⟨e, rest, hs⟩ := since_cases k es
  · have hcreated : created k es c = {} := by
      rw [created, slots_of_nil h hs]
      rfl
    rw [hcreated, hs, List.foldl_nil, get_default, get_settled]
    simp [Forgotten, hs, eq_comm]
  · have hslot : (since k es).foldl (Edit.onSlot k) (settled k es) =
        rest.foldl (Edit.onSlot k) (settled k es) := by
      rw [hs]
      rfl
    have hcreated : created k es c =
        rest.foldl (Edit.onSlot k) (((before k es).foldl Edit.onAll {}).fromAll k) := by
      rw [created, slots_of_slot h hs, hall]
      rfl
    rw [hslot, hcreated, get_fold (beside_fromAll k es).sized, get_fold (beside_settled k es).sized',
      get_fromAll]
    exact iff_of_true rfl fun hforgotten => hforgotten.1 (.slot k) (by rw [hs]; rfl) rfl
  · have hcreated : created k es c = (since k es).foldl (Edit.onSlot k) {} := by
      rw [created, slots_of_own h hs, hs, List.foldl_cons, onSlot_own]
      rfl
    rw [hcreated, get_fold FADC250_slot_t.sized_default, get_fold (beside_settled k es).sized',
      written_eq_iff, get_default, get_settled]
    have hne : ∀ e, (since k es).head? = some e → e ≠ .slot k := by
      rw [hs]
      rintro _ ⟨⟩
      exact nofun
    constructor
    · rintro (hzero | ⟨w, hw, hsome⟩) ⟨-, hvalue, hsettled⟩
      · exact hsettled hzero.symm
      · obtain ⟨e', he', rfl⟩ := List.mem_map.mp hw
        exact hsome (hvalue e' he')
    · intro hnot
      apply Classical.byContradiction
      intro hcon
      refine hnot ⟨hne, fun e' he' => ?_, fun hzero => hcon (.inl hzero.symm)⟩
      apply Classical.byContradiction
      intro hvalue
      exact hcon (.inr ⟨_, List.mem_map.mpr ⟨e', he', rfl⟩, hvalue⟩)

theorem content_created_iff (es : List Edit) :
    (created k es c).content = (es.foldl (Edit.onSlot k) (slotOf k)).content ↔
      ∀ q, ¬Forgotten es k q := by
  rw [content_eq_iff (beside_created h hall es)]
  exact forall_congr' fun q => get_created_iff h hall es

end Created

section Place

variable {c : Nat} {k : Int}

theorem onSlot_setChannel (s : FADC250_slot_t) (m : DAQChannel) (e : Edit) :
    e.onSlot k (setChannel s m) = setChannel (e.onSlot k s) m := by
  cases e with
  | all f v => cases f <;> rfl
  | own j e =>
    simp only [Edit.onSlot]
    split
    · cases e with
      | setting f v => cases f <;> rfl
      | _ => rfl
    · rfl
  | _ => rfl

theorem place_comm (f : FADC250_slot_t → FADC250_slot_t)
    (hf : ∀ s m, f (setChannel s m) = setChannel (f s) m) (s : FADC250_slot_t) :
    f (place c k s) = place c k (f s) :=
  (List.foldl_hom f fun s m => (hf s m).symm).symm

theorem fold_place (es : List Edit) (s : FADC250_slot_t) :
    es.foldl (Edit.onSlot k) (place c k s) = place c k (es.foldl (Edit.onSlot k) s) := by
  apply place_comm fun s => es.foldl (Edit.onSlot k) s
  intro s m
  exact List.foldl_hom (fun s => setChannel s m) fun s e => onSlot_setChannel s m e

theorem content_place (s : FADC250_slot_t) : (place c k s).content = place c k s.content :=
  place_comm FADC250_slot_t.content (fun _ _ => rfl) s

theorem get_place (q : Field) (s : FADC250_slot_t) : q.get (place c k s) = q.get s := by
  unfold place
  induction placed c k daqMap generalizing s with
  | nil => rfl
  | cons m ms ih =>
    rw [List.foldl_cons, ih]
    cases q <;> rfl

theorem get_content (q : Field) (s : FADC250_slot_t) : q.get s.content = q.get s := by
  cases q <;> rfl

theorem content_place_iff {s s' : FADC250_slot_t} (h : s.Beside s') :
    (place c k s).content = (place c k s').content ↔ s.content = s'.content := by
  constructor
  · intro hplace
    rw [content_eq_iff h]
    intro q
    have hq := congrArg q.get hplace
    rwa [get_content, get_content, get_place, get_place] at hq
  · intro hcontent
    rw [content_place, content_place, hcontent]

end Place

structure ParseState.Twin (s s' : ParseState) : Prop where
  vars : s'.toParseVars = s.toParseVars
  vtp_configs : s'.config.vtp_configs = s.config.vtp_configs
  vtp_other : s'.config.vtp_other = s.config.vtp_other
  sized : s.config.Sized
  sized' : s'.config.Sized

section Twin

variable {u : Uninit} {crnum : Nat}

theorem keeps_setOther (key : Str) (values : List Rat) :
    Exec.Keeps ParseState.Twin (onConfig (·.setOther key values)) :=
  keeps_modify fun _ _ h =>
    ⟨h.vars, h.vtp_configs, congrArg (Function.update · key _) h.vtp_other, h.sized, h.sized'⟩

theorem ParseState.Twin.setConfig {s s' : ParseState} (h : s.Twin s') (config : Str)
    (maps : List (Str → Option (List Rat))) :
    ParseState.Twin { s with config := s.config.setConfig config maps }
      { s' with config := s'.config.setConfig config maps } :=
  ⟨h.vars, congrArg (Function.update · config _) h.vtp_configs, h.vtp_other, h.sized, h.sized'⟩

theorem keeps_onCrate {f : FADC250_crate_t → FADC250_crate_t}
    (hf : ∀ x n, { f x with crate := n } = f { x with crate := n })
    (hsized : ∀ c : FADC250_crate_t, c.Sized → (f c).Sized) :
    Exec.Keeps ParseState.Twin (onConfig (·.onCrate crnum f)) :=
  keeps_modify fun _ _ h =>
    ⟨h.vars, h.vtp_configs, h.vtp_other, sized_onCrate hf hsized h.sized crnum,
      sized_onCrate hf hsized h.sized' crnum⟩

theorem keeps_ite {c : Prop} [Decidable c] {m m' : Exec ConfigStop Int ParseState Unit}
    (h : Exec.Keeps ParseState.Twin m) (h' : Exec.Keeps ParseState.Twin m') :
    Exec.Keeps ParseState.Twin (if c then m else m') := by
  split
  · exact h
  · exact h'

theorem keeps_vtpConfig (config item dat : Str) :
    Exec.Keeps ParseState.Twin (vtpConfig config item dat) := by
  unfold vtpConfig
  apply Exec.Keeps.bind
  · apply keeps_modify
    intro s s' h
    dsimp only
    rw [h.vtp_configs]
    split
    · exact h
    · exact h.setConfig config []
  intro _
  apply (keeps_gets fun s s' h => congrArg ParseVars.config_num h.vars).bind
  intro config_num
  apply Exec.Keeps.bind
  · exact keeps_modify fun s s' h => ⟨by rw [h.vars], h.vtp_configs, h.vtp_other, h.sized, h.sized'⟩
  intro _
  apply (keeps_gets fun s s' h => by rw [h.vtp_configs]).bind
  intro maps
  apply keeps_demand.bind
  exact fun maps => keeps_modify fun s s' h => h.setConfig config _

theorem keeps_vtpLine (tok dat : Str) : Exec.Keeps ParseState.Twin (vtpLine u tok dat) := by
  unfold vtpLine
  apply keeps_ite
  · apply keeps_ite
    · exact keeps_ite (keeps_setOther _ _) (keeps_setOther _ _)
    apply keeps_ite
    · exact keeps_setOther _ _
    apply keeps_ite
    · exact keeps_vtpConfig _ _ _
    · exact keeps_setOther _ _
  · exact keeps_pure

theorem keeps_threshold (k chan thres : Int) :
    Exec.Keeps ParseState.Twin ((SlotEdit.threshold chan thres).exec crnum k) := by
  unfold SlotEdit.exec
  apply (keeps_onCrate (fun _ _ => rfl) fun c hc => hc.onSlot fun _ h => h).bind
  intro _
  apply (keeps_gets fun s s' h => ?_).bind
  · intro size
    apply keeps_tell.bind
    intro _
    apply keeps_ite
    · exact keeps_onCrate (fun _ _ => rfl) fun c hc => hc.onSlot fun s hs => SlotEdit.sized_run hs _
    · exact keeps_halt
  · rw [threshold_size h.sized crnum, threshold_size h.sized' crnum]

theorem keeps_exec (e : Edit) : Exec.Keeps ParseState.Twin (e.exec crnum) := by
  have hrun : Exec.Keeps ParseState.Twin (onConfig (·.onCrate crnum e.run)) :=
    keeps_onCrate e.run_crate fun _ h => e.sized_run h
  cases e with
  | own k e =>
    cases e with
    | threshold chan thres => exact keeps_threshold k chan thres
    | _ => exact hrun
  | _ => exact hrun

theorem keeps_fadcStep (r : Option (Int × List Edit)) : Exec.Keeps ParseState.Twin (fadcStep crnum r) := by
  unfold fadcStep
  apply keeps_demand.bind
  intro r
  apply Exec.Keeps.bind
  · exact keeps_modify fun s s' h => ⟨by rw [h.vars], h.vtp_configs, h.vtp_other, h.sized, h.sized'⟩
  intro _
  induction r.2 with
  | nil => exact keeps_pure
  | cons e es ih => exact (keeps_exec e).bind fun _ => ih

theorem keeps_fadcLine (tok dat : Str) : Exec.Keeps ParseState.Twin (fadcLine u crnum tok dat) := by
  rw [fadcLine_eq]
  apply Exec.Keeps.bind
  · exact keeps_modify fun s s' h =>
      ⟨h.vars, h.vtp_configs, h.vtp_other, h.sized.grow crnum, h.sized'.grow crnum⟩
  intro _
  apply (keeps_gets fun s s' h => congrArg ParseVars.fadc_current_slot h.vars).bind
  exact fun cur => keeps_fadcStep _

theorem keeps_parseLine (line : Str) : Exec.Keeps ParseState.Twin (parseLine u line) := by
  unfold parseLine
  apply keeps_ite
  · exact keeps_modify fun s s' h => ⟨by rw [h.vars], h.vtp_configs, h.vtp_other, h.sized, h.sized'⟩
  apply keeps_ite
  · exact keeps_modify fun s s' h => ⟨by rw [h.vars], h.vtp_configs, h.vtp_other, h.sized, h.sized'⟩
  apply (keeps_gets fun s s' h => congrArg ParseVars.vtp_parse_area h.vars).bind
  intro vtp_parse_area
  apply (keeps_vtpLine _ _).when.bind
  intro _
  apply (keeps_gets fun s s' h => congrArg ParseVars.fadc_crate_number h.vars).bind
  exact fun fadc_crate_number => (keeps_fadcLine _ _).when

theorem keeps_parseLines (lines : List Str) : Exec.Keeps ParseState.Twin (parseLines u lines) := by
  induction lines with
  | nil => exact keeps_pure
  | cons line lines ih => exact (keeps_parseLine line).bind fun _ => ih

theorem alike_Parse_raw_data {t t' : TriggerConfig} (hraw : t'.raw_data = t.raw_data)
    (hconfigs : t'.vtp_configs = t.vtp_configs) (hother : t'.vtp_other = t.vtp_other)
    (ht : t.Sized) (ht' : t'.Sized) :
    Alike (Parse_raw_data u)
      (fun _ v v' => v'.vtp_configs = v.vtp_configs ∧ v'.vtp_other = v.vtp_other)
      (fun _ _ => True) t t' := by
  have hlines := keeps_parseLines (u := u) t.raw_data { config := t } { config := t' }
    ⟨rfl, hconfigs, hother, ht, ht'⟩
  unfold Parse_raw_data
  apply Alike.bind (P := fun raw_data v v' => raw_data = t.raw_data ∧ v = t ∧ v' = t')
  · exact ⟨hraw, rfl, rfl, rfl⟩
  · rintro _ _ _ ⟨rfl, rfl, rfl⟩
    exact Alike.zoom rfl rfl hlines (fun _ _ _ h => ⟨h.vtp_configs, h.vtp_other⟩) fun _ _ _ => trivial

end Twin

section Sources

variable {u : Uninit} {lines : List Str} {t v : TriggerConfig} {c : Nat} {k : Int}

theorem ofBank_slots_of_ne_nil (h : placed c k daqMap ≠ []) :
    (ofBank.crateAt c).slots k = some (place c k (slotOf k)) := by
  rw [ofBank_slots, mapSlot_of_ne_nil h]
  exact congrArg some (place_comm (·.withNumber k) (fun _ _ => rfl) {})

theorem ofBank_all_slots (c : Nat) : (ofBank.crateAt c).all_slots = {} := by
  rw [ofBank, crateAt_InitDAQMaps]
  rfl

theorem ofBank_mode (c : Nat) : (ofBank.crateAt c).mode = 0 := by
  rw [ofBank, crateAt_InitDAQMaps]
  rfl

theorem slots_fold_congr {x y : FADC250_crate_t} (hx : x.slots k = none) (hy : y.slots k = none)
    (hall : x.all_slots = y.all_slots) (es : List Edit) :
    (es.foldl Edit.run x).slots k = (es.foldl Edit.run y).slots k := by
  obtain hs | ⟨rest, hs⟩ | ⟨e, rest, hs⟩ := since_cases k es
  · rw [slots_of_nil hx hs, slots_of_nil hy hs]
  · rw [slots_of_slot hx hs, slots_of_slot hy hs, hall]
  · rw [slots_of_own hx hs, slots_of_own hy hs]

theorem same_slot_iff (c : Nat) (k : Int) (es : List Edit) :
    (mapSlot c k ((es.foldl Edit.run { crate := c }).slots k)).map FADC250_slot_t.content =
      ((es.foldl Edit.run (ofBank.crateAt c)).slots k).map FADC250_slot_t.content ↔
    (placed c k daqMap ≠ [] → ∀ q, ¬Forgotten es k q) := by
  by_cases h : placed c k daqMap = []
  · have hbank : (ofBank.crateAt c).slots k = none := by
      rw [ofBank_slots, mapSlot_of_nil h]
      rfl
    refine iff_of_true ?_ fun hne => (hne h).elim
    rw [mapSlot_of_nil h, Option.map_map, slots_fold_congr (y := { crate := c }) hbank rfl
      (ofBank_all_slots c)]
    rfl
  · have hfold := slots_fold_some (ofBank_slots_of_ne_nil h) es
    rw [fold_place] at hfold
    rw [mapSlot_of_ne_nil h, hfold, Option.map_some, Option.map_some, Option.some.injEq]
    refine Iff.trans ?_ ⟨fun hq _ => hq, fun hq => hq h⟩
    exact (content_place_iff (beside_created rfl rfl es)).trans (content_created_iff rfl rfl es)

def filled (lines : List Str) : TriggerConfig :=
  { ofBank with data := lines, raw_data := rawLines lines }

theorem returns_fill :
    Returns (fill u lines) ofBank () v ↔ Returns (Parse_raw_data u) (filled lines) () v := by
  simp [fill, CallBack, Parse_evio_bank, filled]

theorem crates_with (t : TriggerConfig) (data raw_data : List Str) :
    ({ t with data, raw_data } : TriggerConfig).crates = t.crates := rfl

theorem crates_filled (lines : List Str) : (filled lines).crates = ofBank.crates :=
  crates_with ofBank lines (rawLines lines)

theorem length_filled (lines : List Str) : (filled lines).crates.length = 3 := by
  rw [crates_filled, ofBank, length_InitDAQMaps]
  rfl

theorem crateAt_filled (lines : List Str) (c : Nat) :
    (filled lines).crateAt c = ofBank.crateAt c :=
  crateAt_congr (crates_filled lines) c

theorem sized_filled (lines : List Str) : (filled lines).Sized := by
  intro c
  rw [crateAt_filled]
  exact sized_empty.InitDAQMaps c

theorem alike_sources (u : Uninit) (lines : List Str) :
    Alike (Parse_raw_data u)
      (fun _ v v' => v'.vtp_configs = v.vtp_configs ∧ v'.vtp_other = v.vtp_other)
      (fun _ _ => True) { raw_data := rawLines lines } (filled lines) :=
  alike_Parse_raw_data rfl rfl rfl sized_empty (sized_filled lines)

theorem forall_placed {ms : List DAQChannel} {P : Nat → Int → Prop} :
    (∀ c k, placed c k ms ≠ [] → P c k) ↔ ∀ m ∈ ms, P m.crate m.slot := by
  constructor
  · intro h m hm
    apply h
    exact List.ne_nil_of_mem (List.mem_filter.mpr ⟨hm, by simp⟩)
  · intro h c k hk
    obtain ⟨m, hplaced⟩ := List.exists_mem_of_ne_nil _ hk
    obtain ⟨hm, hat⟩ := List.mem_filter.mp hplaced
    obtain ⟨rfl, rfl⟩ := of_decide_eq_true hat
    exact h m hm

theorem same_crate_iff (c : Nat) (es : List Edit) :
    FADC250_crate_t.Same
      { es.foldl Edit.run { crate := c } with
        slots := fun k => mapSlot c k ((es.foldl Edit.run { crate := c }).slots k) }
      (es.foldl Edit.run (ofBank.crateAt c)) ↔
    ∀ k, placed c k daqMap ≠ [] → ∀ q, ¬Forgotten es k q := by
  constructor
  · exact fun h k => (same_slot_iff c k es).mp (h.slots k)
  · intro h
    refine ⟨?_, ?_, fun k => (same_slot_iff c k es).mpr (h k)⟩
    · rw [mode_fold, mode_fold, ofBank_mode]
    · rw [all_slots_fold, all_slots_fold, ofBank_all_slots]

theorem same_iff (hf : Returns (ofFile u lines) {} () t) (hb : Returns (fill u lines) ofBank () v) :
    t.Same v ↔ ∀ m ∈ daqMap, ∀ q, ¬Forgotten (crateEdits u (rawLines lines) m.crate) m.slot q := by
  obtain ⟨w, hw, rfl⟩ := returns_ofFile.mp hf
  have hv := returns_fill.mp hb
  have hcrate : ∀ c, ((InitDAQMaps w).crates.getD c {}).Same (v.crates.getD c {}) ↔
      ∀ k, placed c k daqMap ≠ [] → ∀ q, ¬Forgotten (crateEdits u (rawLines lines) c) k q := by
    intro c
    rw [← same_crate_iff]
    have hwc := crateAt_Parse_raw_data (t := { raw_data := rawLines lines }) sized_empty hw c
    have hvc := crateAt_Parse_raw_data (sized_filled lines) hv c
    rw [crateAt_filled] at hvc
    have htc := crateAt_InitDAQMaps w c
    rw [hwc] at htc
    have hsame : ∀ x : TriggerConfig, (x.crates.getD c {}).Same (v.crates.getD c {}) ↔
        (x.crateAt c).Same (v.crateAt c) :=
      fun x => ⟨fun h => ⟨h.mode, h.all_slots, h.slots⟩, fun h => ⟨h.mode, h.all_slots, h.slots⟩⟩
    rw [hsame, htc, hvc]
    exact Iff.rfl
  have hlength : (InitDAQMaps w).crates.length = v.crates.length := by
    obtain ⟨-, hwl⟩ := length_Parse_raw_data (t := { raw_data := rawLines lines }) sized_empty hw
    obtain ⟨hgrows, hbound⟩ := length_Parse_raw_data (sized_filled lines) hv
    rw [length_filled] at hgrows hbound
    rw [length_InitDAQMaps]
    dsimp only [List.length_nil] at hwl
    omega
  obtain ⟨v', hv', hconfigs, hother⟩ := (alike_sources u lines).returns hw
  obtain ⟨-, rfl⟩ := hv.det hv'
  rw [← forall_placed (P := fun c k => ∀ q, ¬Forgotten (crateEdits u (rawLines lines) c) k q)]
  constructor
  · exact fun h c => (hcrate c).mp (h.crates c)
  · exact fun h => ⟨hlength, fun c => (hcrate c).mpr (h c),
      (vtp_configs_InitDAQMaps w).trans hconfigs.symm, (vtp_other_InitDAQMaps w).trans hother.symm⟩

/-- The two sources give the same configuration when the settings for all slots reach every
slot of the map. -/
theorem ofFile_same_fill_iff (u : Uninit) (lines : List Str) (t : TriggerConfig)
    (hf : Returns (ofFile u lines) {} () t) :
    ∃ v, Returns (fill u lines) ofBank () v ∧
      (t.Same v ↔
        ∀ m ∈ daqMap, ∀ q, ¬Forgotten (crateEdits u (rawLines lines) m.crate) m.slot q) := by
  obtain ⟨w, hw, -⟩ := returns_ofFile.mp hf
  obtain ⟨v, hv, -⟩ := (alike_sources u lines).returns hw
  exact ⟨v, returns_fill.mpr hv, same_iff hf (returns_fill.mpr hv)⟩

def slotLines : List Str := [str "FADC250_CRATE hps1", str "FADC250_SLOT 3", str "FADC250_NSB 5"]

theorem not_forgotten_slotLines (u : Uninit) (c : Nat) (k : Int) (q : Field) :
    ¬Forgotten (crateEdits u (rawLines slotLines) c) k q := by
  rintro ⟨-, -, hne⟩
  have hedits : edits u (rawLines slotLines) {} =
      [(1, .slot 3), (1, .own 3 (.setting .NSB 5))] := rfl
  apply hne
  apply written_of_none
  intro w hw
  obtain ⟨e, he, rfl⟩ := List.mem_map.mp hw
  have hnames := not_names_of_mem_before k _ e he
  have hmem : e ∈ crateEdits u (rawLines slotLines) c := (List.takeWhile_sublist _).mem he
  obtain ⟨⟨j, e'⟩, hm, hcrate⟩ := List.mem_filterMap.mp hmem
  obtain ⟨-, rfl⟩ : j = c ∧ e' = e := by simpa using hcrate
  rw [hedits] at hm
  obtain h | hm := List.mem_cons.mp hm
  · cases h
    rfl
  · cases List.mem_singleton.mp hm
    exact if_neg hnames

theorem ofFile_same_fill_slotLines :
    ∃ v, Returns (fill ⟨0, 0, 0⟩ slotLines) ofBank () v ∧
      (ofFile ⟨0, 0, 0⟩ slotLines {}).state.Same v := by
  obtain ⟨v, hv, hiff⟩ := ofFile_same_fill_iff ⟨0, 0, 0⟩ slotLines _ ⟨rfl, rfl⟩
  exact ⟨v, hv, hiff.mpr fun m _ q => not_forgotten_slotLines _ m.crate m.slot q⟩

set_option maxRecDepth 10000 in
theorem ofFile_fill_differ :
    ¬∀ u lines t v, Returns (ofFile u lines) {} () t → Returns (fill u lines) ofBank () v →
      t.Same v := by
  intro h
  have hsame := h ⟨0, 0, 0⟩ [str "FADC250_CRATE hps1", str "FADC250_NSB 5"] _ _ ⟨rfl, rfl⟩ ⟨rfl, rfl⟩
  have hslot := congrArg (Option.map FADC250_slot_t.NSB) ((hsame.crates 1).slots 3)
  revert hslot
  decide

end Sources

end EvioTool
