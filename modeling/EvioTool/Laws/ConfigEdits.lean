import EvioTool.Defs.ConfigEdits
import EvioTool.Lib.Run

namespace EvioTool

open Lib Exec

def SlotEdit.exec (crnum : Nat) (k : Int) : SlotEdit → Exec ConfigStop Int ParseState Unit
  | .threshold chan thres => do
    onConfig (·.onCrate crnum (·.onSlot k id))
    let size ← gets fun s => (((s.config.crates.getD crnum {}).slots k).getD {}).threshold.length
    tell chan
    if 0 ≤ chan ∧ chan < size then
      onConfig (·.onCrate crnum (·.onSlot k (SlotEdit.threshold chan thres |>.run ·)))
    else halt .outside
  | e => onConfig (·.onCrate crnum (·.onSlot k e.run))

def Edit.exec (crnum : Nat) : Edit → Exec ConfigStop Int ParseState Unit
  | .own k e => e.exec crnum k
  | e => onConfig (·.onCrate crnum e.run)

def fadcStep (crnum : Nat) (r : Option (Int × List Edit)) : Exec ConfigStop Int ParseState Unit := do
  let r ← demand .exception r
  modify fun s => { s with fadc_current_slot := r.1 }
  run (Edit.exec crnum) r.2

section Lines

variable {u : Uninit} {crnum : Nat} {tok dat : Str} {s : ParseState} {cur : Int}

theorem run_single (e : Edit) : run (Edit.exec crnum) [e] = e.exec crnum :=
  bind_pure (e.exec crnum)

theorem fadcStep_single (e : Edit) :
    fadcStep crnum (some (cur, [e])) s = e.exec crnum { s with fadc_current_slot := cur } := by
  rw [fadcStep, demand_some, pure_bind, modify_bind_apply, run_single]

theorem fadcStep_ite {c : Prop} [Decidable c] {m m' : Exec ConfigStop Int ParseState Unit}
    {r r' : Option (Int × List Edit)} (h : m s = fadcStep crnum r s)
    (h' : m' s = fadcStep crnum r' s) :
    (if c then m else m') s = fadcStep crnum (if c then r else r') s := by
  split
  · exact h
  · exact h'

theorem setting_eq (f : Setting) :
    setting crnum dat f s = fadcStep crnum (settingEdit dat s.fadc_current_slot f) s := by
  unfold setting settingEdit
  cases Str.stoi dat with
  | none => rfl
  | some v =>
    rw [demand_some, pure_bind, gets_bind_apply, Option.map_some, fadcStep_single]
    split <;> rfl

theorem channelThreshold_eq :
    channelThreshold u crnum dat s =
      fadcStep crnum (ownEdit s.fadc_current_slot (thresholdEdit u dat)) s := by
  unfold channelThreshold ownEdit
  rw [gets_bind_apply]
  split
  · rfl
  · rw [fadcStep_single]
    rfl

theorem channelValues_eq {e : SlotEdit}
    (he : ∀ k, e.exec crnum k = onConfig (·.onCrate crnum (·.onSlot k e.run))) :
    channelValues crnum e.run s = fadcStep crnum (ownEdit s.fadc_current_slot e) s := by
  unfold channelValues ownEdit
  rw [gets_bind_apply]
  split
  · rfl
  · rw [fadcStep_single, Edit.exec, he]

end Lines

theorem fadcLine_eq (u : Uninit) (crnum : Nat) (tok dat : Str) :
    fadcLine u crnum tok dat = (do
      onConfig fun t => { t with crates := growCrates crnum t.crates }
      let cur ← gets fun s => s.fadc_current_slot
      fadcStep crnum (fadcEdit u tok dat cur)) := by
  unfold fadcLine
  congr 1
  funext _ s
  rw [gets_bind_apply]
  unfold fadcEdit
  apply fadcStep_ite
  · apply fadcStep_ite
    · rfl
    · cases Str.stoi dat with
      | none => rfl
      | some k =>
        rw [Option.map_some, fadcStep_single]
        rfl
  apply fadcStep_ite
  · cases Str.stoi dat with
    | none => rfl
    | some v =>
      rw [Option.map_some, fadcStep_single]
      rfl
  iterate 6
    apply fadcStep_ite
    · exact setting_eq _
  apply fadcStep_ite
  · exact channelThreshold_eq
  apply fadcStep_ite
  · exact channelValues_eq (e := .gain _) fun _ => rfl
  apply fadcStep_ite
  · exact channelValues_eq (e := .pedestal _) fun _ => rfl
  · rfl

structure FADC250_slot_t.Sized (s : FADC250_slot_t) : Prop where
  threshold : s.threshold.length = 16
  subsystem : s.subsystem.length = 16
  ix : s.ix.length = 16
  iy : s.iy.length = 16

structure FADC250_crate_t.Sized (c : FADC250_crate_t) : Prop where
  all : c.all_slots.Sized
  gain : c.all_slots.gain.length = 16
  pedestal : c.all_slots.pedestal.length = 16
  slots : ∀ k s, c.slots k = some s → s.Sized

theorem FADC250_slot_t.sized_default : ({} : FADC250_slot_t).Sized := ⟨rfl, rfl, rfl, rfl⟩

theorem FADC250_crate_t.sized_empty (n : Nat) : ({ crate := n } : FADC250_crate_t).Sized :=
  ⟨FADC250_slot_t.sized_default, rfl, rfl, fun _ _ h => nomatch h⟩

section Sized

variable {s : FADC250_slot_t} {c : FADC250_crate_t} {k : Int}
  {f : FADC250_slot_t → FADC250_slot_t}

theorem FADC250_slot_t.Sized.put (h : s.Sized) (v : Int) (f : Setting) : (s.put v f).Sized := by
  cases f with
  | TET => exact ⟨(List.length_map _).trans h.threshold, h.subsystem, h.ix, h.iy⟩
  | _ => exact ⟨h.threshold, h.subsystem, h.ix, h.iy⟩

theorem SlotEdit.sized_run (h : s.Sized) (e : SlotEdit) : (e.run s).Sized := by
  cases e with
  | setting f v => exact h.put v f
  | threshold chan thres => exact ⟨List.length_set.trans h.threshold, h.subsystem, h.ix, h.iy⟩
  | gain xs => exact ⟨h.threshold, h.subsystem, h.ix, h.iy⟩
  | pedestal xs => exact ⟨h.threshold, h.subsystem, h.ix, h.iy⟩

theorem FADC250_crate_t.Sized.getD (h : c.Sized) : ((c.slots k).getD {}).Sized := by
  cases hs : c.slots k with
  | none => exact FADC250_slot_t.sized_default
  | some s => exact h.slots k s hs

theorem FADC250_crate_t.Sized.onSlot (h : c.Sized) (hf : ∀ s, s.Sized → (f s).Sized) :
    (c.onSlot k f).Sized := by
  refine ⟨h.all, h.gain, h.pedestal, fun j s hs => ?_⟩
  simp only [FADC250_crate_t.onSlot, Function.update_apply] at hs
  split at hs
  · cases hs
    exact hf _ h.getD
  · exact h.slots j s hs

theorem FADC250_crate_t.Sized.addSlot (h : c.Sized) : (c.addSlot k).Sized := by
  unfold FADC250_crate_t.addSlot
  split
  · exact h
  · exact h.onSlot fun s hs => ⟨h.all.threshold, hs.subsystem, hs.ix, hs.iy⟩

theorem Edit.sized_run (h : c.Sized) (e : Edit) : (e.run c).Sized := by
  cases e with
  | slot k => exact h.addSlot
  | mode v => exact ⟨h.all, h.gain, h.pedestal, h.slots⟩
  | all f v =>
    refine ⟨h.all.put v f, ?_, ?_, fun k s hs => ?_⟩
    · cases f <;> exact h.gain
    · cases f <;> exact h.pedestal
    · obtain ⟨s', hs', rfl⟩ := Option.map_eq_some_iff.mp hs
      exact (h.slots k s' hs').put v f
  | own k e => exact h.onSlot fun s hs => e.sized_run hs

end Sized

def TriggerConfig.crateAt (t : TriggerConfig) (c : Nat) : FADC250_crate_t :=
  { t.crates.getD c {} with crate := c }

theorem slots_crateAt (t : TriggerConfig) (c : Nat) :
    (t.crateAt c).slots = (t.crates.getD c {}).slots := rfl

def TriggerConfig.Sized (t : TriggerConfig) : Prop := ∀ c, (t.crateAt c).Sized

theorem Edit.run_crate (e : Edit) (c : FADC250_crate_t) (n : Nat) :
    { e.run c with crate := n } = e.run { c with crate := n } := by
  cases e with
  | slot k =>
    simp only [Edit.run, FADC250_crate_t.addSlot]
    split <;> rfl
  | _ => rfl

theorem length_growCrates (n : Nat) (crates : List FADC250_crate_t) :
    (growCrates n crates).length = max crates.length (n + 1) := by
  simp only [growCrates, List.length_append, List.length_map, List.length_range']
  omega

namespace TriggerConfig

variable {t : TriggerConfig}

theorem crateAt_grow (n c : Nat) :
    ({ t with crates := growCrates n t.crates } : TriggerConfig).crateAt c = t.crateAt c := by
  simp only [crateAt, growCrates, List.getD_eq_getElem?_getD, List.getElem?_append]
  split
  · rfl
  · rename_i hc
    have hnone : t.crates[c]? = none := List.getElem?_eq_none (by omega)
    rw [List.getElem?_map, hnone]
    cases (List.range' t.crates.length (n + 1 - t.crates.length))[c - t.crates.length]? <;> rfl

theorem crateAt_onCrate {crnum : Nat} {f : FADC250_crate_t → FADC250_crate_t}
    (hf : ∀ x n, { f x with crate := n } = f { x with crate := n })
    (hlt : crnum < t.crates.length) (c : Nat) :
    (t.onCrate crnum f).crateAt c = if crnum = c then f (t.crateAt c) else t.crateAt c := by
  simp only [crateAt, onCrate, List.getD_eq_getElem?_getD, List.getElem?_modify]
  split
  · rename_i h
    subst h
    rw [List.getElem?_eq_getElem hlt]
    exact hf _ _
  · simp

theorem crateAt_congr {t' : TriggerConfig} (h : t'.crates = t.crates) (c : Nat) :
    t'.crateAt c = t.crateAt c := by
  rw [crateAt, h, crateAt]

theorem Sized.grow (ht : t.Sized) (n : Nat) :
    ({ t with crates := growCrates n t.crates } : TriggerConfig).Sized := by
  intro c
  rw [crateAt_grow]
  exact ht c

end TriggerConfig

def ParseState.cursor (s : ParseState) : Cursor := ⟨s.fadc_crate_number, s.fadc_current_slot⟩

structure Aside {α : Type} (m : Exec ConfigStop Int ParseState α) (s : ParseState) : Prop where
  log : (m s).log = []
  out : (m s).out ≠ .error .outside
  crates : (m s).state.config.crates = s.config.crates
  cursor : (m s).state.cursor = s.cursor

section Aside

variable {α β : Type} {m : Exec ConfigStop Int ParseState α}
  {g : α → Exec ConfigStop Int ParseState β} {s : ParseState}

theorem aside_pure (a : α) : Aside (pure a) s := ⟨rfl, nofun, rfl, rfl⟩

theorem aside_gets (f : ParseState → α) : Aside (gets f) s := ⟨rfl, nofun, rfl, rfl⟩

theorem aside_demand (x : Option α) : Aside (demand .exception x) s := by
  cases x with
  | none => exact ⟨rfl, nofun, rfl, rfl⟩
  | some a => exact aside_pure a

theorem aside_modify {f : ParseState → ParseState}
    (hcrates : (f s).config.crates = s.config.crates) (hcursor : (f s).cursor = s.cursor) :
    Aside (modify f) s :=
  ⟨rfl, nofun, hcrates, hcursor⟩

theorem aside_setOther (key : Str) (values : List Rat) :
    Aside (onConfig (·.setOther key values)) s :=
  aside_modify rfl rfl

theorem aside_ite {c : Prop} [Decidable c] {m m' : Exec ConfigStop Int ParseState α}
    (h : Aside m s) (h' : Aside m' s) : Aside (if c then m else m') s := by
  split
  · exact h
  · exact h'

theorem Aside.bind (hm : Aside m s) (hg : ∀ a t, Aside (g a) t) : Aside (m >>= g) s := by
  cases ho : (m s).out with
  | error e =>
    have h := bind_of_error (f := g) ho
    constructor
    · rw [h]
      exact hm.log
    · rw [h]
      rintro ⟨⟩
      exact hm.out ho
    · rw [h]
      exact hm.crates
    · rw [h]
      exact hm.cursor
  | ok a =>
    have h := bind_of_ok (f := g) ho
    have ha := hg a (m s).state
    constructor
    · rw [h, hm.log, ha.log]
      rfl
    · rw [h]
      exact ha.out
    · rw [h]
      exact ha.crates.trans hm.crates
    · rw [h]
      exact ha.cursor.trans hm.cursor

theorem aside_vtpConfig (config item dat : Str) : Aside (vtpConfig config item dat) s := by
  unfold vtpConfig
  apply (aside_modify ?_ rfl).bind
  · intro _ t
    apply (aside_gets _).bind
    intro config_num t
    apply (aside_modify rfl rfl).bind
    intro _ t
    apply (aside_gets _).bind
    intro maps t
    apply (aside_demand _).bind
    intro maps t
    exact aside_modify rfl rfl
  · dsimp only
    split <;> rfl

theorem aside_fee (item dat : Str) : Aside (fee item dat) s :=
  aside_ite (aside_setOther _ _) (aside_setOther _ _)

theorem aside_vtpLine (u : Uninit) (tok dat : Str) : Aside (vtpLine u tok dat) s := by
  unfold vtpLine
  apply aside_ite
  · apply aside_ite
    · exact aside_fee _ _
    apply aside_ite
    · exact aside_setOther _ _
    apply aside_ite
    · exact aside_vtpConfig _ _ _
    · exact aside_setOther _ _
  · exact aside_pure ()

end Aside

def channels (es : List (Nat × Edit)) : List Int := es.flatMap fun m => m.2.channels

/-- The execution applies out the edits and moves the cursor, or stops after its first write
outside the 16 channels, or at an exception. -/
structure Applies (m : Exec ConfigStop Int ParseState Unit) (s : ParseState) (p : Cursor)
    (es : List (Nat × Edit)) : Prop where
  logs : ∀ chan ∈ (m s).log, chan ∈ channels es
  outside : (m s).out = .error .outside → ∃ chan ∈ (m s).log, ¬(0 ≤ chan ∧ chan < 16)
  log : (m s).out = .ok () → (m s).log = channels es
  cursor : (m s).out = .ok () → (m s).state.cursor = p
  crates : (m s).out = .ok () → ∀ c,
    (m s).state.config.crateAt c = (ofCrate c es).foldl Edit.run (s.config.crateAt c)
  grows : s.config.crates.length ≤ (m s).state.config.crates.length
  bound : (m s).state.config.crates.length ≤ max s.config.crates.length 3

section Applies

variable {m n : Exec ConfigStop Int ParseState Unit} {s : ParseState} {p q : Cursor}
  {es fs : List (Nat × Edit)}

theorem Aside.applies (h : Aside m s) : Applies m s s.cursor [] where
  logs := by simp [h.log]
  outside ho := (h.out ho).elim
  log _ := h.log
  cursor _ := h.cursor
  crates _ c := TriggerConfig.crateAt_congr h.crates c
  grows := by rw [h.crates]
  bound := by
    rw [h.crates]
    exact Nat.le_max_left _ _

theorem Applies.congr (h : Applies n s p es) (hm : m s = n s) : Applies m s p es := by
  constructor <;> rw [hm]
  · exact h.logs
  · exact h.outside
  · exact h.log
  · exact h.cursor
  · exact h.crates
  · exact h.grows
  · exact h.bound

theorem applies_modify {f : ParseState → ParseState}
    (hcrates : (f s).config.crates = s.config.crates) : Applies (modify f) s (f s).cursor [] where
  logs := nofun
  outside := nofun
  log _ := rfl
  cursor _ := rfl
  crates _ c := TriggerConfig.crateAt_congr hcrates c
  grows := (congrArg List.length hcrates).ge
  bound := (congrArg List.length hcrates).le.trans (Nat.le_max_left _ _)

theorem ofCrate_append (c : Nat) (es fs : List (Nat × Edit)) :
    ofCrate c (es ++ fs) = ofCrate c es ++ ofCrate c fs := List.filterMap_append

theorem channels_append (es fs : List (Nat × Edit)) :
    channels (es ++ fs) = channels es ++ channels fs := List.flatMap_append

theorem Applies.bind (hm : Applies m s p es)
    (hn : ∀ t, Returns m s () t → Applies n t q fs) :
    Applies (m >>= fun _ => n) s q (es ++ fs) := by
  cases ho : (m s).out with
  | error e =>
    have h := bind_of_error (f := fun _ => n) ho
    constructor <;> rw [h]
    · rw [channels_append]
      exact fun chan hc => List.mem_append_left _ (hm.logs chan hc)
    · rintro ⟨⟩
      exact hm.outside ho
    · exact nofun
    · exact nofun
    · exact nofun
    · exact hm.grows
    · exact hm.bound
  | ok a =>
    have h := bind_of_ok (f := fun _ => n) ho
    have hn := hn _ ⟨ho, rfl⟩
    have hlog := hm.log ho
    constructor <;> rw [h]
    · rw [channels_append, hlog]
      intro chan hc
      exact List.mem_append.mpr ((List.mem_append.mp hc).imp_right (hn.logs chan))
    · intro he
      obtain ⟨chan, hc, hbad⟩ := hn.outside he
      exact ⟨chan, List.mem_append_right _ hc, hbad⟩
    · rw [channels_append, hlog]
      exact fun hn' => congrArg _ (hn.log hn')
    · exact hn.cursor
    · intro hn' c
      rw [ofCrate_append, List.foldl_append, ← hm.crates ho c]
      exact hn.crates hn' c
    · exact hm.grows.trans hn.grows
    · have hbound := hm.bound
      have hbound' := hn.bound
      dsimp only
      omega

end Applies

section Exec

variable {s : ParseState} {crnum : Nat}

theorem onSlot_onSlot (c : FADC250_crate_t) (k : Int) (f g : FADC250_slot_t → FADC250_slot_t) :
    (c.onSlot k f).onSlot k g = c.onSlot k fun s => g (f s) := by
  simp [FADC250_crate_t.onSlot]

theorem onCrate_onCrate (t : TriggerConfig) (f g : FADC250_crate_t → FADC250_crate_t) :
    (t.onCrate crnum f).onCrate crnum g = t.onCrate crnum fun c => g (f c) := by
  simp only [TriggerConfig.onCrate, List.modify_modify_eq]
  rfl

theorem crateAt_run (t : TriggerConfig) (hlt : crnum < t.crates.length) (e : Edit) (c : Nat) :
    (t.onCrate crnum e.run).crateAt c =
      (ofCrate c [(crnum, e)]).foldl Edit.run (t.crateAt c) := by
  rw [TriggerConfig.crateAt_onCrate e.run_crate hlt]
  simp only [ofCrate, List.filterMap_cons, List.filterMap_nil]
  split <;> rfl

theorem length_onCrate (t : TriggerConfig) (f : FADC250_crate_t → FADC250_crate_t) :
    (t.onCrate crnum f).crates.length = t.crates.length := List.length_modify _ _ _

theorem applies_onCrate (e : Edit) (he : e.channels = []) (hlt : crnum < s.config.crates.length) :
    Applies (onConfig (·.onCrate crnum e.run)) s s.cursor [(crnum, e)] where
  logs := nofun
  outside := nofun
  log _ := by
    simp only [channels, List.flatMap_cons, List.flatMap_nil, he]
    rfl
  cursor _ := rfl
  crates _ c := crateAt_run s.config hlt e c
  grows := (length_onCrate s.config e.run).ge
  bound := (length_onCrate s.config e.run).le.trans (Nat.le_max_left _ _)

theorem threshold_size (hs : s.config.Sized) (crnum : Nat) (k : Int) :
    (((s.config.crates.getD crnum {}).slots k).getD {}).threshold.length = 16 :=
  (hs crnum).getD.threshold

theorem sized_onCrate {t : TriggerConfig} {f : FADC250_crate_t → FADC250_crate_t}
    (hf : ∀ x n, { f x with crate := n } = f { x with crate := n })
    (hsized : ∀ c : FADC250_crate_t, c.Sized → (f c).Sized) (ht : t.Sized) (crnum : Nat) :
    (t.onCrate crnum f).Sized := by
  by_cases hlt : crnum < t.crates.length
  · intro c
    rw [TriggerConfig.crateAt_onCrate hf hlt]
    split
    · exact hsized _ (ht c)
    · exact ht c
  · rw [TriggerConfig.onCrate, List.modify_eq_self (Nat.le_of_not_lt hlt)]
    exact ht

theorem applies_threshold (hs : s.config.Sized) (hlt : crnum < s.config.crates.length) (k : Int)
    (chan thres : Int) :
    Applies ((SlotEdit.threshold chan thres).exec crnum k) s s.cursor
      [(crnum, .own k (.threshold chan thres))] := by
  have hsize := threshold_size (s := { s with config := s.config.onCrate crnum (·.onSlot k id) })
    (sized_onCrate (fun _ _ => rfl) (fun c hc => hc.onSlot fun _ h => h) hs crnum) crnum k
  have hexec : (SlotEdit.threshold chan thres).exec crnum k s =
      (tell chan >>= fun _ =>
        if 0 ≤ chan ∧ chan < 16 then
          onConfig (·.onCrate crnum (·.onSlot k (SlotEdit.threshold chan thres |>.run ·)))
        else halt .outside) { s with config := s.config.onCrate crnum (·.onSlot k id) } := by
    rw [SlotEdit.exec, onConfig, modify_bind_apply, gets_bind_apply]
    dsimp only at hsize ⊢
    rw [hsize]
    rfl
  by_cases hr : 0 ≤ chan ∧ chan < 16
  · rw [if_pos hr] at hexec
    have hconfig : (s.config.onCrate crnum (·.onSlot k id)).onCrate crnum
        (·.onSlot k (SlotEdit.threshold chan thres |>.run ·)) =
          s.config.onCrate crnum (Edit.own k (.threshold chan thres)).run := by
      rw [onCrate_onCrate]
      simp only [onSlot_onSlot]
      rfl
    have h : (SlotEdit.threshold chan thres).exec crnum k s =
        ⟨.ok (), ⟨s.toParseVars, s.config.onCrate crnum (Edit.own k (.threshold chan thres)).run⟩,
          [chan]⟩ := by
      rw [← hconfig]
      exact hexec
    constructor <;> rw [h]
    · exact fun _ hc => hc
    · exact nofun
    · exact fun _ => rfl
    · exact fun _ => rfl
    · exact fun _ => crateAt_run s.config hlt _
    · exact (length_onCrate s.config _).ge
    · exact (length_onCrate s.config _).le.trans (Nat.le_max_left _ _)
  · rw [if_neg hr] at hexec
    have h : (SlotEdit.threshold chan thres).exec crnum k s =
      ⟨.error .outside, { s with config := s.config.onCrate crnum (·.onSlot k id) }, [chan]⟩ := hexec
    constructor <;> rw [h]
    · exact fun _ hc => hc
    · exact fun _ => ⟨chan, .head _, hr⟩
    · exact nofun
    · exact nofun
    · exact nofun
    · exact (length_onCrate s.config _).ge
    · exact (length_onCrate s.config _).le.trans (Nat.le_max_left _ _)

theorem applies_exec (hs : s.config.Sized) (hlt : crnum < s.config.crates.length) (e : Edit) :
    Applies (e.exec crnum) s s.cursor [(crnum, e)] := by
  cases e with
  | own k e =>
    cases e with
    | threshold chan thres => exact applies_threshold hs hlt k chan thres
    | _ => exact applies_onCrate (.own k _) rfl hlt
  | _ => exact applies_onCrate _ rfl hlt

theorem TriggerConfig.Sized.fold {t t' : TriggerConfig} {es : List (Nat × Edit)} (ht : t.Sized)
    (h : ∀ c, t'.crateAt c = (ofCrate c es).foldl Edit.run (t.crateAt c)) : t'.Sized := by
  intro c
  rw [h c]
  have hc := ht c
  revert hc
  generalize t.crateAt c = x
  induction ofCrate c es generalizing x with
  | nil => exact id
  | cons e es ih => exact fun hx => ih _ (e.sized_run hx)

theorem applies_run (hs : s.config.Sized) (hlt : crnum < s.config.crates.length) (es : List Edit) :
    Applies (run (Edit.exec crnum) es) s s.cursor (es.map fun e => (crnum, e)) := by
  induction es generalizing s with
  | nil => exact (aside_pure ()).applies
  | cons e es ih =>
    have he := applies_exec hs hlt e
    refine he.bind fun t ht => ?_
    obtain ⟨ho, rfl⟩ := ht
    rw [← he.cursor ho]
    exact ih (hs.fold (he.crates ho)) (Nat.lt_of_lt_of_le hlt he.grows)

theorem applies_fadcStep (hs : s.config.Sized) (hlt : crnum < s.config.crates.length)
    (r : Option (Int × List Edit)) :
    Applies (fadcStep crnum r) s
      ⟨s.fadc_crate_number, (r.getD (s.fadc_current_slot, [])).1⟩
      ((r.getD (s.fadc_current_slot, [])).2.map fun e => (crnum, e)) := by
  cases r with
  | none =>
    constructor
    · exact nofun
    · exact nofun
    · exact nofun
    · exact nofun
    · exact nofun
    · exact Nat.le_refl _
    · exact Nat.le_max_left _ _
  | some r =>
    apply (applies_modify (f := fun s => { s with fadc_current_slot := r.1 }) rfl).bind
    rintro t ⟨-, rfl⟩
    exact applies_run (s := { s with fadc_current_slot := r.1 }) hs hlt r.2

theorem applies_grow (hc : crnum ≤ 2) :
    Applies (onConfig fun t => { t with crates := growCrates crnum t.crates }) s s.cursor [] where
  logs := nofun
  outside := nofun
  log _ := rfl
  cursor _ := rfl
  crates _ c := TriggerConfig.crateAt_grow crnum c
  grows := (length_growCrates crnum s.config.crates).ge.trans' (Nat.le_max_left _ _)
  bound := (length_growCrates crnum s.config.crates).le.trans (by omega)

def fadcEdits (u : Uninit) (tok dat : Str) (cur : Int) : Int × List Edit :=
  (fadcEdit u tok dat cur).getD (cur, [])

theorem applies_fadcLine (u : Uninit) (tok dat : Str) (hs : s.config.Sized) (hc : crnum ≤ 2) :
    Applies (fadcLine u crnum tok dat) s
      ⟨s.fadc_crate_number, (fadcEdits u tok dat s.fadc_current_slot).1⟩
      ((fadcEdits u tok dat s.fadc_current_slot).2.map fun e => (crnum, e)) := by
  rw [fadcLine_eq]
  apply (applies_grow hc).bind
  rintro t ⟨-, rfl⟩
  apply Applies.congr (n := fadcStep crnum (fadcEdit u tok dat s.fadc_current_slot)) _
    (gets_bind_apply _ _ _)
  apply applies_fadcStep (hs.grow crnum)
  exact (length_growCrates crnum s.config.crates).symm ▸ by omega

theorem applies_parseLine (u : Uninit) (line : Str) (hs : s.config.Sized)
    (hc : s.fadc_crate_number ≤ 2) :
    Applies (parseLine u line) s (lineEdits u line s.cursor).1 (lineEdits u line s.cursor).2 := by
  unfold parseLine lineEdits
  dsimp only
  split
  · exact applies_modify rfl
  split
  · exact applies_modify rfl
  apply Applies.congr (n := when s.vtp_parse_area (vtpLine u (lineTok line) (lineDat line)) >>=
    fun _ => gets (fun s => s.fadc_crate_number) >>= fun c =>
      when (c ≠ 0) (fadcLine u c (lineTok line) (lineDat line))) _ (gets_bind_apply _ _ _)
  have hvtp : Aside (when s.vtp_parse_area (vtpLine u (lineTok line) (lineDat line))) s :=
    aside_ite ((aside_vtpLine u _ _).bind fun _ _ => aside_pure ()) (aside_pure ())
  refine (hvtp.applies.bind ?_ : Applies _ _ _ ([] ++ _))
  rintro t ⟨-, rfl⟩
  generalize ht : (when s.vtp_parse_area (vtpLine u (lineTok line) (lineDat line)) s).state = t
  have hcrates : t.config.crates = s.config.crates := ht ▸ hvtp.crates
  have hcursor : t.cursor = s.cursor := ht ▸ hvtp.cursor
  have hts : t.config.Sized := fun c => TriggerConfig.crateAt_congr hcrates c ▸ hs c
  have htc : t.fadc_crate_number ≤ 2 := (congrArg Cursor.crate hcursor).le.trans hc
  rw [← hcursor]
  apply Applies.congr _ (gets_bind_apply _ _ _)
  split
  · rename_i h0
    simp only [show t.fadc_crate_number = 0 from h0, ne_eq, not_true_eq_false, decide_false]
    exact (aside_pure ()).applies
  · rename_i h0
    simp only [show t.fadc_crate_number ≠ 0 from h0, ne_eq, not_false_eq_true, decide_true]
    exact (applies_fadcLine u _ _ hts htc).congr (congrFun (bind_pure _) t)

theorem lineEdits_crate_le (u : Uninit) (line : Str) {p : Cursor} (hp : p.crate ≤ 2) :
    (lineEdits u line p).1.crate ≤ 2 := by
  unfold lineEdits
  dsimp only
  split
  · exact hp
  split
  · unfold FADC250_CRATE
    dsimp only
    split_ifs <;> omega
  split
  · exact hp
  · exact hp

theorem applies_parseLines (u : Uninit) (lines : List Str) (hs : s.config.Sized)
    (hc : s.fadc_crate_number ≤ 2) :
    ∃ p, Applies (parseLines u lines) s p (edits u lines s.cursor) := by
  induction lines generalizing s with
  | nil => exact ⟨_, (aside_pure ()).applies⟩
  | cons line lines ih =>
    have hline := applies_parseLine u line hs hc
    cases ho : (parseLine u line s).out with
    | error e =>
      refine ⟨s.cursor, hline.bind fun t ht => ?_⟩
      cases ho.symm.trans ht.1
    | ok a =>
      have hcursor := hline.cursor ho
      have hc' := (congrArg Cursor.crate hcursor).le.trans (lineEdits_crate_le u line hc)
      obtain ⟨p, hp⟩ := ih (hs.fold (hline.crates ho)) hc'
      rw [hcursor] at hp
      refine ⟨p, hline.bind fun t ht => ?_⟩
      obtain ⟨-, rfl⟩ := ht
      exact hp

end Exec

namespace TriggerConfig

variable {u : Uninit} {t t' : TriggerConfig}

theorem returns_Parse_raw_data : Returns (Parse_raw_data u) t () t' ↔
    ∃ s, Returns (parseLines u t.raw_data) { config := t } () s ∧ t' = s.config := by
  simp [Parse_raw_data]

theorem crateAt_Parse_raw_data (ht : t.Sized) (h : Returns (Parse_raw_data u) t () t') (c : Nat) :
    t'.crateAt c = (crateEdits u t.raw_data c).foldl Edit.run (t.crateAt c) := by
  obtain ⟨s, ⟨ho, rfl⟩, rfl⟩ := returns_Parse_raw_data.mp h
  obtain ⟨p, hp⟩ := applies_parseLines (s := { config := t }) u t.raw_data ht (Nat.zero_le 2)
  exact hp.crates ho c

theorem length_Parse_raw_data (ht : t.Sized) (h : Returns (Parse_raw_data u) t () t') :
    t.crates.length ≤ t'.crates.length ∧ t'.crates.length ≤ max t.crates.length 3 := by
  obtain ⟨s, ⟨ho, rfl⟩, rfl⟩ := returns_Parse_raw_data.mp h
  obtain ⟨p, hp⟩ := applies_parseLines (s := { config := t }) u t.raw_data ht (Nat.zero_le 2)
  exact ⟨hp.grows, hp.bound⟩

theorem sized_Parse_raw_data (ht : t.Sized) (h : Returns (Parse_raw_data u) t () t') : t'.Sized :=
  ht.fold (crateAt_Parse_raw_data ht h)

end TriggerConfig

end EvioTool
