import EvioTool.Laws.DAQMap
import EvioTool.Lib.Tracks

namespace EvioTool

open Lib Exec TriggerConfig

def TriggerConfig.Roomy (t : TriggerConfig) : Prop :=
  ∀ config maps, t.vtp_configs config = some maps → maps.length ≤ max_size

structure ParseState.At (v : ParseVars) (s : ParseState) : Prop where
  vars : s.toParseVars = v
  sized : s.config.Sized
  roomy : s.config.Roomy

section Lines

variable {u : Uninit} {v : ParseVars} {s : ParseState} {crnum : Nat}

theorem ParseState.At.setConfig (h : s.At v) (config : Str) {maps : List (Str → Option (List Rat))}
    (hmaps : maps.length ≤ max_size) :
    ParseState.At v { s with config := s.config.setConfig config maps } := by
  refine ⟨h.vars, h.sized, fun c m hc => ?_⟩
  simp only [TriggerConfig.setConfig, Function.update_apply] at hc
  split at hc
  · obtain rfl := Option.some.inj hc
    exact hmaps
  · exact h.roomy c m hc

theorem ParseState.At.getD (h : s.At v) (config : Str) :
    ((s.config.vtp_configs config).getD []).length ≤ max_size := by
  cases hc : s.config.vtp_configs config with
  | none => exact Nat.zero_le _
  | some maps => exact h.roomy config maps hc

theorem growConfigs_cases (config_num : Int) {maps : List (Str → Option (List Rat))}
    (hmaps : maps.length ≤ max_size) :
    if toSize (toInt32 (config_num + 1)) ≤ max_size then
      ∃ maps', growConfigs config_num maps = some maps' ∧ maps'.length ≤ max_size
    else growConfigs config_num maps = none := by
  unfold growConfigs
  dsimp only
  by_cases hsize : toSize (toInt32 (config_num + 1)) ≤ max_size
  · rw [if_pos hsize, if_pos hsize]
    split
    · exact ⟨maps, rfl, hmaps⟩
    · refine ⟨_, rfl, ?_⟩
      rw [List.length_append, List.length_replicate]
      omega
  · rw [if_neg hsize, if_neg hsize, if_neg (by omega)]

theorem tracks_setOther (h : s.At v) (key : Str) (values : List Rat) :
    Tracks (onConfig (·.setOther key values)) (some v) (fun v _ t => t.At v) s :=
  tracks_modify ⟨h.vars, h.sized, h.roomy⟩

theorem tracks_vtpConfig (h : s.At v) (config item dat : Str) :
    Tracks (vtpConfig config item dat)
      (if toSize (toInt32 ((IStream.int { rest := dat } v.config_num).1 + 1)) ≤ max_size then
        some { v with config_num := (IStream.int { rest := dat } v.config_num).1 } else none)
      (fun v _ t => t.At v) s := by
  obtain ⟨t, ht, hcreate⟩ : ∃ t, ParseState.At v t ∧ Returns (onConfig fun t =>
      if (t.vtp_configs config).isSome then t else t.setConfig config []) s () t := by
    refine ⟨_, ?_, returns_modify.mpr rfl⟩
    dsimp only
    split
    · exact h
    · exact h.setConfig config (Nat.zero_le _)
  have hnum : t.config_num = v.config_num := congrArg ParseVars.config_num ht.vars
  unfold vtpConfig
  apply Tracks.after hcreate
  apply Tracks.gets_bind
  rw [hnum]
  rcases IStream.int { rest := dat } v.config_num with ⟨config_num, iss⟩
  dsimp only
  have hvars : ParseState.At { v with config_num } { t with config_num } :=
    ⟨by rw [← ht.vars], ht.sized, ht.roomy⟩
  apply Tracks.modify_bind
  apply Tracks.gets_bind
  have hgrow := growConfigs_cases config_num (hvars.getD config)
  split
  · rename_i hsize
    rw [if_pos hsize] at hgrow
    obtain ⟨maps, hmaps, hlen⟩ := hgrow
    rw [hmaps, demand_some, pure_bind]
    refine tracks_modify (hvars.setConfig config ?_)
    rwa [List.length_modify]
  · rename_i hsize
    rw [if_neg hsize] at hgrow
    rw [hgrow, demand_none, halt_bind]
    exact tracks_halt

theorem tokConfig_ne {tok : Str} (h : tokConfig tok ∈ parse_configs) :
    tokConfig tok ≠ str "FEE" ∧ tokConfig tok ≠ str "PRESCALE" :=
  ⟨fun hne => absurd (hne ▸ h) (by decide), fun hne => absurd (hne ▸ h) (by decide)⟩

theorem vtpLine_eq (u : Uninit) (tok dat : Str) : ∃ item, vtpLine u tok dat =
    if tok.take 8 = str "VTP_HPS_" then
      if tokConfig tok = str "FEE" then fee item dat
      else if tokConfig tok = str "PRESCALE" then prescale u (tokConfig tok) dat
      else if tokConfig tok ∈ parse_configs then vtpConfig (tokConfig tok) item dat
      else onConfig (·.setOther (tokConfig tok ++ str "_" ++ item) (IStream.doubles { rest := dat }))
    else pure () := ⟨_, rfl⟩

theorem tracks_vtpLine (h : s.At v) (tok dat : Str) :
    Tracks (vtpLine u tok dat) (vtpVars tok dat v) (fun v _ t => t.At v) s := by
  obtain ⟨item, hline⟩ := vtpLine_eq u tok dat
  rw [hline]
  unfold vtpVars
  by_cases htok : tok.take 8 = str "VTP_HPS_"
  · rw [if_pos htok]
    by_cases hmem : tokConfig tok ∈ parse_configs
    · obtain ⟨hfee, hprescale⟩ := tokConfig_ne hmem
      rw [if_neg hfee, if_neg hprescale, if_pos hmem, if_pos ⟨htok, hmem⟩]
      exact tracks_vtpConfig h _ _ _
    · have hnot : ¬(tok.take 8 = str "VTP_HPS_" ∧ tokConfig tok ∈ parse_configs) := fun hc => hmem hc.2
      rw [if_neg hmem, if_neg hnot]
      have hother (key : Str) (values : List Rat) := tracks_setOther h key values
      split
      · unfold fee
        dsimp only
        split
        · exact hother _ _
        · exact hother _ _
      · split
        · exact hother _ _
        · exact hother _ _
  · have hnot : ¬(tok.take 8 = str "VTP_HPS_" ∧ tokConfig tok ∈ parse_configs) := fun hc => htok hc.1
    rw [if_neg htok, if_neg hnot]
    exact tracks_pure h

theorem tracks_onCrate (h : s.At v) {f : FADC250_crate_t → FADC250_crate_t}
    (hf : ∀ x n, { f x with crate := n } = f { x with crate := n })
    (hsized : ∀ c : FADC250_crate_t, c.Sized → (f c).Sized) :
    Tracks (onConfig (·.onCrate crnum f)) (some v) (fun v _ t => t.At v) s :=
  tracks_modify ⟨h.vars, sized_onCrate hf hsized h.sized crnum, h.roomy⟩

theorem tracks_threshold (h : s.At v) (k chan thres : Int) :
    Tracks ((SlotEdit.threshold chan thres).exec crnum k)
      (if 0 ≤ chan ∧ chan < 16 then some v else none) (fun v _ t => t.At v) s := by
  have hslot : Tracks (onConfig (·.onCrate crnum (·.onSlot k id))) (some v) (fun v _ t => t.At v) s :=
    tracks_onCrate h (fun _ _ => rfl) fun c hc => hc.onSlot fun _ hs => hs
  obtain ⟨_, t, hcreate, ht⟩ := hslot.of_some
  unfold SlotEdit.exec
  apply Tracks.after hcreate
  apply Tracks.gets_bind
  apply Tracks.tell_bind
  rw [threshold_size ht.sized crnum k]
  refine Tracks.ite (fun _ => ?_) fun _ => tracks_halt
  exact tracks_onCrate ht (fun _ _ => rfl) fun c hc => hc.onSlot fun _ hs => SlotEdit.sized_run hs _

theorem tracks_edit (h : s.At v) (e : Edit) :
    Tracks (e.exec crnum) (if ∀ chan ∈ e.channels, 0 ≤ chan ∧ chan < 16 then some v else none)
      (fun v _ t => t.At v) s := by
  have hrun : Tracks (onConfig (·.onCrate crnum e.run)) (some v) (fun v _ t => t.At v) s :=
    tracks_onCrate h e.run_crate fun _ hc => e.sized_run hc
  cases e with
  | own k e =>
    cases e with
    | threshold chan thres =>
      have hchan : (∀ c ∈ (Edit.own k (.threshold chan thres)).channels, 0 ≤ c ∧ c < 16) ↔
          0 ≤ chan ∧ chan < 16 := List.forall_mem_singleton
      rw [if_congr hchan rfl rfl]
      exact tracks_threshold h k chan thres
    | _ =>
      rw [if_pos (by exact fun _ hc => absurd hc List.not_mem_nil)]
      exact hrun
  | _ =>
    rw [if_pos (by exact fun _ hc => absurd hc List.not_mem_nil)]
    exact hrun

theorem tracks_run (h : s.At v) (es : List Edit) :
    Tracks (run (Edit.exec crnum) es)
      (if ∀ e ∈ es, ∀ chan ∈ e.channels, 0 ≤ chan ∧ chan < 16 then some v else none)
      (fun v _ t => t.At v) s := by
  induction es generalizing s with
  | nil =>
    rw [if_pos (by exact fun _ hc => absurd hc List.not_mem_nil)]
    exact tracks_pure h
  | cons e es ih =>
    have hsplit : (if ∀ e' ∈ e :: es, ∀ chan ∈ e'.channels, 0 ≤ chan ∧ chan < 16 then some v
        else none) = (if ∀ chan ∈ e.channels, 0 ≤ chan ∧ chan < 16 then some v else none) >>= fun v =>
          if ∀ e' ∈ es, ∀ chan ∈ e'.channels, 0 ≤ chan ∧ chan < 16 then some v else none := by
      simp only [List.forall_mem_cons, ite_and]
      split <;> rfl
    rw [hsplit]
    refine (tracks_edit h e).bind fun w _ t hw ht => ?_
    obtain rfl : v = w := by
      split at hw
      · exact Option.some.inj hw
      · cases hw
    exact ih ht

theorem tracks_fadcLine (h : s.At v) (tok dat : Str) :
    Tracks (fadcLine u crnum tok dat) (fadcVars u tok dat v) (fun v _ t => t.At v) s := by
  have hgrow : Tracks (onConfig fun t => { t with crates := growCrates crnum t.crates }) (some v)
      (fun v _ t => t.At v) s := tracks_modify ⟨h.vars, h.sized.grow crnum, h.roomy⟩
  obtain ⟨_, t, hgrow, ht⟩ := hgrow.of_some
  have hslot : t.fadc_current_slot = v.fadc_current_slot :=
    congrArg ParseVars.fadc_current_slot ht.vars
  rw [fadcLine_eq]
  apply Tracks.after hgrow
  apply Tracks.gets_bind
  rw [hslot]
  refine (tracks_demand _).bind fun _ r t' _ hr => ?_
  obtain ⟨rfl, rfl⟩ := hr
  obtain ⟨slot, es⟩ := r
  apply Tracks.modify_bind
  have hvars : ParseState.At { v with fadc_current_slot := slot } { t' with fadc_current_slot := slot } :=
    ⟨by rw [← ht.vars], ht.sized, ht.roomy⟩
  exact tracks_run hvars es

theorem tracks_parseLine (h : s.At v) (line : Str) :
    Tracks (parseLine u line) (lineVars u line v) (fun v _ t => t.At v) s := by
  unfold parseLine lineVars
  dsimp only
  refine Tracks.ite (fun _ => ?_) fun _ => Tracks.ite (fun _ => ?_) fun _ => ?_
  · refine tracks_modify ⟨?_, h.sized, h.roomy⟩
    rw [← h.vars]
  · refine tracks_modify ⟨?_, h.sized, h.roomy⟩
    rw [← h.vars]
  · apply Tracks.gets_bind
    rw [congrArg ParseVars.vtp_parse_area h.vars]
    refine (Tracks.when (fun _ => tracks_vtpLine h _ _) fun _ => tracks_pure h).bind
      fun w _ t _ ht => ?_
    apply Tracks.gets_bind
    rw [congrArg ParseVars.fadc_crate_number ht.vars]
    have hline : Tracks (fadcLine u w.fadc_crate_number (lineTok line) (lineDat line)) _ _ t :=
      tracks_fadcLine ht _ _
    have hcrate := Tracks.when (c := decide (w.fadc_crate_number ≠ 0)) (fun _ => hline) fun _ =>
      tracks_pure (P := fun v _ (t : ParseState) => t.At v) ht
    simpa only [decide_eq_true_eq] using hcrate

theorem tracks_parseLines (h : s.At v) (lines : List Str) :
    Tracks (parseLines u lines) (linesVars u lines v) (fun v _ t => t.At v) s := by
  induction lines generalizing v s with
  | nil => exact tracks_pure h
  | cons line lines ih => exact (tracks_parseLine h line).bind fun _ _ _ _ ht => ih ht

end Lines

section Leaf

variable {u : Uninit} {t : TriggerConfig} {lines more : List Str}

/-- The configuration before an event. -/
structure TriggerConfig.Sound (t : TriggerConfig) : Prop where
  sized : t.Sized
  roomy : t.Roomy

theorem tracks_fill (h : t.Sound) (lines : List Str) :
    Tracks (fill u lines) (linesVars u (rawLines lines) {}) (fun _ _ t => t.Sound) t := by
  unfold fill CallBack Parse_evio_bank Parse_raw_data
  apply Tracks.modify_bind
  apply Tracks.modify_bind
  apply Tracks.gets_bind
  have hstart : ParseState.At {} { config := { t with data := lines, raw_data := rawLines lines } } :=
    ⟨rfl, h.sized, h.roomy⟩
  exact Tracks.zoom rfl (tracks_parseLines hstart _) fun _ _ _ ht => ⟨ht.sized, ht.roomy⟩

theorem returns_fill_iff (h : t.Sound) :
    (∃ t', Returns (fill u lines) t () t') ↔ Parses u lines := by
  rw [Parses, ← (tracks_fill h lines).isSome_iff]
  exact ⟨fun ⟨t', ht⟩ => ⟨(), t', ht⟩, fun ⟨_, t', ht⟩ => ⟨t', ht⟩⟩

theorem TriggerConfig.sound_ofBank : TriggerConfig.ofBank.Sound := by
  refine ⟨TriggerConfig.sized_empty.InitDAQMaps, fun config maps hmaps => ?_⟩
  rw [TriggerConfig.ofBank, vtp_configs_InitDAQMaps] at hmaps
  cases hmaps

theorem linesVars_append (xs ys : List Str) (v : ParseVars) :
    linesVars u (xs ++ ys) v = linesVars u xs v >>= linesVars u ys := by
  induction xs generalizing v with
  | nil => rfl
  | cons x xs ih =>
    have ih' : linesVars u (xs ++ ys) = fun v => linesVars u xs v >>= linesVars u ys := funext ih
    rw [List.cons_append, linesVars, linesVars, ih']
    cases lineVars u x v <;> rfl

theorem Parses.of_append (h : Parses u (lines ++ more)) : Parses u lines := by
  rw [Parses, rawLines, List.map_append, List.filter_append, linesVars_append] at h
  exact Option.isSome_of_isSome_bind h

end Leaf

end EvioTool
