import EvioTool.Defs.VTPStore
import EvioTool.Laws.ConfigEdits

namespace EvioTool

open Lib Exec TriggerConfig

section Parser

variable {u : Uninit} {crnum : Nat} {tok dat line : Str} {lines : List Str} {s s' : ParseState}

theorem returns_fee {item : Str} (h : Returns (fee item dat) s () s') :
    s.store.put (feeEntry item dat) = some s'.store ∧ s'.vtp_parse_area = s.vtp_parse_area := by
  unfold fee at h
  unfold feeEntry
  by_cases hitem : item = str "PRESCALE"
  · rw [if_pos hitem] at h ⊢
    obtain rfl := returns_modify.mp h
    exact ⟨rfl, rfl⟩
  · rw [if_neg hitem] at h ⊢
    obtain rfl := returns_modify.mp h
    exact ⟨rfl, rfl⟩

def ParseState.withConfig (s : ParseState) (config : Str) (config_num : Int) : ParseState :=
  { s with
    config_num
    config :=
      if (s.config.vtp_configs config).isSome then s.config else s.config.setConfig config [] }

theorem maps_withConfig (s : ParseState) (config : Str) (n : Int) :
    (s.withConfig config n).store.maps config = s.store.maps config := by
  unfold VTPStore.maps ParseState.store ParseState.withConfig
  cases h : s.config.vtp_configs config with
  | none => simp [setConfig, h]
  | some maps => simp [h]

theorem update_withConfig (s : ParseState) (config : Str) (n : Int)
    (maps : List (Str → Option (List Rat))) :
    Function.update (s.withConfig config n).config.vtp_configs config (some maps) =
      Function.update s.config.vtp_configs config (some maps) := by
  unfold ParseState.withConfig
  cases s.config.vtp_configs config with
  | none => simp [setConfig]
  | some maps => simp

theorem vtp_other_withConfig (s : ParseState) (config : Str) (n : Int) :
    (s.withConfig config n).config.vtp_other = s.config.vtp_other := by
  unfold ParseState.withConfig
  cases s.config.vtp_configs config <;> rfl

theorem vtpConfig_apply (config item dat : Str) (s : ParseState) :
    vtpConfig config item dat s =
      ((demand .exception
        (growConfigs (IStream.int { rest := dat } s.config_num).1 (s.store.maps config)) >>=
          fun maps => onConfig (·.setConfig config
            (maps.modify (toSize (IStream.int { rest := dat } s.config_num).1) fun m =>
              Function.update m item (some (IStream.int { rest := dat } s.config_num).2.doubles))))
        : Exec ConfigStop Int ParseState Unit)
      (s.withConfig config (IStream.int { rest := dat } s.config_num).1) := by
  rw [← maps_withConfig s config (IStream.int { rest := dat } s.config_num).1]
  rfl

theorem returns_vtpConfig {config item : Str} (h : Returns (vtpConfig config item dat) s () s') :
    s.store.put (.config config item dat) = some s'.store ∧
      s'.vtp_parse_area = s.vtp_parse_area := by
  rw [Returns, vtpConfig_apply] at h
  obtain ⟨maps, _, hdemand, h⟩ := returns_bind.mp h
  obtain ⟨hgrown, rfl⟩ := returns_demand.mp hdemand
  obtain rfl := returns_modify.mp h
  refine ⟨?_, rfl⟩
  change Option.map _ (growConfigs (IStream.int { rest := dat } s.config_num).1 _) = _
  rw [hgrown, Option.map_some]
  congr 1
  unfold ParseState.store
  congr 1
  · exact (update_withConfig s config _ _).symm
  · exact (vtp_other_withConfig s config _).symm

theorem vtpLine_of_none (h : vtpToken tok = none) : vtpLine u tok dat = pure () := by
  unfold vtpToken at h
  unfold vtpLine
  split at h
  · cases h
  · rename_i htok
    rw [if_neg htok]

theorem vtpLine_of_some {config item : Str} (h : vtpToken tok = some (config, item)) :
    vtpLine u tok dat =
      if config = str "FEE" then fee item dat
      else if config = str "PRESCALE" then prescale u config dat
      else if config ∈ parse_configs then vtpConfig config item dat
      else onConfig (·.setOther (config ++ str "_" ++ item) (IStream.doubles { rest := dat })) := by
  unfold vtpToken at h
  unfold vtpLine
  split at h
  · rename_i htok
    cases h
    exact if_pos htok
  · cases h

theorem returns_vtpLine (h : Returns (vtpLine u tok dat) s () s') :
    s.store.step (vtpEntry u.prescale_val tok dat) = some s'.store ∧
      s'.vtp_parse_area = s.vtp_parse_area := by
  unfold vtpEntry
  rcases ht : vtpToken tok with _ | ⟨config, item⟩
  · rw [vtpLine_of_none ht] at h
    obtain ⟨-, rfl⟩ := returns_pure.mp h
    exact ⟨rfl, rfl⟩
  rw [vtpLine_of_some ht] at h
  dsimp only [Option.map_some]
  by_cases hfee : config = str "FEE"
  · rw [if_pos hfee] at h ⊢
    exact returns_fee h
  rw [if_neg hfee] at h ⊢
  by_cases hprescale : config = str "PRESCALE"
  · rw [if_pos hprescale] at h ⊢
    obtain rfl := returns_modify.mp h
    exact ⟨rfl, rfl⟩
  rw [if_neg hprescale] at h ⊢
  by_cases hconfig : config ∈ parse_configs
  · rw [if_pos hconfig] at h ⊢
    exact returns_vtpConfig h
  · rw [if_neg hconfig] at h ⊢
    obtain rfl := returns_modify.mp h
    exact ⟨rfl, rfl⟩

abbrev Stores (x : VTPStore) (area : Bool) (s : ParseState) : Prop :=
  s.store = x ∧ s.vtp_parse_area = area

variable {x : VTPStore} {area : Bool}

theorem preserves_crates {f : TriggerConfig → List FADC250_crate_t} :
    Preserves (Stores x area) (onConfig fun t => { t with crates := f t }) :=
  preserves_modify fun _ h => h

theorem preserves_exec (e : Edit) : Preserves (Stores x area) (e.exec crnum) := by
  cases e with
  | own k e =>
    cases e with
    | threshold chan thres =>
      apply Preserves.bind
      · exact preserves_crates
      intro _
      apply Preserves.bind
      · exact preserves_of_state fun _ => rfl
      intro size
      apply Preserves.bind
      · exact preserves_of_state fun _ => rfl
      intro _
      split
      · exact preserves_crates
      · exact preserves_halt
    | _ => exact preserves_crates
  | _ => exact preserves_crates

theorem preserves_fadcLine : Preserves (Stores x area) (fadcLine u crnum tok dat) := by
  rw [fadcLine_eq]
  apply Preserves.bind
  · exact preserves_crates
  intro _
  apply Preserves.bind
  · exact preserves_of_state fun _ => rfl
  intro cur
  apply Preserves.bind
  · exact preserves_of_state fun s => by cases fadcEdit u tok dat cur <;> rfl
  intro r
  apply Preserves.bind
  · exact preserves_modify fun _ h => h
  intro _
  induction r.2 with
  | nil => exact preserves_pure
  | cons e es ih => exact (preserves_exec e).bind fun _ => ih

theorem vtpToken_crate : vtpToken (str "FADC250_CRATE") = none := rfl

theorem parseLine_of_ne (hcrate : lineTok line ≠ str "VTP_CRATE")
    (hfadc : lineTok line ≠ str "FADC250_CRATE") :
    parseLine u line = (do
      let vtp_parse_area ← gets fun s => s.vtp_parse_area
      when vtp_parse_area (vtpLine u (lineTok line) (lineDat line))
      let fadc_crate_number ← gets fun s => s.fadc_crate_number
      when (fadc_crate_number ≠ 0)
        (fadcLine u fadc_crate_number (lineTok line) (lineDat line))) := by
  unfold parseLine
  dsimp only
  rw [if_neg hcrate, if_neg hfadc]

theorem returns_other_line (h : Returns (parseLine u line) s () s')
    (hcrate : lineTok line ≠ str "VTP_CRATE") :
    (if s.vtp_parse_area then s.store.step (vtpEntry u.prescale_val (lineTok line) (lineDat line))
      else some s.store) = some s'.store ∧ s'.vtp_parse_area = s.vtp_parse_area := by
  by_cases hfadc : lineTok line = str "FADC250_CRATE"
  · unfold parseLine at h
    dsimp only at h
    rw [if_neg hcrate, if_pos hfadc] at h
    obtain rfl := returns_modify.mp h
    rw [vtpEntry, hfadc, vtpToken_crate]
    exact ⟨ite_self _, rfl⟩
  rw [parseLine_of_ne hcrate hfadc] at h
  obtain ⟨area, s₁, harea, h⟩ := returns_bind.mp h
  obtain ⟨rfl, rfl⟩ := returns_gets.mp harea
  obtain ⟨_, t, hvtp, h⟩ := returns_bind.mp h
  have hstores : Stores t.store t.vtp_parse_area s' := by
    obtain ⟨n, t₁, hn, h⟩ := returns_bind.mp h
    obtain ⟨-, rfl⟩ := returns_gets.mp hn
    exact preserves_fadcLine.when.returns h ⟨rfl, rfl⟩
  rw [hstores.1, hstores.2]
  cases harea : s₁.vtp_parse_area with
  | false =>
    rw [harea] at hvtp
    obtain rfl := returns_when_false.mp hvtp
    exact ⟨rfl, harea⟩
  | true =>
    rw [harea] at hvtp
    obtain ⟨_, hline⟩ := returns_when_true.mp hvtp
    obtain ⟨hstep, ha⟩ := returns_vtpLine hline
    exact ⟨hstep, ha.trans harea⟩

theorem returns_parseLines (h : Returns (parseLines u lines) s () s') :
    s.store.lines u.prescale_val (areaLines lines s.vtp_parse_area) = some s'.store := by
  induction lines generalizing s with
  | nil =>
    obtain ⟨-, rfl⟩ := returns_pure.mp h
    rfl
  | cons line lines ih =>
    obtain ⟨_, t, hline, hlines⟩ := returns_bind.mp h
    have ih := ih hlines
    unfold areaLines
    by_cases hcrate : lineTok line = str "VTP_CRATE"
    · rw [if_pos hcrate]
      unfold parseLine at hline
      dsimp only at hline
      rw [if_pos hcrate] at hline
      obtain rfl := returns_modify.mp hline
      exact ih
    · rw [if_neg hcrate]
      obtain ⟨hstep, harea⟩ := returns_other_line hline hcrate
      rw [harea] at ih
      cases ha : s.vtp_parse_area with
      | false =>
        rw [ha] at hstep ih
        obtain hstore : s.store = t.store := by simpa using hstep
        rw [hstore]
        exact ih
      | true =>
        rw [ha] at hstep ih
        rw [if_pos rfl, VTPStore.lines, List.foldlM_cons]
        rw [if_pos rfl] at hstep
        rw [hstep]
        exact ih

end Parser

theorem toSize_succ {n : Int} (h : CanCount n) : toSize (toInt32 (n + 1)) = (n + 1).toNat := by
  obtain ⟨hl, hu⟩ := h
  rw [toInt32_eq (by omega) (by omega), toSize]
  omega

theorem canCount_natCast {n : Nat} (hn : n < 2 ^ 31 - 1) : CanCount n := by
  unfold CanCount
  omega

theorem growConfigs_of_canCount {n : Int} (h : CanCount n)
    (maps : List (Str → Option (List Rat))) :
    growConfigs n maps =
      some (maps ++ List.replicate ((n + 1).toNat - maps.length) fun _ => none) := by
  have hsize := toSize_succ h
  obtain ⟨hl, hu⟩ := h
  have hmax : 2 ^ 31 ≤ max_size := by decide
  unfold growConfigs
  dsimp only
  rw [hsize]
  split
  · rename_i hle
    simp [Nat.sub_eq_zero_of_le hle]
  · rw [if_pos (by omega)]

theorem int_congr {iss : IStream} {old : Int} (h : (iss.int old).2.fail = false) (old' : Int) :
    iss.int old' = iss.int old := by
  unfold IStream.int at h ⊢
  cases hready : iss.ready with
  | none =>
    rw [hready] at h
    cases h
  | some rest => rfl

theorem int_of_lineNumber {dat : Str} {n : Int} (h : lineNumber dat = some n) (old : Int) :
    IStream.int { rest := dat } old = (n, (IStream.int { rest := dat } 0).2) := by
  unfold lineNumber at h
  dsimp only at h
  split at h
  · cases h
  · rename_i hfail
    rw [int_congr (by simpa using hfail) old]
    cases h
    rfl

theorem find_parse_config {config : Str} (hc : config ∈ parse_configs) (rest : Str) :
    Str.find (str "VTP_HPS_" ++ config ++ str "_" ++ rest) 95 9 = some (8 + config.length) := by
  simp only [parse_configs, List.mem_cons, List.not_mem_nil, or_false] at hc
  obtain rfl | rfl | rfl := hc <;> rfl

theorem drop_of_find {s : Str} {c : UInt8} {k pos : Nat} (h : Str.find s c k = some pos) :
    k ≤ pos ∧ s.drop pos = c :: s.drop (pos + 1) := by
  obtain ⟨i, hi, rfl⟩ := Option.map_eq_some_iff.mp h
  obtain ⟨hlt, hc, -⟩ := List.findIdx?_eq_some_iff_getElem.mp hi
  have hlen : k + i < s.length := by
    rw [List.length_drop] at hlt
    omega
  rw [List.getElem_drop] at hc
  rw [List.drop_eq_getElem_cons hlen, eq_of_beq hc]
  exact ⟨Nat.le_add_right k i, rfl⟩

theorem vtpToken_append {config : Str} (hc : config ∈ parse_configs) (item : Str) :
    vtpToken (str "VTP_HPS_" ++ config ++ str "_" ++ item) = some (config, item) := by
  unfold vtpToken
  rw [find_parse_config hc]
  simp only [parse_configs, List.mem_cons, List.not_mem_nil, or_false] at hc
  obtain rfl | rfl | rfl := hc <;> rfl

theorem eq_of_vtpToken {tok config item : Str} (hi : item ≠ [])
    (h : vtpToken tok = some (config, item)) :
    tok = str "VTP_HPS_" ++ config ++ str "_" ++ item := by
  unfold vtpToken at h
  split at h
  · rename_i htake
    cases hfind : Str.find tok 95 9 with
    | none =>
      rw [hfind] at h
      cases h
      exact (hi rfl).elim
    | some pos =>
      obtain ⟨hpos, hdrop⟩ := drop_of_find hfind
      rw [hfind] at h
      obtain ⟨rfl, hitem⟩ : (tok.drop 8).take (pos - 8) = config ∧
          (if pos > 255 then [] else tok.drop (pos + 1)) = item := by simpa using h
      split at hitem
      · exact (hi hitem.symm).elim
      subst hitem
      have hrest : (tok.drop 8).drop (pos - 8) = 95 :: tok.drop (pos + 1) := by
        rw [List.drop_drop, ← hdrop]
        congr 1
        omega
      calc
        tok = tok.take 8 ++ tok.drop 8 := (List.take_append_drop 8 tok).symm
        _ = tok.take 8 ++ ((tok.drop 8).take (pos - 8) ++ (tok.drop 8).drop (pos - 8)) :=
          congrArg (tok.take 8 ++ ·) (List.take_append_drop (pos - 8) (tok.drop 8)).symm
        _ = _ := by
          rw [hrest, htake]
          simp [str]
  · cases h

theorem vtpEntry_config {old : Rat} {tok dat config item : Str}
    (ht : vtpToken tok = some (config, item))
    (hc : config ∈ parse_configs) : vtpEntry old tok dat = some (.config config item dat) := by
  unfold vtpEntry
  rw [ht]
  simp only [parse_configs, List.mem_cons, List.not_mem_nil, or_false] at hc
  obtain rfl | rfl | rfl := hc <;> rfl

theorem vtpEntry_not_config {tok config item : Str} (ht : vtpToken tok = some (config, item))
    (hc : config ∉ parse_configs) (old : Rat) (dat : Str) :
    ∃ key values, vtpEntry old tok dat = some (.other key values) := by
  unfold vtpEntry
  rw [ht]
  dsimp only [Option.map_some]
  split
  · unfold feeEntry
    dsimp only
    split
    · exact ⟨_, _, rfl⟩
    · exact ⟨_, _, rfl⟩
  split
  · exact ⟨_, _, rfl⟩
  · exact ⟨_, _, rfl⟩

namespace VTPStore

variable {s s' : VTPStore} {old : Rat} {ls : List Str}

theorem lines_cons {line : Str} :
    s.lines old (line :: ls) = some s' ↔
      ∃ t, s.step (vtpEntry old (lineTok line) (lineDat line)) = some t ∧ t.lines old ls = some s' :=
  Option.bind_eq_some_iff

theorem step_other (key : Str) {line : Str}
    (h : s.step (vtpEntry old (lineTok line) (lineDat line)) = some s') :
    s'.vtp_other key = ((otherValue old key line).map some).getD (s.vtp_other key) := by
  unfold otherValue
  generalize vtpEntry old (lineTok line) (lineDat line) = e at h ⊢
  rcases e with _ | ⟨config, item, dat⟩ | ⟨k, values⟩
  · cases h
    rfl
  · obtain ⟨maps, -, rfl⟩ := Option.map_eq_some_iff.mp h
    rfl
  · cases h
    change Function.update s.vtp_other k (some values) key = _
    rw [Function.update_apply]
    split
    · rename_i hk
      simp [hk]
    · rename_i hk
      simp [Ne.symm hk]

theorem vtp_other_lines (key : Str) (h : s.lines old ls = some s') :
    s'.vtp_other key =
      written (ls.map fun line => (otherValue old key line).map some) (s.vtp_other key) :=
  foldlM_written (fun s => s.vtp_other key) (fun _ _ _ _ hstep => step_other key hstep) h

def grown (maps : List (Str → Option (List Rat))) (n : Nat) (i : Str) (values : List Rat) :
    List (Str → Option (List Rat)) :=
  (maps ++ List.replicate (n + 1 - maps.length) fun _ => none).modify n fun m =>
    Function.update m i (some values)

theorem getElem?_grown (maps : List (Str → Option (List Rat))) (n : Nat) (i : Str)
    (values : List Rat) (m : Nat) (j : Str) :
    ((grown maps n i values)[m]? >>= fun x => x j) =
      if m = n ∧ j = i then some values else maps[m]? >>= fun x => x j := by
  rw [grown, List.getElem?_modify, List.getElem?_append, List.getElem?_replicate]
  by_cases hm : m < maps.length
  · rw [if_pos hm, List.getElem?_eq_getElem hm]
    by_cases hn : n = m
    · subst hn
      by_cases hj : j = i <;> simp [hj]
    · simp [hn, Ne.symm hn]
  · rw [if_neg hm, List.getElem?_eq_none (by omega)]
    by_cases hn : n = m
    · subst hn
      rw [if_pos (by omega)]
      by_cases hj : j = i <;> simp [hj]
    · by_cases hr : m - maps.length < n + 1 - maps.length <;> simp [hr, hn, Ne.symm hn]

theorem put_config_eq (config item dat : Str) :
    s.put (.config config item dat) =
      (growConfigs (IStream.int { rest := dat } s.config_num).1 (s.maps config)).map fun maps =>
        { s with
          config_num := (IStream.int { rest := dat } s.config_num).1
          vtp_configs := Function.update s.vtp_configs config
            (some (maps.modify (toSize (IStream.int { rest := dat } s.config_num).1) fun m =>
              Function.update m item (some (IStream.int { rest := dat } s.config_num).2.doubles))) } :=
  rfl

theorem put_config {config item dat : Str} {n : Nat} (hnumber : lineNumber dat = some (n : Int))
    (hn : n < 2 ^ 31 - 1) :
    s.put (.config config item dat) = some
      { s with
        config_num := n
        vtp_configs := Function.update s.vtp_configs config
          (some (grown (s.maps config) n item (lineNumbers dat))) } := by
  have hsize : toSize n = n := by
    rw [toSize]
    omega
  rw [put_config_eq, int_of_lineNumber hnumber, growConfigs_of_canCount (canCount_natCast hn),
    Option.map_some, hsize]
  rfl

theorem entry_put {config item dat : Str} {n : Nat} (hnumber : lineNumber dat = some (n : Int))
    (hn : n < 2 ^ 31 - 1) (h : s.put (.config config item dat) = some s') (c : Str) (m : Nat)
    (i : Str) :
    s'.entry c m i = if c = config ∧ m = n ∧ i = item then some (lineNumbers dat)
      else s.entry c m i := by
  rw [put_config hnumber hn] at h
  cases h
  simp only [entry, maps, Function.update_apply]
  by_cases hc : c = config
  · subst hc
    rw [if_pos rfl, Option.getD_some, getElem?_grown]
    simp
  · rw [if_neg hc, if_neg (by tauto)]

theorem configValue_of_ne {c i line : Str} {m : Nat} (h : vtpToken (lineTok line) ≠ some (c, i)) :
    configValue c m i line = none := by
  apply if_neg
  rintro ⟨hc, htok, -⟩
  rw [htok] at h
  exact h (vtpToken_append hc i)

theorem configValue_of_eq {c i line : Str} {m n : Nat} (hc : c ∈ parse_configs) (hi : i ≠ [])
    (h : vtpToken (lineTok line) = some (c, i))
    (hnumber : lineNumber (lineDat line) = some (n : Int)) :
    configValue c m i line = if m = n then some (lineNumbers (lineDat line)) else none := by
  unfold configValue
  rw [hnumber]
  refine if_congr ?_ rfl rfl
  constructor
  · rintro ⟨-, -, hm⟩
    exact (Int.ofNat.inj (Option.some.inj hm)).symm
  · rintro rfl
    exact ⟨hc, eq_of_vtpToken hi h, rfl⟩

theorem step_config (hls : ConfigLines ls) {line : Str} (hline : line ∈ ls)
    (h : s.step (vtpEntry old (lineTok line) (lineDat line)) = some s') (c : Str) (m : Nat)
    (i : Str) :
    s'.entry c m i = ((configValue c m i line).map some).getD (s.entry c m i) := by
  rcases ht : vtpToken (lineTok line) with _ | ⟨config, item⟩
  · rw [vtpEntry, ht] at h
    cases h
    rw [configValue_of_ne (by simp [ht])]
    rfl
  by_cases hc : config ∈ parse_configs
  · obtain ⟨hitem, n, hnumber, hn⟩ := hls line hline config item ht hc
    rw [vtpEntry_config ht hc] at h
    rw [entry_put hnumber hn h]
    by_cases hci : c = config ∧ i = item
    · obtain ⟨rfl, rfl⟩ := hci
      rw [configValue_of_eq hc hitem ht hnumber]
      by_cases hm : m = n <;> simp [hm]
    · rw [if_neg (by tauto), configValue_of_ne]
      · rfl
      · simp only [ht, ne_eq, Option.some.injEq, Prod.mk.injEq]
        tauto
  · obtain ⟨key, values, hother⟩ := vtpEntry_not_config ht hc old (lineDat line)
    rw [hother] at h
    cases h
    unfold configValue
    rw [if_neg]
    · rfl
    · rintro ⟨hmem, htok, -⟩
      rw [htok, vtpToken_append hmem] at ht
      cases ht
      exact hc hmem

theorem entry_lines (hls : ConfigLines ls) (h : s.lines old ls = some s') (c : Str) (m : Nat)
    (i : Str) :
    s'.entry c m i = written (ls.map fun line => (configValue c m i line).map some) (s.entry c m i) :=
  foldlM_written (fun s => s.entry c m i)
    (fun _ hline _ _ hstep => step_config hls hline hstep c m i) h

theorem double_congr {iss : IStream} {old : Rat} (h : (iss.double old).2.fail = false) (old' : Rat) :
    iss.double old' = iss.double old := by
  unfold IStream.double IStream.decimal at h ⊢
  cases hready : iss.ready with
  | none =>
    rw [hready] at h
    cases h
  | some rest => rfl

theorem vtpEntry_congr {tok dat : Str}
    (h : ∀ item, vtpToken tok = some (str "PRESCALE", item) → TwoNumbers dat) (old : Rat) :
    vtpEntry old tok dat = vtpEntry 0 tok dat := by
  unfold vtpEntry
  rcases ht : vtpToken tok with _ | ⟨config, item⟩
  · rfl
  dsimp only [Option.map_some]
  split
  · rfl
  split
  · rename_i hprescale
    rw [hprescale] at ht
    rw [double_congr (h item ht) old]
  · rfl

theorem lines_congr
    (h : ∀ line ∈ ls, ∀ item, vtpToken (lineTok line) = some (str "PRESCALE", item) →
      TwoNumbers (lineDat line)) (old : Rat) (s : VTPStore) : s.lines old ls = s.lines 0 ls := by
  induction ls generalizing s with
  | nil => rfl
  | cons line ls ih =>
    unfold lines
    rw [List.foldlM_cons, List.foldlM_cons, vtpEntry_congr (h line (.head _))]
    congr 1
    funext s'
    exact ih (fun l hl => h l (.tail _ hl)) s'

end VTPStore

section Store

variable {u : Uninit} {t t' : TriggerConfig}

theorem store_Parse_raw_data (hconfigs : t.vtp_configs = fun _ => none)
    (hother : t.vtp_other = fun _ => none) (h : Returns (Parse_raw_data u) t () t') :
    ∃ s, VTPStore.lines u.prescale_val {} (areaLines t.raw_data false) = some s ∧
      t'.vtp_configs = s.vtp_configs ∧ t'.vtp_other = s.vtp_other := by
  obtain ⟨s, hs, rfl⟩ := returns_Parse_raw_data.mp h
  have hstart : ParseState.store { config := t } = {} := by
    rw [ParseState.store, hconfigs, hother]
  have hlines := returns_parseLines hs
  rw [hstart] at hlines
  exact ⟨s.store, hlines, rfl, rfl⟩

/-- In both maps the last line for an entry wins, and the lines outside the areas do not
matter. -/
theorem Parse_raw_data_store (u : Uninit) (t t' : TriggerConfig) (hlines : StoreLines t.raw_data)
    (hconfigs : t.vtp_configs = fun _ => none) (hother : t.vtp_other = fun _ => none)
    (h : Returns (Parse_raw_data u) t () t') :
    (∀ config n item values, t'.entry config n item = some values ↔
      LastWrites (configValue config n item) (areaLines t.raw_data false) values) ∧
    (∀ key values, t'.vtp_other key = some values ↔
      LastWrites (otherValue 0 key) (areaLines t.raw_data false) values) ∧
    ∀ u' raw_data v, areaLines raw_data false = areaLines t.raw_data false →
      Returns (Parse_raw_data u') { t with raw_data } () v →
      v.vtp_configs = t'.vtp_configs ∧ v.vtp_other = t'.vtp_other := by
  obtain ⟨s, hs, hsconfigs, hsother⟩ := store_Parse_raw_data hconfigs hother h
  rw [VTPStore.lines_congr hlines.prescale] at hs
  refine ⟨fun config n item values => ?_, fun key values => ?_, fun u' raw_data v hraw hv => ?_⟩
  · have hentry : t'.entry config n item = s.entry config n item := by
      rw [TriggerConfig.entry, hsconfigs]
      rfl
    rw [hentry, VTPStore.entry_lines hlines.configs hs]
    exact lastWrites_iff
  · rw [hsother, VTPStore.vtp_other_lines key hs]
    exact lastWrites_iff
  · obtain ⟨s', hs', hvconfigs, hvother⟩ :=
      store_Parse_raw_data (t := { t with raw_data }) hconfigs hother hv
    dsimp only at hs'
    rw [hraw, VTPStore.lines_congr hlines.prescale, hs] at hs'
    cases hs'
    exact ⟨hvconfigs.trans hsconfigs.symm, hvother.trans hsother.symm⟩

def storeLines : List Str :=
  [str "VTP_CRATE all", str "VTP_HPS_PAIR_EMIN 1 5", str "VTP_HPS_PAIR_EMIN 1 7",
    str "VTP_HPS_PRESCALE 0 3", str "VTP_CRATE end", str "VTP_HPS_PAIR_EMIN 1 9"]

theorem areaLines_storeLines : areaLines storeLines false = [str "VTP_HPS_PAIR_EMIN 1 5",
    str "VTP_HPS_PAIR_EMIN 1 7", str "VTP_HPS_PRESCALE 0 3"] := by decide

theorem storeLines_ok : StoreLines storeLines := by
  constructor
  · rw [areaLines_storeLines]
    intro line hline config item ht hc
    simp only [List.mem_cons, List.not_mem_nil, or_false] at hline
    obtain rfl | rfl | rfl := hline
    · obtain ⟨rfl, rfl⟩ := Prod.mk.inj (Option.some.inj ht)
      exact ⟨by decide, 1, by decide, by decide⟩
    · obtain ⟨rfl, rfl⟩ := Prod.mk.inj (Option.some.inj ht)
      exact ⟨by decide, 1, by decide, by decide⟩
    · obtain ⟨rfl, rfl⟩ := Prod.mk.inj (Option.some.inj ht)
      exact absurd hc (by decide)
  · rw [areaLines_storeLines]
    intro line hline item ht
    simp only [List.mem_cons, List.not_mem_nil, or_false] at hline
    obtain rfl | rfl | rfl := hline
    · exact absurd (Prod.mk.inj (Option.some.inj ht)).1 (by decide)
    · exact absurd (Prod.mk.inj (Option.some.inj ht)).1 (by decide)
    · unfold TwoNumbers
      decide +kernel

theorem Parse_raw_data_storeLines :
    ∃ t', Returns (Parse_raw_data ⟨0, 0, 0⟩) { raw_data := storeLines } () t' ∧
      ∀ values, t'.entry (str "PAIR") 1 (str "EMIN") = some values ↔
        LastWrites (configValue (str "PAIR") 1 (str "EMIN")) (areaLines storeLines false) values := by
  have h := returns_of_isOk (m := Parse_raw_data ⟨0, 0, 0⟩) (s := { raw_data := storeLines })
    (by decide +kernel)
  exact ⟨_, h, (Parse_raw_data_store _ { raw_data := storeLines } _ storeLines_ok rfl rfl h).1 _ _ _⟩

end Store

end EvioTool
