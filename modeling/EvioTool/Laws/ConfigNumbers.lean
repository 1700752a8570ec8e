import EvioTool.Laws.VTPStore

namespace EvioTool

open Lib Exec TriggerConfig

def allocate (config_num : Int) :
    Nat → List (Str → Option (List Rat)) → Bool × List (Str → Option (List Rat))
  | 0, maps => (decide ¬maps.length < toSize (toInt32 (config_num + 1)), maps)
  | room + 1, maps =>
    if maps.length < toSize (toInt32 (config_num + 1)) then
      allocate config_num room (maps ++ [fun _ => none])
    else (true, maps)

def pushed (config_num : Int) (maps : List (Str → Option (List Rat))) : Nat :=
  (allocate config_num (max_size - maps.length) maps).2.length - maps.length

section Loop

variable {n : Int} {maps : List (Str → Option (List Rat))}

theorem allocate_eq (n : Int) (room : Nat) (maps : List (Str → Option (List Rat))) :
    allocate n room maps =
      (decide (toSize (toInt32 (n + 1)) ≤ maps.length + room),
        maps ++ List.replicate (min room (toSize (toInt32 (n + 1)) - maps.length)) fun _ => none) := by
  induction room generalizing maps with
  | zero => simp [allocate]
  | succ room ih =>
    unfold allocate
    split
    · rename_i hlt
      rw [ih, List.append_assoc]
      congr 1
      · simp only [List.length_append, List.length_singleton, decide_eq_decide]
        omega
      · rw [List.length_append, List.length_singleton, ← List.replicate_one,
          List.replicate_append_replicate]
        congr 2
        omega
    · rename_i hlt
      rw [Nat.sub_eq_zero_of_le (by omega)]
      simp
      omega

theorem growConfigs_eq_allocate (n : Int) (maps : List (Str → Option (List Rat))) :
    growConfigs n maps =
      if (allocate n (max_size - maps.length) maps).1 then
        some (allocate n (max_size - maps.length) maps).2
      else none := by
  rw [allocate_eq]
  unfold growConfigs
  dsimp only
  split
  · rename_i hle
    rw [if_pos (by simp; omega), Nat.sub_eq_zero_of_le hle]
    simp
  split
  · rename_i hlt hle
    rw [if_pos (by simp; omega)]
    congr 3
    omega
  · rename_i hlt hle
    rw [if_neg (by simp; omega)]

theorem pushed_eq (n : Int) (maps : List (Str → Option (List Rat))) :
    pushed n maps = min (max_size - maps.length) (toSize (toInt32 (n + 1)) - maps.length) := by
  rw [pushed, allocate_eq]
  simp

theorem max_size_lt_toSize (hf : FitsInt n) (h : ¬CanCount n) :
    max_size < toSize (toInt32 (n + 1)) := by
  obtain ⟨hl, hu⟩ := hf
  unfold CanCount at h
  have hmax : max_size < 2 ^ 63 := by decide
  by_cases hn : n = 2 ^ 31 - 1
  · rw [toInt32_wrap (by omega) (by omega), toSize]
    omega
  · rw [toInt32_eq (by omega) (by omega), toSize]
    omega

theorem pushed_of_canCount (h : CanCount n) :
    (pushed n maps : Int) = max 0 (n + 1 - maps.length) := by
  rw [pushed_eq, toSize_succ h]
  obtain ⟨hl, hu⟩ := h
  have hmax : 2 ^ 31 ≤ max_size := by decide
  omega

theorem pushed_of_not_canCount (hf : FitsInt n) (h : ¬CanCount n) :
    pushed n maps = max_size - maps.length := by
  have hlt := max_size_lt_toSize hf h
  rw [pushed_eq]
  omega

theorem pushed_le_iff (hf : FitsInt n) (hsize : maps.length < 2 ^ 31) :
    (pushed n maps : Int) ≤ max 0 (n + 1 - maps.length) ↔ CanCount n := by
  constructor
  · intro hle
    by_contra h
    rw [pushed_of_not_canCount hf h] at hle
    obtain ⟨hl, hu⟩ := hf
    have hmax : 2 ^ 32 ≤ max_size := by decide
    omega
  · exact fun h => (pushed_of_canCount h).le

theorem growConfigs_of_not_canCount (hf : FitsInt n) (h : ¬CanCount n)
    (hsize : maps.length < 2 ^ 31) : growConfigs n maps = none := by
  have hlt := max_size_lt_toSize hf h
  have hmax : 2 ^ 31 ≤ max_size := by decide
  unfold growConfigs
  dsimp only
  rw [if_neg (by omega), if_neg (by omega)]

end Loop

/-- In the parse of the lines from `s` on, there is a line for a config with these maps, and
its number reads as `n`. -/
inductive ReadsNumber (u : Uninit) (s : ParseState) (lines : List Str) (config : Str) :
    List (Str → Option (List Rat)) → Int → Prop
  | intro {before after : List Str} {line item : Str} {t : ParseState} :
    lines = before ++ line :: after → Returns (parseLines u before) s () t →
    t.vtp_parse_area = true → vtpToken (lineTok line) = some (config, item) →
    config ∈ parse_configs →
    ReadsNumber u s lines config (t.store.maps config)
      (IStream.int { rest := lineDat line } t.config_num).1

structure VTPStore.Small (s : VTPStore) : Prop where
  maps : ∀ config, (s.maps config).length < 2 ^ 31
  config_num : FitsInt s.config_num

theorem fitsInt_int {iss : IStream} {old : Int} (h : FitsInt old) : FitsInt (iss.int old).1 := by
  unfold IStream.int
  cases iss.ready with
  | none => exact h
  | some rest =>
    dsimp only
    split
    · exact (by decide : FitsInt 0)
    split
    · exact (by decide : FitsInt (-2 ^ 31))
    split
    · exact (by decide : FitsInt (2 ^ 31 - 1))
    · rename_i hl hu
      exact ⟨Int.not_lt.mp hl, Int.not_le.mp hu⟩

namespace VTPStore

variable {s s' : VTPStore} {old : Rat} {ls : List Str} {e : VTPEntry}

theorem maps_put_config {config item dat : Str} (h : s.put (.config config item dat) = some s') :
    ∃ grown, growConfigs (IStream.int { rest := dat } s.config_num).1 (s.maps config) = some grown ∧
      (s'.maps config).length = grown.length ∧ ∀ c ≠ config, s'.vtp_configs c = s.vtp_configs c := by
  rw [put_config_eq] at h
  obtain ⟨grown, hgrown, rfl⟩ := Option.map_eq_some_iff.mp h
  refine ⟨grown, hgrown, ?_, fun c hc => ?_⟩
  · simp [maps]
  · exact Function.update_of_ne hc _ _

theorem Small.put (hs : s.Small) (h : s.put e = some s') : s'.Small := by
  cases e with
  | other key values =>
    cases h
    exact ⟨hs.maps, hs.config_num⟩
  | config config item dat =>
    have hfits : FitsInt (IStream.int { rest := dat } s.config_num).1 := fitsInt_int hs.config_num
    obtain ⟨grown, hgrown, hlength, hother⟩ := maps_put_config h
    have hnum : s'.config_num = (IStream.int { rest := dat } s.config_num).1 := by
      rw [put_config_eq] at h
      obtain ⟨grown, -, rfl⟩ := Option.map_eq_some_iff.mp h
      rfl
    refine ⟨fun c => ?_, hnum ▸ hfits⟩
    by_cases hc : c = config
    · subst hc
      have hcount : CanCount (IStream.int { rest := dat } s.config_num).1 := by
        by_contra hcount
        rw [growConfigs_of_not_canCount hfits hcount (hs.maps c)] at hgrown
        cases hgrown
      rw [growConfigs_of_canCount hcount] at hgrown
      cases hgrown
      have hold := hs.maps c
      obtain ⟨-, hu⟩ := hcount
      rw [hlength, List.length_append, List.length_replicate]
      omega
    · unfold VTPStore.maps
      rw [hother c hc]
      exact hs.maps c

theorem Small.lines (hs : s.Small) (h : s.lines old ls = some s') : s'.Small := by
  induction ls generalizing s with
  | nil =>
    cases h
    exact hs
  | cons line ls ih =>
    obtain ⟨t, hstep, hrest⟩ := lines_cons.mp h
    refine ih ?_ hrest
    cases hentry : vtpEntry old (lineTok line) (lineDat line) with
    | none =>
      rw [hentry] at hstep
      cases hstep
      exact hs
    | some e =>
      rw [hentry] at hstep
      exact hs.put hstep

theorem length_put_config {config item dat : Str} {maps : List (Str → Option (List Rat))}
    (h : s.put (.config config item dat) = some s')
    (hcount : CanCount (IStream.int { rest := dat } s.config_num).1)
    (hmaps : s'.vtp_configs config = some maps) :
    (∃ m, s.vtp_configs config = some m ∧ maps.length ≤ m.length) ∨
      (maps.length : Int) ≤ (IStream.int { rest := dat } s.config_num).1 + 1 := by
  obtain ⟨grown, hgrown, hlength, -⟩ := maps_put_config h
  rw [growConfigs_of_canCount hcount] at hgrown
  cases hgrown
  rw [VTPStore.maps, hmaps, Option.getD_some, List.length_append, List.length_replicate] at hlength
  obtain ⟨hl, -⟩ := hcount
  by_cases hle : maps.length ≤ (s.maps config).length
  · cases hold : s.vtp_configs config with
    | none =>
      rw [VTPStore.maps, hold] at hle
      simp only [Option.getD_none, List.length_nil] at hle
      exact .inr (by omega)
    | some m =>
      rw [VTPStore.maps, hold] at hle
      exact .inl ⟨m, rfl, hle⟩
  · exact .inr (by omega)

theorem vtpEntry_eq_config {tok dat config item d : Str}
    (h : vtpEntry old tok dat = some (.config config item d)) :
    vtpToken tok = some (config, item) ∧ config ∈ parse_configs ∧ d = dat := by
  rcases ht : vtpToken tok with _ | ⟨c, i⟩
  · rw [vtpEntry, ht] at h
    cases h
  by_cases hc : c ∈ parse_configs
  · rw [vtpEntry_config ht hc] at h
    cases h
    exact ⟨rfl, hc, rfl⟩
  · obtain ⟨key, values, hother⟩ := vtpEntry_not_config ht hc old dat
    rw [hother] at h
    cases h

end VTPStore

section ReadsNumber

variable {u : Uninit} {s t : ParseState} {lines : List Str} {line config : Str}
  {maps : List (Str → Option (List Rat))} {n : Int}

theorem ReadsNumber.cons (h : Returns (parseLine u line) s () t)
    (hr : ReadsNumber u t lines config maps n) :
    ReadsNumber u s (line :: lines) config maps n := by
  obtain @⟨before, after, l, item, t', rfl, hparsed, harea, htoken, hmem⟩ := hr
  have hbefore : Returns (parseLines u (line :: before)) s () t' := h.bind hparsed
  exact .intro rfl hbefore harea htoken hmem

theorem ReadsNumber.small (hs : s.store.Small) (h : ReadsNumber u s lines config maps n) :
    FitsInt n ∧ maps.length < 2 ^ 31 := by
  obtain ⟨-, hparsed, -, -, -⟩ := h
  have hsmall := hs.lines (returns_parseLines hparsed)
  exact ⟨fitsInt_int hsmall.config_num, hsmall.maps config⟩

theorem length_parseLine (hread : ∀ m n, ReadsNumber u s (line :: lines) config m n → CanCount n)
    (h : Returns (parseLine u line) s () t) (hmaps : t.store.vtp_configs config = some maps) :
    (∃ m, s.store.vtp_configs config = some m ∧ maps.length ≤ m.length) ∨
      ∃ m n, ReadsNumber u s (line :: lines) config m n ∧ (maps.length : Int) ≤ n + 1 := by
  by_cases hcrate : lineTok line = str "VTP_CRATE"
  · unfold parseLine at h
    dsimp only at h
    rw [if_pos hcrate] at h
    obtain rfl := returns_modify.mp h
    exact .inl ⟨maps, hmaps, le_rfl⟩
  obtain ⟨hstep, -⟩ := returns_other_line h hcrate
  cases harea : s.vtp_parse_area with
  | false =>
    rw [harea] at hstep
    obtain hstore : s.store = t.store := by simpa using hstep
    exact .inl ⟨maps, hstore ▸ hmaps, le_rfl⟩
  | true =>
    rw [harea, if_pos rfl] at hstep
    rcases hentry : vtpEntry u.prescale_val (lineTok line) (lineDat line) with
      _ | ⟨c, item, dat⟩ | ⟨key, values⟩
    · rw [hentry] at hstep
      have hstore : s.store = t.store := Option.some.inj hstep
      exact .inl ⟨maps, hstore ▸ hmaps, le_rfl⟩
    · rw [hentry] at hstep
      obtain ⟨htoken, hmem, rfl⟩ := VTPStore.vtpEntry_eq_config hentry
      by_cases hc : config = c
      · subst hc
        have hr : ReadsNumber u s (line :: lines) config (s.store.maps config)
            (IStream.int { rest := lineDat line } s.store.config_num).1 :=
          .intro (List.nil_append (line :: lines)).symm (returns_pure.mpr ⟨rfl, rfl⟩) harea
            htoken hmem
        exact (VTPStore.length_put_config hstep (hread _ _ hr) hmaps).imp_right
          fun hle => ⟨_, _, hr, hle⟩
      · obtain ⟨-, -, -, hother⟩ := VTPStore.maps_put_config hstep
        rw [hother config hc] at hmaps
        exact .inl ⟨maps, hmaps, le_rfl⟩
    · rw [hentry] at hstep
      have hstore := congrArg VTPStore.vtp_configs (Option.some.inj hstep)
      exact .inl ⟨maps, (congrFun hstore config).trans hmaps, le_rfl⟩

theorem length_parseLines (hread : ∀ m n, ReadsNumber u s lines config m n → CanCount n)
    (h : Returns (parseLines u lines) s () t) (hmaps : t.store.vtp_configs config = some maps) :
    (∃ m, s.store.vtp_configs config = some m ∧ maps.length ≤ m.length) ∨
      ∃ m n, ReadsNumber u s lines config m n ∧ (maps.length : Int) ≤ n + 1 := by
  induction lines generalizing s with
  | nil =>
    obtain ⟨-, rfl⟩ := returns_pure.mp h
    exact .inl ⟨maps, hmaps, le_rfl⟩
  | cons line lines ih =>
    obtain ⟨_, r, hline, hlines⟩ := returns_bind.mp h
    obtain ⟨m, hm, hle⟩ | ⟨m, n, hr, hle⟩ := ih (fun m n hr => hread m n (hr.cons hline)) hlines
    · obtain ⟨m', hm', hle'⟩ | ⟨m', n, hr, hle'⟩ := length_parseLine hread hline hm
      · exact .inl ⟨m', hm', hle.trans hle'⟩
      · exact .inr ⟨m', n, hr, by omega⟩
    · exact .inr ⟨m, n, hr.cons hline, hle⟩

end ReadsNumber

/-- The loop pushes no more than the numbers of its lines ask for, and after the parse no
vector is longer than they do. -/
def BoundedConfigs (u : Uninit) (t : TriggerConfig) : Prop :=
  (∀ config maps n, ReadsNumber u { config := t } t.raw_data config maps n →
    (pushed n maps : Int) ≤ max 0 (n + 1 - maps.length)) ∧
  ∀ t', Returns (Parse_raw_data u) t () t' → ∀ config maps, t'.vtp_configs config = some maps →
    ∃ m n, ReadsNumber u { config := t } t.raw_data config m n ∧ (maps.length : Int) ≤ n + 1

theorem Parse_raw_data_bounded_iff (u : Uninit) (t : TriggerConfig)
    (hempty : t.vtp_configs = fun _ => none) :
    BoundedConfigs u t ↔
      ∀ config maps n, ReadsNumber u { config := t } t.raw_data config maps n → CanCount n := by
  have hsmall : (ParseState.store { config := t }).Small := by
    refine ⟨fun config => ?_, (by decide : FitsInt 0)⟩
    rw [VTPStore.maps, ParseState.store, hempty]
    exact (by decide : 0 < 2 ^ 31)
  constructor
  · rintro ⟨hpushed, -⟩ config maps n hr
    obtain ⟨hf, hsize⟩ := hr.small hsmall
    exact (pushed_le_iff hf hsize).mp (hpushed config maps n hr)
  · intro hread
    refine ⟨fun config maps n hr => (pushed_of_canCount (hread config maps n hr)).le, ?_⟩
    intro t' h config maps hmaps
    obtain ⟨s, hs, rfl⟩ := returns_Parse_raw_data.mp h
    obtain ⟨m, hm, -⟩ | hr := length_parseLines (hread config) hs hmaps
    · rw [ParseState.store, hempty] at hm
      cases hm
    · exact hr

def secondLines : List Str := [str "VTP_CRATE all", str "VTP_HPS_SINGLE_EMIN 1 5"]

theorem Parse_raw_data_bounded_secondLines :
    BoundedConfigs ⟨0, 0, 0⟩ { raw_data := secondLines } := by
  refine (Parse_raw_data_bounded_iff _ { raw_data := secondLines } rfl).mpr ?_
  rintro config _ _ @⟨before, after, line, item, t, hsplit, -, -, htoken, hmem⟩
  have hsplit : secondLines = before ++ line :: after := hsplit
  match before, hsplit with
  | [], hsplit =>
    obtain ⟨rfl, -⟩ := List.cons.inj hsplit
    cases htoken
  | [_], hsplit =>
    obtain ⟨rfl, -⟩ := List.cons.inj (List.cons.inj hsplit).2
    rw [int_of_lineNumber (n := 1) (by decide)]
    decide
  | _ :: _ :: before, hsplit =>
    have hlength := congrArg List.length hsplit
    simp [secondLines] at hlength

def negativeLines : List Str := [str "VTP_CRATE all", str "VTP_HPS_SINGLE_EMIN -2"]

theorem Parse_raw_data_unbounded :
    ¬∀ u t, t.vtp_configs = (fun _ => none) → BoundedConfigs u t := by
  intro h
  obtain ⟨hpushed, -⟩ := h ⟨0, 0, 0⟩ { raw_data := negativeLines } rfl
  have hr : ReadsNumber ⟨0, 0, 0⟩ { config := { raw_data := negativeLines } } negativeLines
      (str "SINGLE") [] (-2) :=
    @ReadsNumber.intro _ _ _ _ [str "VTP_CRATE all"] [] (str "VTP_HPS_SINGLE_EMIN -2") (str "EMIN")
      { config := { raw_data := negativeLines }, vtp_parse_area := true } rfl ⟨rfl, rfl⟩ rfl rfl
      (by decide)
  have hle := hpushed _ _ _ hr
  rw [pushed_of_not_canCount (by decide) (by decide)] at hle
  revert hle
  decide

end EvioTool
