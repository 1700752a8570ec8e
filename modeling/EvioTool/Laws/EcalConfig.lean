import EvioTool.Defs.EcalConfig
import EvioTool.Laws.VTPStore

namespace EvioTool

open Lib Exec TriggerConfig

theorem hasInt_iff {values : Option (List Rat)} :
    HasInt values ↔ ∃ x xs n, values = some (x :: xs) ∧ truncInt x = some n := by
  simp only [HasInt, Option.ne_none_iff_exists']
  constructor
  · rintro ⟨x, xs, h, n, hn⟩
    exact ⟨x, xs, n, h, hn⟩
  · rintro ⟨x, xs, n, h, hn⟩
    exact ⟨x, xs, h, n, hn⟩

namespace ConfiguredEcal

section First

variable {b b' : ConfiguredEcal} {t : TriggerConfig} {key : Str} {n : Int}

theorem returns_vectorAt {σ α : Type} {xs : List α} {i : Nat} {s t : σ} {x : α} :
    Returns (vectorAt xs i : Exec Halt Access σ α) s x t ↔ xs[i]? = some x ∧ t = s := by
  simp [vectorAt]

theorem returns_first (hb : b.DAQconfig = some t) :
    Returns (first key) b n b' ↔
      ∃ x xs, t.vtp_other key = some (x :: xs) ∧ truncInt x = some n ∧ b' = b := by
  have hself : { b with DAQconfig := some t } = b := by rw [← hb]
  constructor
  · intro h
    obtain ⟨values, b₁, hvalues, hat⟩ := returns_bind.mp h
    obtain ⟨x, b₂, hvector, hdemand⟩ := returns_bind.mp hat
    obtain ⟨hx, rfl⟩ := returns_vectorAt.mp hvector
    obtain ⟨hn, rfl⟩ := returns_demand.mp hdemand
    obtain ⟨t₁, t₂, ht₁, hother, rfl⟩ := returns_zoom.mp hvalues
    obtain rfl : t = t₁ := Option.some.inj (hb.symm.trans ht₁)
    obtain ⟨_, t₃, h₃, hget⟩ := returns_bind.mp hother
    obtain rfl := returns_modify.mp h₃
    obtain ⟨rfl, rfl⟩ := returns_gets.mp hget
    cases hkey : t.vtp_other key with
    | none => simp [hkey, setOther] at hx
    | some values =>
      simp only [hkey, Option.isSome_some, if_true, Option.getD_some] at hx ⊢
      cases values with
      | nil => cases hx
      | cons y ys =>
        cases hx
        exact ⟨x, ys, rfl, hn, hself⟩
  · rintro ⟨x, xs, hkey, hn, rfl⟩
    have hvalues : Returns (zoom DAQconfig (fun t b => { b with DAQconfig := some t }) .undefined
        (vtpOther key) : Exec Halt Access ConfiguredEcal _) b' (x :: xs) b' := by
      refine returns_zoom.mpr ⟨t, t, hb, ?_, hself.symm⟩
      simp [vtpOther, hkey]
    exact hvalues.bind ((returns_vectorAt.mpr ⟨rfl, rfl⟩).bind (returns_demand.mpr ⟨hn, rfl⟩))

theorem logs_first (h : Returns (first key) b n b') : Logs Access.InRange (first key) b := by
  obtain ⟨values, b₁, hvalues, h⟩ := returns_bind.mp h
  obtain ⟨x, b₂, hx, h⟩ := returns_bind.mp h
  refine hvalues.logs_bind.mpr ⟨?_, hx.logs_bind.mpr ⟨?_, logs_demand⟩⟩
  · exact Logs.zoom fun t => logs_modify.bind fun _ _ _ => logs_gets
  · refine (logs_tell.mpr ?_).bind fun _ _ _ => logs_demand
    obtain ⟨hx, -⟩ := returns_vectorAt.mp hx
    exact (List.getElem?_eq_some_iff.mp hx).1

end First

section Config

variable {b b' : ConfiguredEcal} {t : TriggerConfig}

theorem Config_apply (hb : b.DAQconfig = some t) (h : t.vtp_other SEED_THR ≠ none) :
    Config b = ((do
      let cluster_seed_thresh ← first SEED_THR
      modify fun b => { b with cluster_seed_thresh }
      let cluster_hit_dt ← first HIT_DT
      modify fun b => { b with cluster_hit_dt }
      modify fun b => { b with is_configured := true }) : Exec Halt Access ConfiguredEcal Unit) b := by
  obtain ⟨bank, config, is_configured⟩ := b
  obtain rfl : config = some t := hb
  unfold Config
  rw [gets_bind_apply]
  dsimp only
  cases hseed : t.vtp_other SEED_THR with
  | none => exact (h hseed).elim
  | some _ => rfl

theorem Config_of_missing (hb : b.DAQconfig = some t) (h : t.vtp_other SEED_THR = none) :
    Config b = ⟨.ok (), { b with is_configured := false }, []⟩ := by
  obtain ⟨bank, config, is_configured⟩ := b
  obtain rfl : config = some t := hb
  unfold Config
  rw [gets_bind_apply]
  dsimp only
  rw [h]
  rfl

theorem Config_iff (hb : b.DAQconfig = some t) :
    (∃ b', WellConfigured b t b') ↔
      t.vtp_other SEED_THR = none ∨ HasInt (t.vtp_other SEED_THR) ∧ HasInt (t.vtp_other HIT_DT) := by
  by_cases hseed : t.vtp_other SEED_THR = none
  · refine iff_of_true ?_ (.inl hseed)
    have happly := Config_of_missing hb hseed
    refine ⟨{ b with is_configured := false }, ⟨?_, ?_⟩, ?_, ⟨t, hb, fun _ => rfl⟩, .inl rfl⟩
    · rw [happly]
    · rw [happly]
    · intro a ha
      rw [happly] at ha
      cases ha
  have happly := Config_apply hb hseed
  simp only [hseed, false_or]
  constructor
  · rintro ⟨b', hreturns, -, -, -⟩
    rw [Returns, happly] at hreturns
    obtain ⟨n, b₁, hn, h₁⟩ := returns_bind.mp hreturns
    obtain ⟨x, xs, hx, htx, rfl⟩ := (returns_first hb).mp hn
    obtain ⟨_, b₂, hb₂, h₂⟩ := returns_bind.mp h₁
    obtain rfl := returns_modify.mp hb₂
    obtain ⟨m, b₃, hm, -⟩ := returns_bind.mp h₂
    have hb' : ({ b₁ with cluster_seed_thresh := n } : ConfiguredEcal).DAQconfig = some t := hb
    obtain ⟨y, ys, hy, hty, -⟩ := (returns_first hb').mp hm
    exact ⟨hasInt_iff.mpr ⟨x, xs, n, hx, htx⟩, hasInt_iff.mpr ⟨y, ys, m, hy, hty⟩⟩
  · rintro ⟨hthr, hdt⟩
    obtain ⟨x, xs, n, hx, htx⟩ := hasInt_iff.mp hthr
    obtain ⟨y, ys, m, hy, hty⟩ := hasInt_iff.mp hdt
    have hn : Returns (first SEED_THR) b n b := (returns_first hb).mpr ⟨x, xs, hx, htx, rfl⟩
    have hb' : ({ b with cluster_seed_thresh := n } : ConfiguredEcal).DAQconfig = some t := hb
    have hm : Returns (first HIT_DT) { b with cluster_seed_thresh := n } m
        { b with cluster_seed_thresh := n } := (returns_first hb').mpr ⟨y, ys, hy, hty, rfl⟩
    refine ⟨{ b with cluster_seed_thresh := n, cluster_hit_dt := m, is_configured := true }, ?_, ?_,
      ⟨t, hb, fun _ => rfl⟩, .inr ⟨x, xs, y, ys, hx, hy, htx, hty, rfl⟩⟩
    · have hmodify (f : ConfiguredEcal → ConfiguredEcal) (b : ConfiguredEcal) :
          Returns (modify f : Exec Halt Access ConfiguredEcal Unit) b () (f b) := ⟨rfl, rfl⟩
      rw [Returns, happly]
      exact hn.bind ((hmodify _ _).bind (hm.bind ((hmodify _ _).bind (hmodify _ _))))
    · unfold Logs
      rw [happly]
      refine hn.logs_bind.mpr ⟨logs_first hn, logs_modify.bind fun _ b₁ hb₁ => ?_⟩
      obtain rfl := returns_modify.mp hb₁
      exact hm.logs_bind.mpr ⟨logs_first hm, logs_modify.bind fun _ _ _ => logs_modify⟩

end Config

end ConfiguredEcal

section Keys

variable {tok dat config item : Str}

theorem not_mem_of_find {s : Str} {c : UInt8} {k : Nat} (h : Str.find s c k = none) :
    c ∉ s.drop k := by
  intro hc
  have hnone := List.findIdx?_eq_none_iff.mp (Option.map_eq_none_iff.mp h) c hc
  simp at hnone

theorem not_mem_take_of_find {s : Str} {c : UInt8} {k pos : Nat} (h : Str.find s c k = some pos) :
    c ∉ (s.drop k).take (pos - k) := by
  obtain ⟨i, hi, rfl⟩ := Option.map_eq_some_iff.mp h
  obtain ⟨hlt, -, hbefore⟩ := List.findIdx?_eq_some_iff_getElem.mp hi
  intro hc
  obtain ⟨j, hj, hjc⟩ := List.mem_iff_getElem.mp hc
  have hji : j < i := by
    rw [List.length_take] at hj
    omega
  have hne := hbefore j hji
  rw [List.getElem_take] at hjc
  simp [hjc] at hne

theorem not_mem_config (h : vtpToken tok = some (config, item)) : 95 ∉ config.tail := by
  unfold vtpToken at h
  split at h
  · cases hfind : Str.find tok 95 9 with
    | none =>
      rw [hfind] at h
      cases h
      rw [List.tail_drop]
      exact not_mem_of_find hfind
    | some pos =>
      rw [hfind] at h
      cases h
      have hnot := not_mem_take_of_find hfind
      rwa [← List.drop_one, List.drop_take, List.drop_drop]
  · cases h

theorem vtpToken_ecal (item : Str) :
    vtpToken (str "VTP_HPS_" ++ (str "ECAL_" ++ item)) = some (str "ECAL", item) := rfl

theorem append_cons_cancel {a b x y : Str} {c : UInt8} (ha : c ∉ a) (hb : c ∉ b)
    (h : a ++ c :: x = b ++ c :: y) : a = b ∧ x = y := by
  have htake {l r : Str} (hl : c ∉ l) : (l ++ c :: r).takeWhile (· ≠ c) = l := by
    rw [List.takeWhile_append_of_pos]
    · simp
    · intro d hd
      exact decide_eq_true fun hdc => hl (hdc ▸ hd)
  obtain rfl : a = b := by rw [← htake (r := x) ha, h, htake hb]
  exact ⟨rfl, (List.cons.inj (List.append_cancel_left h)).2⟩

theorem eq_of_key (h : vtpToken tok = some (config, item)) {i : Str}
    (hkey : config ++ str "_" ++ item = str "ECAL_" ++ i) : config = str "ECAL" ∧ item = i := by
  have hnot := not_mem_config h
  rw [List.append_assoc] at hkey
  cases config with
  | nil => cases hkey
  | cons c config =>
    have hcons : c :: (config ++ 95 :: item) = 69 :: (str "CAL" ++ 95 :: i) := hkey
    obtain ⟨rfl, hrest⟩ := List.cons.inj hcons
    obtain ⟨rfl, hitem⟩ := append_cons_cancel hnot (by decide) hrest
    exact ⟨rfl, hitem⟩

theorem key_of_vtpEntry {old : Rat} {key : Str} {values : List Rat} {i : Str}
    (h : vtpToken tok = some (config, item))
    (hentry : vtpEntry old tok dat = some (.other key values)) (hkey : key = str "ECAL_" ++ i) :
    config = str "ECAL" ∧ item = i := by
  unfold vtpEntry at hentry
  rw [h] at hentry
  dsimp only [Option.map_some] at hentry
  split at hentry
  · unfold feeEntry at hentry
    dsimp only at hentry
    split at hentry
    · cases hentry
      cases hkey
    · cases hentry
      cases hkey
  split at hentry
  · rename_i hprescale
    subst hprescale
    cases hentry
    cases hkey
  split at hentry
  · cases hentry
  · cases hentry
    exact eq_of_key h hkey

theorem otherValue_ecal (old : Rat) {i : Str} (hi : i ≠ []) (line : Str) :
    otherValue old (str "ECAL_" ++ i) line =
      if lineTok line = str "VTP_HPS_" ++ (str "ECAL_" ++ i) then
        some (IStream.doubles { rest := lineDat line })
      else none := by
  unfold otherValue
  by_cases htok : vtpToken (lineTok line) = some (str "ECAL", i)
  · have hentry : vtpEntry old (lineTok line) (lineDat line) =
        some (.other (str "ECAL_" ++ i) (IStream.doubles { rest := lineDat line })) := by
      unfold vtpEntry
      rw [htok]
      rfl
    have htext : lineTok line = str "VTP_HPS_" ++ (str "ECAL_" ++ i) := eq_of_vtpToken hi htok
    rw [hentry, if_pos htext]
    exact if_pos rfl
  · rw [if_neg fun h => htok (by rw [h, vtpToken_ecal])]
    rcases ht : vtpToken (lineTok line) with _ | ⟨config, item⟩
    · rw [vtpEntry, ht]
      rfl
    split
    · rename_i key values hentry
      apply if_neg
      intro hkey
      obtain ⟨rfl, rfl⟩ := key_of_vtpEntry ht hentry hkey
      exact htok ht
    · rfl

end Keys

section Lines

variable {u : Uninit} {t t' : TriggerConfig} {i : Str}

theorem vtp_other_ecal (hi : i ≠ []) (h : Returns (Parse_raw_data u) t () t') :
    t'.vtp_other (str "ECAL_" ++ i) =
      ecalLines (str "ECAL_" ++ i) t.raw_data (t.vtp_other (str "ECAL_" ++ i)) := by
  obtain ⟨s, hs, rfl⟩ := returns_Parse_raw_data.mp h
  have hother := VTPStore.vtp_other_lines (str "ECAL_" ++ i) (returns_parseLines hs)
  refine hother.trans (congrArg (written · _) (List.map_congr_left fun line _ => ?_))
  rw [otherValue_ecal _ hi]
  split <;> rfl

/-- The configuration is good when no line has a threshold, or the last line for each key has
a number in the range of an `int`; nothing less is. -/
theorem Parse_raw_data_Config_iff (u : Uninit) (t t' : TriggerConfig) (b : ConfiguredEcal)
    (h : Returns (Parse_raw_data u) t () t') (hb : b.DAQconfig = some t') :
    (∃ b', b.WellConfigured t' b') ↔
      ecalLines ConfiguredEcal.SEED_THR t.raw_data (t.vtp_other ConfiguredEcal.SEED_THR) = none ∨
      HasInt (ecalLines ConfiguredEcal.SEED_THR t.raw_data (t.vtp_other ConfiguredEcal.SEED_THR)) ∧
      HasInt (ecalLines ConfiguredEcal.HIT_DT t.raw_data (t.vtp_other ConfiguredEcal.HIT_DT)) := by
  have hseed := vtp_other_ecal (i := str "CLUSTER_SEED_THR") (by decide) h
  have hdt := vtp_other_ecal (i := str "CLUSTER_HIT_DT") (by decide) h
  rw [ConfiguredEcal.Config_iff hb]
  exact hseed ▸ hdt ▸ Iff.rfl

def ecalConfigLines : List Str :=
  [str "VTP_CRATE all", str "VTP_HPS_ECAL_CLUSTER_SEED_THR 100", str "VTP_HPS_ECAL_CLUSTER_HIT_DT 16"]

theorem Parse_raw_data_Config_ecalConfigLines : ∃ t' b', Returns (Parse_raw_data ⟨0, 0, 0⟩)
    { raw_data := ecalConfigLines } () t' ∧
    ConfiguredEcal.WellConfigured { hitmap := ⟨[], .nil, nofun⟩, DAQconfig := some t' } t' b' := by
  have h := returns_of_isOk (m := Parse_raw_data ⟨0, 0, 0⟩) (s := { raw_data := ecalConfigLines })
    (by decide +kernel)
  obtain ⟨b', hb'⟩ := (Parse_raw_data_Config_iff _ _ _
    { hitmap := ⟨[], .nil, nofun⟩, DAQconfig := some _ } h rfl).mpr
    (.inr ⟨⟨100, [], by decide +kernel, by decide +kernel⟩,
      ⟨16, [], by decide +kernel, by decide +kernel⟩⟩)
  exact ⟨_, b', h, hb'⟩

def seedLines : List Str := [str "VTP_CRATE all", str "VTP_HPS_ECAL_CLUSTER_SEED_THR 100"]

theorem Parse_raw_data_Config_seedLines :
    ¬∀ u t t' (b : ConfiguredEcal), Returns (Parse_raw_data u) t () t' → b.DAQconfig = some t' →
      ∃ b', b.WellConfigured t' b' := by
  intro hall
  have h := returns_of_isOk (m := Parse_raw_data ⟨0, 0, 0⟩) (s := { raw_data := seedLines })
    (by decide +kernel)
  have hb := hall _ _ _ { hitmap := ⟨[], .nil, nofun⟩, DAQconfig := some _ } h rfl
  rw [ConfiguredEcal.Config_iff rfl] at hb
  have hseed := vtp_other_ecal (i := str "CLUSTER_SEED_THR") (by decide) h
  have hdt := vtp_other_ecal (i := str "CLUSTER_HIT_DT") (by decide) h
  obtain hnone | ⟨-, x, xs, hsome, -⟩ := hb
  · have hne : ecalLines ConfiguredEcal.SEED_THR seedLines none ≠ none := by decide +kernel
    exact hne (hseed.symm.trans hnone)
  · have hnone : ecalLines ConfiguredEcal.HIT_DT seedLines none = none := by decide +kernel
    cases (hsome.symm.trans hdt).trans hnone

end Lines

end EvioTool
