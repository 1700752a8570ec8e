import Mathlib.Data.List.TakeWhile
import EvioTool.Laws.ConfigPaths

namespace EvioTool

open Lib Exec TriggerConfig

variable {u : Uninit} {t t' : TriggerConfig} {c : FADC250_crate_t} {k : Int} {es : List Edit}

theorem slots_isSome_iff (h : c.slots k = none) (es : List Edit) :
    ((es.foldl Edit.run c).slots k).isSome ↔ ∃ e ∈ es, e.Names k := by
  have hnamed : (∃ e ∈ es, e.Names k) ↔ since k es ≠ [] := by
    rw [since, ne_eq, List.dropWhile_eq_nil_iff]
    simp
  rw [hnamed]
  obtain hs | ⟨rest, hs⟩ | ⟨e, rest, hs⟩ := since_cases k es
  · simp [slots_of_nil h hs, hs]
  · simp [slots_of_slot h hs, hs]
  · simp [slots_of_own h hs, hs]

theorem get_created_last (h : c.slots k = none) (hall : c.all_slots = {}) (es : List Edit)
    (q : Field) :
    q.get (created k es c) = written (es.map (Edit.value k q)) 0 ↔ ¬Forgotten es k q := by
  rw [← get_created_iff h hall, get_fold (beside_slotOf k).sized', get_slotOf]

/-- Every slot has in each field what the last line for it says, or 0. -/
def TriggerConfig.LastWins (u : Uninit) (lines : List Str) (t : TriggerConfig) : Prop :=
  ∀ c k s, (t.crates.getD c {}).slots k = some s →
    ∀ q : Field, q.get s = written ((crateEdits u lines c).map (Edit.value k q)) 0

/-- The last line wins in all slots exactly when none of them has forgotten a field: it was
set for all slots before, and the slot came into being without a `FADC250_SLOT` line. -/
theorem Parse_raw_data_lastWins_iff (u : Uninit) (t t' : TriggerConfig) (hcrates : t.crates = [])
    (h : Returns (Parse_raw_data u) t () t') :
    t'.LastWins u t.raw_data ↔
      ∀ c k, (∃ e ∈ crateEdits u t.raw_data c, e.Names k) →
        ∀ q, ¬Forgotten (crateEdits u t.raw_data c) k q := by
  have hempty (c : Nat) : t.crateAt c = { crate := c } := by
    rw [crateAt, hcrates]
    rfl
  have hsized : t.Sized := fun c => hempty c ▸ FADC250_crate_t.sized_empty c
  refine forall_congr' fun c => forall_congr' fun k => ?_
  have hnone : ({ crate := c } : FADC250_crate_t).slots k = none := rfl
  have hcrate : t'.crateAt c = (crateEdits u t.raw_data c).foldl Edit.run { crate := c } := by
    rw [crateAt_Parse_raw_data hsized h, hempty]
  have hslots : (t'.crates.getD c {}).slots k =
      ((crateEdits u t.raw_data c).foldl Edit.run { crate := c }).slots k :=
    congrFun (congrArg FADC250_crate_t.slots hcrate) k
  rw [← slots_isSome_iff hnone, hslots]
  have hlast := get_created_last hnone rfl (crateEdits u t.raw_data c)
  unfold created at hlast
  cases hs : ((crateEdits u t.raw_data c).foldl Edit.run { crate := c }).slots k with
  | none => simp
  | some s =>
    rw [hs] at hlast
    simpa using forall_congr' hlast

theorem Parse_raw_data_lastWins_slotLines :
    (Parse_raw_data ⟨0, 0, 0⟩ { raw_data := rawLines slotLines }).state.LastWins ⟨0, 0, 0⟩
      (rawLines slotLines) :=
  (Parse_raw_data_lastWins_iff ⟨0, 0, 0⟩ { raw_data := rawLines slotLines } _ rfl ⟨rfl, rfl⟩).mpr
    fun c k _ q => not_forgotten_slotLines ⟨0, 0, 0⟩ c k q

def otherCrateLines : List Str :=
  [str "FADC250_CRATE hps2", str "FADC250_NSB 3", str "FADC250_CRATE hps1", str "FADC250_SLOT 5",
    str "FADC250_CRATE hps2", str "FADC250_NSA 4"]

set_option maxRecDepth 10000 in
theorem Parse_raw_data_forgets :
    ¬∀ u t t', t.crates = [] → Returns (Parse_raw_data u) t () t' → t'.LastWins u t.raw_data := by
  intro h
  have hlast := h ⟨0, 0, 0⟩ { raw_data := otherCrateLines } _ rfl ⟨rfl, rfl⟩ 2 5
  have hslot : ∃ s, ((Parse_raw_data ⟨0, 0, 0⟩
      { raw_data := otherCrateLines }).state.crates.getD 2 {}).slots 5 = some s ∧ s.NSB = 0 :=
    ⟨_, rfl, rfl⟩
  obtain ⟨s, hs, hNSB⟩ := hslot
  have hthree : s.NSB = 3 := hlast s hs .NSB
  omega

end EvioTool
