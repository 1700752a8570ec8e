import Mathlib.Algebra.Order.Ring.Int
import EvioTool.Lib.Exec

/-! Accesses that move forward: each one starts where the one before it ended, or later. -/

namespace EvioTool.Lib

/-- The spans lie one behind the other between `lo` and `hi`. -/
inductive Forward : Int → Int → List (Int × Int) → Prop
  | nil {lo hi} : lo ≤ hi → Forward lo hi []
  | cons {lo hi a b l} : lo ≤ a → a ≤ b → Forward b hi l → Forward lo hi ((a, b) :: l)

namespace Forward

variable {lo lo' hi hi' : Int} {l l' : List (Int × Int)}

theorem le (h : Forward lo hi l) : lo ≤ hi := by
  induction h with
  | nil h => exact h
  | cons hlo hab _ ih => exact hlo.trans (hab.trans ih)

theorem of_le (hlo : lo ≤ lo') (h : Forward lo' hi l) : Forward lo hi l := by
  cases h with
  | nil h => exact .nil (hlo.trans h)
  | cons ha hab h => exact .cons (hlo.trans ha) hab h

theorem append (h : Forward lo hi l) (hle : hi ≤ lo') (h' : Forward lo' hi' l') :
    Forward lo hi' (l ++ l') := by
  induction h with
  | nil h => exact h'.of_le (h.trans hle)
  | cons hlo hab _ ih => exact .cons hlo hab (ih hle)

theorem bounds (h : Forward lo hi l) : ∀ p ∈ l, lo ≤ p.1 ∧ p.2 ≤ hi := by
  induction h with
  | nil => exact fun _ hp => absurd hp List.not_mem_nil
  | @cons lo hi a b l hlo hab hrest ih =>
    intro p hp
    obtain rfl | hp := List.mem_cons.mp hp
    · exact ⟨hlo, hrest.le⟩
    · exact ⟨hlo.trans (hab.trans (ih p hp).1), (ih p hp).2⟩

theorem until_ (h : Forward lo hi l) (hle : lo ≤ hi') (hl : ∀ p ∈ l, p.2 ≤ hi') :
    Forward lo hi' l := by
  induction h with
  | nil _ => exact .nil hle
  | cons hlo hab _ ih =>
    refine .cons hlo hab (ih (hl _ List.mem_cons_self) fun p hp => ?_)
    exact hl p (List.mem_cons_of_mem _ hp)

end Forward

namespace Exec

variable {ε ω σ τ α β : Type}

/-- The accesses that are logged from `s` on move forward from `lo` on, and those of a run
that returns end before `next`. -/
def Moves (span : ω → Option (Int × Int)) (lo : Int) (next : α → Int) (m : Exec ε ω σ α) (s : σ) :
    Prop :=
  ∃ hi, Forward lo hi ((m s).log.filterMap span) ∧ ∀ a t, Returns m s a t → hi ≤ next a

section Moves

variable {span : ω → Option (Int × Int)} {lo hi : Int} {m : Exec ε ω σ α} {f : α → Exec ε ω σ β}
  {s : σ} {e : ε}

theorem moves_pure {next : α → Int} {a : α} (h : lo ≤ next a) :
    Moves span lo next (pure a : Exec ε ω σ α) s := by
  refine ⟨lo, .nil le_rfl, fun b t hr => ?_⟩
  obtain ⟨rfl, -⟩ := returns_pure.mp hr
  exact h

theorem moves_halt {next : α → Int} : Moves span lo next (halt e : Exec ε ω σ α) s :=
  ⟨lo, .nil le_rfl, fun _ _ hr => absurd hr returns_halt⟩

theorem moves_tell {next : Unit → Int} {w : ω} {a b : Int} (hw : span w = some (a, b)) (hlo : lo ≤ a)
    (hab : a ≤ b) (hnext : b ≤ next ()) : Moves span lo next (tell w : Exec ε ω σ Unit) s := by
  refine ⟨b, ?_, fun _ _ _ => hnext⟩
  rw [tell_apply, List.filterMap_cons, hw]
  exact .cons hlo hab (.nil le_rfl)

theorem Moves.bind {mid : α → Int} {next : β → Int} (hm : Moves span lo mid m s)
    (hf : ∀ a t, Returns m s a t → Moves span (mid a) next (f a) t) :
    Moves span lo next (m >>= f) s := by
  obtain ⟨hi, hlog, hret⟩ := hm
  cases ho : (m s).out with
  | error e =>
    refine ⟨hi, ?_, fun b u hr => ?_⟩
    · rw [bind_of_error ho]
      exact hlog
    · rw [Returns, bind_of_error ho] at hr
      cases hr.1
  | ok a =>
    have ha : Returns m s a (m s).state := ⟨ho, rfl⟩
    obtain ⟨hi', hlog', hret'⟩ := hf a _ ha
    refine ⟨hi', ?_, fun b u hr => ?_⟩
    · rw [bind_of_ok ho, List.filterMap_append]
      exact hlog.append (hret a _ ha) hlog'
    · obtain ⟨a', t, ha', hb⟩ := returns_bind.mp hr
      obtain ⟨rfl, rfl⟩ := ha.det ha'
      exact hret' b u hb

theorem Moves.of_logs (h : Logs (fun w => span w = none) m s) : Moves span lo (fun _ => lo) m s := by
  refine ⟨lo, ?_, fun _ _ _ => le_rfl⟩
  rw [List.filterMap_eq_nil_iff.mpr h]
  exact .nil le_rfl

def Climbs (span : ω → Option (Int × Int)) (lo : Int) (m : Exec ε ω σ α) (s : σ) : Prop :=
  ∃ hi, Forward lo hi ((m s).log.filterMap span)

theorem Climbs.of_logs (h : Logs (fun w => span w = none) m s) : Climbs span lo m s := by
  refine ⟨lo, ?_⟩
  rw [List.filterMap_eq_nil_iff.mpr h]
  exact .nil le_rfl

theorem Climbs.of_le {lo' : Int} (hle : lo ≤ lo') (h : Climbs span lo' m s) : Climbs span lo m s :=
  h.imp fun _ h => h.of_le hle

theorem Moves.then {mid : α → Int} (hm : Moves span lo mid m s)
    (hf : ∀ a t, Returns m s a t → Climbs span (mid a) (f a) t) : Climbs span lo (m >>= f) s := by
  obtain ⟨hi, hlog, hret⟩ := hm
  cases ho : (m s).out with
  | error e =>
    rw [Climbs, bind_of_error ho]
    exact ⟨hi, hlog⟩
  | ok a =>
    have ha : Returns m s a (m s).state := ⟨ho, rfl⟩
    obtain ⟨hi', hlog'⟩ := hf a _ ha
    rw [Climbs, bind_of_ok ho, List.filterMap_append]
    exact ⟨hi', hlog.append (hret a _ ha) hlog'⟩

theorem Climbs.quiet (hm : Climbs span lo m s)
    (hf : ∀ a t, Returns m s a t → Logs (fun w => span w = none) (f a) t) :
    Climbs span lo (m >>= f) s := by
  obtain ⟨hi, hlog⟩ := hm
  cases ho : (m s).out with
  | error e =>
    rw [Climbs, bind_of_error ho]
    exact ⟨hi, hlog⟩
  | ok a =>
    have hnone : (f a (m s).state).log.filterMap span = [] :=
      List.filterMap_eq_nil_iff.mpr (hf a _ ⟨ho, rfl⟩)
    rw [Climbs, bind_of_ok ho, List.filterMap_append, hnone, List.append_nil]
    exact ⟨hi, hlog⟩

end Moves

end Exec

end EvioTool.Lib
