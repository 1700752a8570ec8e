import Mathlib.Data.Set.Basic

/-! Selection with a dead time: a point that is selected hides the `w` positions from it on. -/

namespace EvioTool.Lib

/-- `R` is what is selected of the points `P`. -/
structure DeadTime (P : Set Nat) (w : Nat) (R : Set Nat) : Prop where
  subset : R ⊆ P
  apart : ∀ c ∈ R, ∀ d ∈ R, c < d → c + w ≤ d
  covers : ∀ j ∈ P, ∃ c ∈ R, c ≤ j ∧ j < c + w

namespace DeadTime

variable {P R S : Set Nat} {w j : Nat}

theorem mem_of_mem (h : DeadTime P w R) (h' : DeadTime P w S) (ih : ∀ c < j, c ∈ S → c ∈ R)
    (hj : j ∈ R) : j ∈ S := by
  obtain ⟨c, hc, hcj, hlt⟩ := h'.covers j (h.subset hj)
  rcases Nat.eq_or_lt_of_le hcj with rfl | hcj
  · exact hc
  · have := h.apart c (ih c hcj hc) j hj hcj
    omega

theorem unique (h : DeadTime P w R) (h' : DeadTime P w S) : R = S := by
  ext j
  induction j using Nat.strong_induction_on with
  | h j ih =>
    constructor
    · exact h.mem_of_mem h' fun c hc => (ih c hc).mpr
    · exact h'.mem_of_mem h fun c hc => (ih c hc).mp

end DeadTime

/-- A scan of the positions from `i` up to `n` that goes on `w` positions after each
point found. -/
inductive Scan (P : Nat → Prop) (n w : Nat) : Nat → List Nat → Prop
  | stop : n ≤ i → Scan P n w i []
  | pass : i < n → ¬P i → Scan P n w (i + 1) l → Scan P n w i l
  | find : i < n → P i → Scan P n w (i + w) l → Scan P n w i (i :: l)

namespace Scan

variable {P : Nat → Prop} {n w i c : Nat} {l : List Nat}

theorem exists_of_pos (hw : 0 < w) (i : Nat) : ∃ l, Scan P n w i l := by
  classical
  induction hk : n - i using Nat.strong_induction_on generalizing i with
  | h k ih =>
    by_cases hi : i < n
    · by_cases hP : P i
      · obtain ⟨l, hl⟩ := ih (n - (i + w)) (by omega) (i + w) rfl
        exact ⟨i :: l, .find hi hP hl⟩
      · obtain ⟨l, hl⟩ := ih (n - (i + 1)) (by omega) (i + 1) rfl
        exact ⟨l, .pass hi hP hl⟩
    · exact ⟨[], .stop (by omega)⟩

theorem nil_of_none (h : ∀ j, i ≤ j → j < n → ¬P j) : Scan P n w i [] := by
  induction hk : n - i generalizing i with
  | zero => exact .stop (by omega)
  | succ k ih =>
    have hn : ∀ j, i + 1 ≤ j → j < n → ¬P j := fun j hj => h j (by omega)
    exact .pass (by omega) (h i le_rfl (by omega)) (ih hn (by omega))

theorem bounds (h : Scan P n w i l) : ∀ c ∈ l, i ≤ c ∧ c < n ∧ P c := by
  induction h with
  | stop _ => exact fun c hc => (List.not_mem_nil hc).elim
  | pass _ _ _ ih =>
    intro c hc
    obtain ⟨hle, hrest⟩ := ih c hc
    exact ⟨by omega, hrest⟩
  | find hi hP _ ih =>
    intro c hc
    rcases List.mem_cons.mp hc with rfl | hc
    · exact ⟨le_rfl, hi, hP⟩
    · obtain ⟨hle, hrest⟩ := ih c hc
      exact ⟨by omega, hrest⟩

theorem pairwise (h : Scan P n w i l) : l.Pairwise fun c d => c + w ≤ d := by
  induction h with
  | stop _ => exact .nil
  | pass _ _ _ ih => exact ih
  | find _ _ hl ih => exact .cons (fun d hd => (hl.bounds d hd).1) ih

theorem increasing (h : Scan P n w i l) (hw : 0 < w) : l.Pairwise (· < ·) :=
  h.pairwise.imp fun hle => by omega

theorem covers (h : Scan P n w i l) :
    ∀ j, i ≤ j → j < n → P j → ∃ c ∈ l, c ≤ j ∧ j < c + w := by
  induction h with
  | stop hi => exact fun j hj hn => (by omega : False).elim
  | @pass i _ hi hP _ ih =>
    intro j hj hn hPj
    have hne : i ≠ j := by
      rintro rfl
      exact hP hPj
    exact ih j (by omega) hn hPj
  | @find i _ hi hP _ ih =>
    intro j hj hn hPj
    by_cases hlt : j < i + w
    · exact ⟨i, List.mem_cons_self, hj, hlt⟩
    · obtain ⟨c, hc, hcj⟩ := ih j (by omega) hn hPj
      exact ⟨c, List.mem_cons_of_mem _ hc, hcj⟩

theorem apart (h : Scan P n w i l) : ∀ c ∈ l, ∀ d ∈ l, c < d → c + w ≤ d := by
  induction h with
  | stop _ => exact fun c hc => (List.not_mem_nil hc).elim
  | pass _ _ _ ih => exact ih
  | @find i l _ _ hl ih =>
    intro c hc d hd hlt
    rcases List.mem_cons.mp hc with rfl | hcl <;> rcases List.mem_cons.mp hd with rfl | hdl
    · exact (lt_irrefl _ hlt).elim
    · exact (hl.bounds d hdl).1
    · have := (hl.bounds c hcl).1
      omega
    · exact ih c hcl d hdl hlt

theorem deadTime (h : Scan P n w i l) : DeadTime {j | i ≤ j ∧ j < n ∧ P j} w {c | c ∈ l} where
  subset := h.bounds
  apart := h.apart
  covers := fun j hj => h.covers j hj.1 hj.2.1 hj.2.2

theorem ne_nil (h : Scan P n w i l) (hi : i ≤ c) (hn : c < n) (hP : P c) : l ≠ [] := by
  obtain ⟨d, hd, -⟩ := h.covers c hi hn hP
  exact List.ne_nil_of_mem hd

theorem exists_of_ne_nil (h : Scan P n w i l) (hl : l ≠ []) : ∃ c, i ≤ c ∧ c < n ∧ P c := by
  obtain ⟨c, hc⟩ := List.exists_mem_of_ne_nil l hl
  exact ⟨c, h.bounds c hc⟩

end Scan

end EvioTool.Lib
