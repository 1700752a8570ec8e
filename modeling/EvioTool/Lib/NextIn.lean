import Mathlib.Data.List.Pairwise
import Mathlib.Order.Bounds.Basic
import Mathlib.Order.Interval.Set.Defs

/-! Going through a part of a linear order from one of its elements to the next. -/

namespace EvioTool.Lib

variable {α : Type} [LinearOrder α] {S T : Set α} {a b c e : α} {l : List α}

/-- `b` is the first element of `S` behind `a`. -/
def NextIn (S : Set α) (a b : α) : Prop := IsLeast (S ∩ Set.Ioi a) b

namespace NextIn

theorem mem (h : NextIn S a b) : b ∈ S := h.1.1

theorem lt (h : NextIn S a b) : a < b := h.1.2

theorem le (h : NextIn S a b) (hc : c ∈ S) (hlt : a < c) : b ≤ c := h.2 ⟨hc, hlt⟩

theorem lt_iff (h : NextIn S a b) (hc : c ∈ S) : a < c ↔ b ≤ c :=
  ⟨h.le hc, h.lt.trans_le⟩

theorem of_mem (h : NextIn T a b) (hST : S ⊆ T) (hb : b ∈ S) : NextIn S a b :=
  ⟨⟨hb, h.lt⟩, fun _ hc => h.le (hST hc.1) hc.2⟩

theorem skip (h : NextIn T a b) (hST : S ⊆ T) (hb : b ∉ S) (hc : NextIn S b c) : NextIn S a c := by
  refine ⟨⟨hc.mem, h.lt.trans hc.lt⟩, fun d hd => hc.le hd.1 ?_⟩
  refine (h.le (hST hd.1) hd.2).lt_of_ne ?_
  rintro rfl
  exact hb hd.1

end NextIn

/-- The elements that are passed on the way from `a` to `e`, which itself is not one of them.  The
first need not be in `S`. -/
inductive Walk (S : Set α) (e : α) : α → List α → Prop
  | done : Walk S e e []
  | step {a b : α} {l : List α} : a ≠ e → NextIn S a b → Walk S e b l → Walk S e a (a :: l)

namespace Walk

theorem mem_iff (h : Walk S e a l) (he : e ∈ S) (hae : a ≤ e) :
    c ∈ l ↔ (c = a ∨ c ∈ S ∧ a < c) ∧ c < e := by
  induction h with
  | done =>
    refine iff_of_false List.not_mem_nil ?_
    rintro ⟨rfl | ⟨-, hlt⟩, hce⟩
    · exact lt_irrefl _ hce
    · exact lt_asymm hlt hce
  | @step a b l hne hnext hwalk ih =>
    have hlt := hae.lt_of_ne hne
    rw [List.mem_cons, ih (hnext.le he hlt)]
    constructor
    · rintro (rfl | ⟨rfl | ⟨hc, hbc⟩, hce⟩)
      · exact ⟨.inl rfl, hlt⟩
      · exact ⟨.inr ⟨hnext.mem, hnext.lt⟩, hce⟩
      · exact ⟨.inr ⟨hc, hnext.lt.trans hbc⟩, hce⟩
    · rintro ⟨rfl | ⟨hc, hac⟩, hce⟩
      · exact .inl rfl
      · obtain rfl | hbc := (hnext.le hc hac).eq_or_lt
        · exact .inr ⟨.inl rfl, hce⟩
        · exact .inr ⟨.inr ⟨hc, hbc⟩, hce⟩

theorem pairwise (h : Walk S e a l) (he : e ∈ S) (hae : a ≤ e) : l.Pairwise (· < ·) := by
  induction h with
  | done => exact List.Pairwise.nil
  | @step a b l hne hnext hwalk ih =>
    have hbe := hnext.le he (hae.lt_of_ne hne)
    refine List.pairwise_cons.mpr ⟨fun c hc => ?_, ih hbe⟩
    obtain ⟨rfl | ⟨-, hbc⟩, -⟩ := (hwalk.mem_iff he hbe).mp hc
    · exact hnext.lt
    · exact hnext.lt.trans hbc

end Walk

end EvioTool.Lib
