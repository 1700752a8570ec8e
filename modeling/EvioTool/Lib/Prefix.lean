import Mathlib.Data.List.TakeWhile

/-! Prefixes of lists that loops with an early exit look at. -/

namespace EvioTool.Lib

variable {α β : Type} {p q : α → Bool} {l l' m m' : List α}

theorem takeWhile_eq_filter_iff (hqp : ∀ x, q x → p x) : l.takeWhile q = l.filter p ↔
    (∀ x ∈ l, p x → q x) ∧ l.Pairwise fun x y => p y → p x := by
  induction l with
  | nil => simp
  | cons x l ih =>
    cases hq : q x with
    | true =>
      have hp := hqp x hq
      simp only [List.takeWhile_cons, hq, if_true, List.filter_cons, hp, List.cons.injEq, true_and, ih,
        List.forall_mem_cons, implies_true, List.pairwise_cons]
    | false =>
      simp only [List.takeWhile_cons, hq, Bool.false_eq_true, if_false, List.forall_mem_cons,
        imp_false, List.pairwise_cons]
      constructor
      · intro h
        have hnone : ∀ y ∈ x :: l, ¬p y := List.filter_eq_nil_iff.mp h.symm
        rw [List.forall_mem_cons] at hnone
        refine ⟨⟨hnone.1, fun y hy hpy => absurd hpy (hnone.2 y hy)⟩,
          fun y hy hpy => absurd hpy (hnone.2 y hy), ?_⟩
        exact List.pairwise_of_forall_mem_list fun y _ z hz hpz => absurd hpz (hnone.2 z hz)
      · rintro ⟨⟨hx, -⟩, hall, -⟩
        refine (List.filter_eq_nil_iff.mpr ?_).symm
        rw [List.forall_mem_cons]
        exact ⟨hx, fun y hy hpy => hx (hall y hy hpy)⟩

theorem takeWhile_sublist_filter (hqp : ∀ x, q x → p x) :
    (l.takeWhile q).Sublist (l.filter p) := by
  have hsub := (List.takeWhile_sublist (l := l) q).filter p
  rwa [List.filter_eq_self.mpr fun x hx => hqp x (List.mem_takeWhile_imp hx)] at hsub

theorem append_eq_append_iff_of_sublist (h : l.Sublist m) (h' : l'.Sublist m') :
    l ++ l' = m ++ m' ↔ l = m ∧ l' = m' := by
  constructor
  · intro heq
    have hlen := congrArg List.length heq
    have hle := h.length_le
    have hle' := h'.length_le
    simp only [List.length_append] at hlen
    exact ⟨h.eq_of_length (by omega), h'.eq_of_length (by omega)⟩
  · rintro ⟨rfl, rfl⟩
    rfl

theorem sublist_eq_of_mem_iff {f : α → β} (h : l.Sublist m) (hm : (m.map f).Nodup)
    (hmem : ∀ y ∈ m.map f, y ∈ l.map f) : l = m := by
  have hperm : (l.map f).Perm (m.map f) :=
    (List.perm_ext_iff_of_nodup ((h.map f).nodup hm) hm).mpr fun y =>
      ⟨fun hy => (h.map f).subset hy, hmem y⟩
  exact h.eq_of_length (by simpa using hperm.length_eq)

end EvioTool.Lib
