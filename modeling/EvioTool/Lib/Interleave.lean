/-! Lists that arise from two lists by interleaving: the images of one list, each once and in
order, among the elements of another. -/

namespace EvioTool.Lib

variable {α β : Type} {R : α → β → Prop} {as as' : List α} {os os' bs bs' : List β}

/-- `bs` consists of one image under `R` of each element of `as`, and of `os`. -/
inductive Interleave (R : α → β → Prop) : List α → List β → List β → Prop
  | nil : Interleave R [] [] []
  | image {a b as os bs} : R a b → Interleave R as os bs → Interleave R (a :: as) os (b :: bs)
  | other {o as os bs} : Interleave R as os bs → Interleave R as (o :: os) (o :: bs)

namespace Interleave

theorem others (os : List β) : Interleave R ([] : List α) os os := by
  induction os with
  | nil => exact .nil
  | cons o os ih => exact .other ih

theorem append (h : Interleave R as os bs) (h' : Interleave R as' os' bs') :
    Interleave R (as ++ as') (os ++ os') (bs ++ bs') := by
  induction h with
  | nil => exact h'
  | image hab _ ih => exact .image hab ih
  | other _ ih => exact .other ih

theorem imp {R' : α → β → Prop} (h : Interleave R as os bs)
    (himp : ∀ a ∈ as, ∀ b, R a b → R' a b) : Interleave R' as os bs := by
  induction h with
  | nil => exact .nil
  | image hab _ ih =>
    refine .image (himp _ List.mem_cons_self _ hab) (ih fun a ha => ?_)
    exact himp a (List.mem_cons_of_mem _ ha)
  | other _ ih => exact .other (ih himp)

theorem length (h : Interleave R as os bs) : bs.length = as.length + os.length := by
  induction h with
  | nil => rfl
  | image _ _ ih =>
    rw [List.length_cons, List.length_cons, ih, Nat.add_right_comm]
  | other _ ih =>
    rw [List.length_cons, List.length_cons, ih, Nat.add_assoc]

end Interleave

end EvioTool.Lib
