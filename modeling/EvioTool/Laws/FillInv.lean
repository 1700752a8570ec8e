import EvioTool.Laws.Twins
import EvioTool.Lib.Run

namespace EvioTool

open Lib Exec

section SetLeaf

variable {I : BankInfo → Prop} {loc : Nat}
  (h : ∀ i l m, i.leafs[loc]? = some l → m.blank.clear = l.blank.clear → I i → I (i.setLeaf loc m))

include h

theorem preserves_pushLeaf (T : ElemType) (xs : List T.Val) : Preserves I (pushLeaf loc T xs) := by
  intro i hi
  unfold pushLeaf BankInfo.pushLeaf
  cases hl : i.leafs[loc]? with
  | none => exact hi
  | some l =>
    simp only [Option.bind_eq_bind, Option.bind_some]
    cases hm : l.pushDataArray T xs with
    | none => exact hi
    | some m => exact h i l m hl (LeafPtr.clear_push hm) hi

theorem preserves_callBack : Preserves I (callBack loc) := by
  intro i hi
  rw [BankInfo.callBack_apply]
  cases hl : i.leafs[loc]? with
  | none => exact hi
  | some l =>
    dsimp only
    cases hc : l.callBack with
    | error e => exact hi
    | ok m => exact h i l m hl (by rw [LeafPtr.callBack_ok hc]) hi

end SetLeaf

structure FillInv (fAutoAdd : Bool) (I : BankInfo → Prop) : Prop where
  svt : ∀ i f, (∀ v, SVTBank.clear (f v) = v.clear) → I i → I { i with cls := i.cls.mapSVT f }
  setLeaf : ∀ i (loc : Nat) l m, i.leafs[loc]? = some l → m.blank.clear = l.blank.clear → I i →
    I (i.setLeaf loc m)
  addLeaf : ∀ i T name tag num desc, fAutoAdd = true → I i → I (i.addLeaf T name tag num desc)

namespace FillInv

variable {set : Settings} {mem : Mem} {fill : Nat} {I : BankInfo → Prop} {i : BankInfo}
  {fAutoAdd : Bool}

theorem alike_self {m : Exec Halt Obs BankInfo α} (h : I (m i).state) :
    Alike m (fun _ j j' => j' = j ∧ I j) (fun j j' => j' = j ∧ I j) i i := by
  unfold Alike
  cases (m i).out with
  | ok a => exact ⟨rfl, rfl, h⟩
  | error e => exact ⟨rfl, rfl, h⟩

variable (h : FillInv fAutoAdd I)

include h

theorem rel : FillRel fAutoAdd fun i j => j = i ∧ I i where
  cls _ _ h := by rw [h.1]
  thisTag _ _ h := by rw [h.1]
  findLeaf _ _ _ _ h := by rw [h.1]
  length _ _ h := by rw [h.1]
  type _ _ _ h := by rw [h.1]
  svt i _ f hf := by
    rintro ⟨rfl, hi⟩
    exact ⟨rfl, h.svt _ f hf hi⟩
  push loc T xs := by
    rintro i _ ⟨rfl, hi⟩
    exact alike_self (preserves_pushLeaf (fun i => h.setLeaf i loc) T xs _ hi)
  callBack loc := by
    rintro i _ ⟨rfl, hi⟩
    exact alike_self (preserves_callBack (fun i => h.setLeaf i loc) _ hi)
  addLeaf i _ T name tag num desc ha := by
    rintro ⟨rfl, hi⟩
    exact ⟨rfl, h.addLeaf _ T name tag num desc ha hi⟩

theorem fillSwitch (ha : set.fAutoAdd = fAutoAdd) (hi : I i) (T : ElemType) (buf n : Int)
    (hd : Header) : I (fillSwitch set mem fill T buf n hd i).state :=
  ((h.rel.fillSwitch ha T buf n hd).states ⟨rfl, hi⟩).2

end FillInv

theorem fillInv_thisTag (fAutoAdd : Bool) (tag : UInt16) :
    FillInv fAutoAdd fun i => i.thisTag = tag where
  svt _ _ _ h := h
  setLeaf _ _ _ _ _ _ h := h
  addLeaf _ _ _ _ _ _ _ h := h

end EvioTool
