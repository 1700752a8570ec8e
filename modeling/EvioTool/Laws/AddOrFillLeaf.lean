import EvioTool.Laws.Header

namespace EvioTool

open Lib Exec

variable {mem : Mem} {b c : BankInfo} {t : Prim} {buf n : Int}

@[simp] theorem returns_int32 {x y : Int} {s u : σ} :
    Returns (int32 x) s y u ↔ FitsInt x ∧ y = x ∧ u = s := by
  unfold int32
  split <;> simp_all

theorem FADCdata.returns_getNext {cbuf indx : Int} {n : Nat} {p : Nat × Int} {s u : σ} :
    Returns (getNext mem cbuf indx n) s p u ↔
      Returns (readLE mem .fadc (cbuf + indx) n) s p.1 u ∧ FitsInt (indx + n) ∧ p.2 = indx + n := by
  simp only [getNext, returns_bind, returns_int32, returns_pure]
  constructor
  · rintro ⟨x, v, hx, i, w, ⟨hfit, rfl, rfl⟩, rfl, rfl⟩
    exact ⟨hx, hfit, rfl⟩
  · rintro ⟨hx, hfit, hp⟩
    exact ⟨p.1, u, hx, _, u, ⟨hfit, rfl, rfl⟩, Prod.ext rfl hp, rfl⟩

@[simp] theorem returns_elemCount {len k d m : Int} {s u : σ} :
    Returns (elemCount len k d) s m u ↔
      FitsInt (len * k) ∧ FitsInt (len * k - d) ∧ m = len * k - d ∧ u = s := by
  simp [elemCount, and_assoc]

@[simp] theorem returns_return_ {stat r : Int} {s u : σ} :
    Returns (return_ stat) s r u ↔ r = stat ∧ u = s := by
  simp [return_]

@[simp] theorem returns_readElems {who : Reader} {xs : List (ElemType.prim t).Val} {s u : σ} :
    Returns (readElems mem who t buf n) s xs u ↔
      0 ≤ n ∧ mem.elems (4 * buf) t.width n.toNat = some xs ∧ u = s := by
  unfold readElems
  split <;> rename_i hn
  · simp [hn]
  · simp only [returns_bind, returns_tell, exists_eq_left, exists_const, Int.not_lt.mp hn,
      true_and]
    exact returns_demand

@[simp] theorem returns_pushLeaf {loc : Nat} {T : ElemType} {xs : List T.Val} {r : Unit} :
    Returns (pushLeaf loc T xs) b r c ↔ b.pushLeaf loc T xs = some c := by
  simp only [Returns, pushLeaf]
  cases b.pushLeaf loc T xs <;> simp

namespace BankInfo

@[simp] theorem cls_setLeaf (loc : Nat) (l : LeafPtr) : (b.setLeaf loc l).cls = b.cls := rfl

@[simp] theorem leafs_setLeaf (loc : Nat) (l : LeafPtr) :
    (b.setLeaf loc l).leafs = b.leafs.set loc l := rfl

@[simp] theorem setLeaf_setLeaf (loc : Nat) (l l' : LeafPtr) :
    (b.setLeaf loc l).setLeaf loc l' = b.setLeaf loc l' := by
  simp [setLeaf]

theorem setLeaf_self {loc : Nat} {l : LeafPtr} (hl : b.leafs[loc]? = some l) :
    b.setLeaf loc l = b := by
  obtain ⟨h, rfl⟩ := List.getElem?_eq_some_iff.mp hl
  simp [setLeaf]

theorem pushLeaf_eq {loc : Nat} {T : ElemType} {l : Leaf T} (hl : b.leafs[loc]? = some ⟨T, l⟩)
    (xs : List T.Val) : b.pushLeaf loc T xs = some (b.setLeaf loc ⟨T, l.pushDataArray xs⟩) := by
  simp [pushLeaf, hl, LeafPtr.pushDataArray]

end BankInfo

theorem pushDataArray_plain {fill loc : Nat} (hb : b.cls = .bank ∨ t ≠ .uint32) :
    pushDataArray mem fill loc t buf n b = Bank.pushDataArray mem .leaf loc t buf n b := by
  rw [pushDataArray, gets_bind_apply]
  cases hc : b.cls <;> simp_all [BankClass.pushDataArray]

theorem LeafPtr.callBack_plain {T : ElemType} {l : Leaf T} (hl : l.cls = .leaf) :
    LeafPtr.callBack ⟨T, l⟩ = .ok ⟨T, l⟩ := by
  cases l
  simp only at hl
  subst hl
  rfl

theorem callBack_plain {loc : Nat} {T : ElemType} {l : Leaf T}
    (hl : b.leafs[loc]? = some ⟨T, l⟩) (hc : l.cls = .leaf) :
    callBack loc b = (pure () : Exec Halt Obs BankInfo Unit) b := by
  rw [callBack, gets_bind_apply, hl, demand_some, pure_bind, LeafPtr.callBack_plain hc,
    ofExcept_ok, pure_bind, modify_apply, BankInfo.setLeaf_self hl]
  rfl

theorem returns_callBack_plain {loc : Nat} {T : ElemType} {l : Leaf T}
    (hl : b.leafs[loc]? = some ⟨T, l⟩) (hc : l.cls = .leaf) :
    Returns (callBack loc) b () c ↔ c = b := by
  rw [returns_congr (callBack_plain hl hc), returns_pure]
  simp

theorem returns_fillLeaf {loc : Nat} {T : ElemType} {l : Leaf T}
    {push : Exec Halt Obs BankInfo Unit} {r : Int} (hl : b.leafs[loc]? = some ⟨T, l⟩) :
    Returns (fillLeaf T loc push) b r c ↔
      ∃ d, Returns push b () d ∧ Returns (callBack loc) d () c ∧ r = 1 := by
  simp [fillLeaf, hl, Unique.exists_iff]

def BankInfo.leafFor (fAutoAdd : Bool) (T : ElemType) (str desc : String) (tag : UInt16)
    (num : UInt8) (b : BankInfo) : Option (Nat × BankInfo) :=
  match b.findLeaf tag num with
  | some loc => some (loc, b)
  | none => if fAutoAdd then some (b.leafs.length, b.addLeaf T str tag num desc) else none

theorem findOrAddLeaf_eq {fAutoAdd : Bool} {T : ElemType} {str desc : String} {tag : UInt16}
    {num : UInt8} : findOrAddLeaf fAutoAdd T str desc tag num b =
      ⟨.ok ((b.leafFor fAutoAdd T str desc tag num).map Prod.fst),
        ((b.leafFor fAutoAdd T str desc tag num).map Prod.snd).getD b, []⟩ := by
  unfold BankInfo.leafFor
  rw [findOrAddLeaf, gets_bind_apply]
  cases b.findLeaf tag num with
  | some loc => rfl
  | none =>
    cases fAutoAdd with
    | false => rfl
    | true =>
      have hlen : (b.addLeaf T str tag num desc).leafs.length - 1 = b.leafs.length := by
        simp [BankInfo.addLeaf, BankInfo.storeLocation]
      simp [hlen]

theorem findOrAddLeaf_found {fAutoAdd : Bool} {loc : Nat} {T : ElemType} {str desc : String}
    {tag : UInt16} {num : UInt8} (hf : b.findLeaf tag num = some loc) :
    findOrAddLeaf fAutoAdd T str desc tag num b = ⟨.ok (some loc), b, []⟩ := by
  rw [findOrAddLeaf, gets_bind_apply, hf]
  rfl

theorem addOrFillLeaf_found {fAutoAdd : Bool} {fill loc : Nat} {tag : UInt16} {num : UInt8}
    (hf : b.findLeaf tag num = some loc) :
    addOrFillLeaf fAutoAdd mem fill t buf n tag num b =
      fillLeaf (.prim t) loc (pushDataArray mem fill loc t buf n) b := by
  have hfind (str desc : String) : findOrAddLeaf fAutoAdd (.prim t) str desc tag num b = _ :=
    findOrAddLeaf_found hf
  rw [addOrFillLeaf, bind_of_ok (a := some loc) (by rw [hfind]), hfind]
  rfl

theorem returns_fillLeaf_plain {fill loc : Nat} {l : Leaf (.prim t)} {r : Int}
    (hb : b.cls = .bank ∨ t ≠ .uint32) (hl : b.leafs[loc]? = some ⟨.prim t, l⟩)
    (hc : l.cls = .leaf) :
    Returns (fillLeaf (.prim t) loc (pushDataArray mem fill loc t buf n)) b r c ↔
      0 ≤ n ∧ ∃ xs, mem.elems (4 * buf) t.width n.toNat = some xs ∧ r = 1 ∧
        c = b.setLeaf loc ⟨.prim t, l.pushDataArray xs⟩ := by
  have hlt : loc < b.leafs.length := (List.getElem?_eq_some_iff.mp hl).1
  have hcall (xs : List (ElemType.prim t).Val) (d : BankInfo) :
      Returns (callBack loc) (b.setLeaf loc ⟨.prim t, l.pushDataArray xs⟩) () d ↔
        d = b.setLeaf loc ⟨.prim t, l.pushDataArray xs⟩ :=
    returns_callBack_plain (l := l.pushDataArray xs) (by simp [hlt]) hc
  rw [returns_fillLeaf hl]
  simp only [returns_congr (pushDataArray_plain hb), Bank.pushDataArray, returns_bind,
    returns_readElems, returns_pushLeaf]
  constructor
  · rintro ⟨d, ⟨xs, _, ⟨hn, hxs, rfl⟩, hpush⟩, hd, rfl⟩
    rw [BankInfo.pushLeaf_eq hl] at hpush
    cases hpush
    exact ⟨hn, xs, hxs, rfl, (hcall xs c).mp hd⟩
  · rintro ⟨hn, xs, hxs, rfl, rfl⟩
    exact ⟨_, ⟨xs, b, ⟨hn, hxs, rfl⟩, BankInfo.pushLeaf_eq hl xs⟩, (hcall xs _).mpr rfl, rfl⟩

theorem returns_addOrFillLeaf_found {fAutoAdd : Bool} {fill loc : Nat} {tag : UInt16}
    {num : UInt8} {l : Leaf (.prim t)} {r : Int} (hb : b.cls = .bank ∨ t ≠ .uint32)
    (hf : b.findLeaf tag num = some loc) (hl : b.leafs[loc]? = some ⟨.prim t, l⟩)
    (hc : l.cls = .leaf) :
    Returns (addOrFillLeaf fAutoAdd mem fill t buf n tag num) b r c ↔
      0 ≤ n ∧ ∃ xs, mem.elems (4 * buf) t.width n.toNat = some xs ∧ r = 1 ∧
        c = b.setLeaf loc ⟨.prim t, l.pushDataArray xs⟩ := by
  rw [returns_congr (addOrFillLeaf_found hf), returns_fillLeaf_plain hb hl hc]

end EvioTool
