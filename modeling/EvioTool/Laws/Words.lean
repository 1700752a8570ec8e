import Mathlib.Algebra.Order.Group.Multiset
import EvioTool.Defs.Mirror
import EvioTool.Laws.EventTree

/-! With auto-add every word of an event gets to a leaf of its tag. -/

namespace EvioTool

open Lib Exec

def BankInfo.words (t : UInt16) (i : BankInfo) : Multiset UInt32 :=
  (i.leafs.map fun l => if l.tag = (t.toNat : Int) then (l.words : Multiset UInt32) else 0).sum

def Bank.words (t : UInt16) (b : Bank) : Multiset UInt32 := b.sum (BankInfo.words t)

namespace Item

mutual
def words (t : UInt16) : Item → Multiset UInt32
  | leaf tag _ _ payload => if tag = t then payload else 0
  | container _ _ _ items => wordsAll t items

def wordsAll (t : UInt16) : List Item → Multiset UInt32
  | [] => 0
  | x :: xs => words t x + wordsAll t xs
end

end Item

variable {set : Settings} {mem : Mem} {fill : Nat} {b : Bank} {i j : BankInfo} {t tag : UInt16}
  {num : UInt8} {depth : Int}

theorem LeafPtr.words_push (m : Leaf (.prim .uint32)) (ws : List UInt32) :
    LeafPtr.words ⟨_, m.pushDataArray (ws.map UInt32.toBitVec)⟩ =
      LeafPtr.words ⟨.prim .uint32, m⟩ ++ ws := by
  have hws : (ws.map UInt32.toBitVec).map UInt32.ofBitVec = ws := by
    rw [List.map_map]
    exact List.map_id ws
  simp only [words, Leaf.pushDataArray]
  exact (List.map_append).trans (congrArg _ hws)

theorem BankInfo.words_pushLeaf {loc : Nat} {ws : List UInt32} (hi : i.Plain)
    (hp : i.pushLeaf loc (.prim .uint32) (ws.map UInt32.toBitVec) = some j)
    (htag : i.leafs[loc]?.map LeafPtr.tag = some (tag.toNat : Int)) :
    j.words t = i.words t + if tag = t then (ws : Multiset UInt32) else 0 := by
  obtain ⟨l, hl, hlt⟩ := Option.map_eq_some_iff.mp htag
  obtain ⟨m, hm, -⟩ := hi.leaf (List.getElem?_eq_some_iff.mp hl).1
  rw [hm] at hl
  obtain rfl := Option.some.inj hl
  rw [pushLeaf_eq hm] at hp
  obtain rfl := Option.some.inj hp
  have hmtag : m.tag = (tag.toNat : Int) := hlt
  refine Rose.sum_map_set hm ?_
  have hpush : LeafPtr.tag ⟨_, m.pushDataArray (ws.map UInt32.toBitVec)⟩ = m.tag := rfl
  have hself : LeafPtr.tag ⟨_, m⟩ = m.tag := rfl
  have hiff : (tag.toNat : Int) = t.toNat ↔ tag = t := by
    rw [Nat.cast_inj, UInt16.toNat_inj]
  simp only [hpush, hself, hmtag, hiff, LeafPtr.words_push]
  split
  · rfl
  · rfl

theorem BankInfo.Plain.pushLeaf {loc : Nat} {xs : List (ElemType.prim .uint32).Val} (hi : i.Plain)
    (hp : i.pushLeaf loc (.prim .uint32) xs = some j) : j.Plain := by
  cases hl : i.leafs[loc]? with
  | none => simp [BankInfo.pushLeaf, hl] at hp
  | some l =>
    obtain ⟨m, hm, hc⟩ := hi.leaf (List.getElem?_eq_some_iff.mp hl).1
    rw [BankInfo.pushLeaf_eq hm] at hp
    obtain rfl := Option.some.inj hp
    exact hi.setLeaf loc hc

theorem BankInfo.tag_findLeaf {loc : Nat} (h : i.findLeaf tag num = some loc) :
    i.leafs[loc]?.map LeafPtr.tag = some (tag.toNat : Int) := by
  obtain ⟨hlt, hp, -⟩ := List.findIdx?_eq_some_iff_getElem.mp h
  rw [List.getElem?_eq_getElem hlt, Option.map_some]
  simp only [Bool.and_eq_true, beq_iff_eq] at hp
  rw [hp.1]

theorem BankInfo.words_addLeaf (name desc : String) :
    (i.addLeaf (.prim .uint32) name tag num desc).words t = i.words t := by
  have hnew (m : Leaf (.prim .uint32)) (h : m.data = []) : LeafPtr.words ⟨_, m⟩ = [] := by
    simp only [LeafPtr.words, h]
    rfl
  simp [words, addLeaf, hnew]

theorem words_foldLeaf {ws : List UInt32} (ha : set.fAutoAdd = true) (hi : i.Plain) :
    (foldLeaf set tag num ws i).Plain ∧
      (foldLeaf set tag num ws i).words t = i.words t + if tag = t then (ws : Multiset UInt32) else 0 := by
  unfold foldLeaf
  cases hf : i.findLeaf tag num with
  | some loc =>
    obtain ⟨m, hm, -⟩ := hi.leaf (BankInfo.findLeaf_lt hf)
    have hp := BankInfo.pushLeaf_eq hm (ws.map UInt32.toBitVec)
    simp only [hp, Option.getD_some]
    exact ⟨hi.pushLeaf hp, BankInfo.words_pushLeaf hi hp (BankInfo.tag_findLeaf hf)⟩
  | none =>
    have hadd := hi.addLeaf (intStr tag num) "Auto added int leaf" tag num
    obtain ⟨m, hm, -⟩ :=
      i.leaf_addLeaf (.prim .uint32) (intStr tag num) "Auto added int leaf" tag num
    have hp := BankInfo.pushLeaf_eq hm (ws.map UInt32.toBitVec)
    simp only [ha, if_true, hp, Option.getD_some]
    refine ⟨hadd.pushLeaf hp, ?_⟩
    rw [BankInfo.words_pushLeaf hadd hp ?_, BankInfo.words_addLeaf]
    simp [BankInfo.addLeaf, LeafPtr.tag]

theorem Bank.words_setTag : Bank.words t (b.setLabel (b.label.setTag tag num)) = b.words t := by
  refine (Rose.sum_setLabel (m := 0) ?_).trans (add_zero _)
  exact (add_zero _).symm

theorem words_resolve {x : Target} {c : Bank} (h : resolve set tag num depth b = some (x, c)) :
    c.words t = b.words t := by
  unfold resolve at h
  split at h
  · cases h
    exact Bank.words_setTag
  · cases hf : Bank.findBank b tag num with
    | some i =>
      have hi := List.getElem?_eq_getElem (Bank.findBank_lt hf)
      simp only [hf, hi, Option.map_some, Option.some.injEq, Prod.mk.injEq] at h
      obtain ⟨-, rfl⟩ := h
      refine (Rose.sum_setSub (m := 0) hi ?_).trans (add_zero _)
      rw [add_zero]
      exact Bank.words_setTag
    | none =>
      simp only [hf, Option.ite_none_right_eq_some, Option.some.injEq, Prod.mk.injEq] at h
      obtain ⟨-, -, rfl⟩ := h
      cases b with
      | node i bs =>
        simp [Bank.words, Rose.sum_node, Bank.new, Rose.setLabel, BankInfo.words, BankInfo.setTag]

theorem words_update {f : Bank → Bank} {x : Target} {c : Bank} {m : Multiset UInt32}
    (hn : x.node b = some c) (hf : (f c).words t = c.words t + m) :
    (x.update f b).words t = b.words t + m := by
  simp only [Target.update, hn]
  cases x with
  | self =>
    cases hn
    exact hf
  | sub i => exact Rose.sum_setSub hn hf

theorem resolve_isSome (ha : set.fAutoAdd = true) : (resolve set tag num depth b).isSome := by
  unfold resolve
  split
  · rfl
  · cases hf : Bank.findBank b tag num with
    | some i => simp [List.getElem?_eq_getElem (Bank.findBank_lt hf)]
    | none => simp

def KeepsWords (set : Settings) (t : UInt16) (x : Item) : Prop :=
  ∀ (depth : Int) (b : Bank), b.All BankInfo.Plain →
    (foldItem set depth x b).All BankInfo.Plain ∧
      (foldItem set depth x b).words t = b.words t + x.words t

theorem keepsWords_items {items : List Item} (ih : ∀ x ∈ items, KeepsWords set t x)
    (hb : b.All BankInfo.Plain) :
    (foldItems set depth items b).All BankInfo.Plain ∧
      (foldItems set depth items b).words t = b.words t + Item.wordsAll t items := by
  induction items generalizing b with
  | nil => exact ⟨hb, (add_zero _).symm⟩
  | cons x xs ihx =>
    obtain ⟨hp, hw⟩ := ih x (by simp) depth b hb
    obtain ⟨hp', hw'⟩ := ihx (fun y hy => ih y (by simp [hy])) hp
    exact ⟨hp', by rw [foldItems, hw', hw, Item.wordsAll, add_assoc]⟩

theorem keepsWords (ha : set.fAutoAdd = true) (x : Item) : KeepsWords set t x := by
  induction x using Item.ind with
  | leaf tag num unsigned payload =>
    intro depth b hb
    obtain ⟨hp, hw⟩ : (foldLeaf set tag num payload b.label).Plain ∧ _ = _ :=
      words_foldLeaf (t := t) ha hb.label
    exact ⟨Bank.plain_setLabel hb hp, Rose.sum_setLabel hw⟩
  | container tag num c items ih =>
    intro depth b hb
    have hsome : (resolve set tag num depth b).isSome := resolve_isSome ha
    obtain ⟨⟨x, d⟩, hr⟩ := Option.isSome_iff_exists.mp hsome
    obtain ⟨hd, e, hn⟩ := resolve_plain hb hr
    obtain ⟨hp, hw⟩ : _ ∧ (foldItems set (depth + 1) items e).words t = _ :=
      keepsWords_items ih (Target.plain_node hd hn)
    simp only [foldItem, hr]
    exact ⟨Target.plain_update hd hn hp, by rw [words_update hn hw, words_resolve hr, Item.words]⟩

/-- The words of the event get to leaves of their tags, and no others do. -/
theorem parseEvioBuff_words {c : Container} {items : List Item} (ha : set.fAutoAdd = true)
    (hc : c.kind = .bank) (hpass : b.label.checkTag tag = true)
    (hw : (Item.container tag num c items).WF .bank)
    (hm : mem.Holds 0 ((Item.container tag num c items).encode .bank))
    (hu : ((Item.container tag num c items).encode .bank).length < 2 ^ 31)
    (hb : b.All BankInfo.Plain) :
    ∃ e, (∃ F, ∀ fuel, F ≤ fuel → Returns (parseEvioBuff set mem fill fuel) b 0 e) ∧
      ∀ t, Bank.words t e = b.words t + (Item.container tag num c items).words t := by
  refine ⟨_, parseEvioBuff_eq_fold hc hpass hw hm hu hb, fun t => ?_⟩
  have hmark := Bank.plain_setLabel hb (hb.label.setTag tag num)
  rw [foldEvent, (keepsWords ha _ 0 _ hmark).2, Bank.words_setTag]

theorem parseEvioBuff_words_small : ∃ e,
    (∃ F, ∀ fuel, F ≤ fuel → Returns (parseEvioBuff { fAutoAdd := true }
      (Mem.ofList ((Item.container 0 1 .bank10 smallItems).encode .bank)) 0 fuel) emptyTop 0 e) ∧
    ∀ t, Bank.words t e =
      Bank.words t emptyTop + (Item.container 0 1 .bank10 smallItems).words t :=
  parseEvioBuff_words rfl rfl (by decide) (by simp [smallItems, Item.WF, Item.WFAll]; decide)
    (Mem.holds_ofList _) (by decide) emptyTop_plain

theorem parseEvioBuff_words_lost :
    (¬∃ e, (∃ F, ∀ fuel, F ≤ fuel → Returns (parseEvioBuff { fAutoAdd := true }
        (Mem.ofList ((Item.container 1 1 .bank10 smallItems).encode .bank)) 0 fuel) emptyTop 0 e) ∧
      ∀ t, Bank.words t e =
        Bank.words t emptyTop + (Item.container 1 1 .bank10 smallItems).words t) ∧
    ¬∃ e, (∃ F, ∀ fuel, F ≤ fuel → Returns (parseEvioBuff { fAutoAdd := true } (Mem.ofList
        ((Item.container 0 1 .bank10 (hugeItems hugePayload)).encode .bank)) 0 fuel) emptyTop 0 e) ∧
      ∀ t, Bank.words t e =
        Bank.words t emptyTop + (Item.container 0 1 .bank10 (hugeItems hugePayload)).words t := by
  have hlen : hugePayload.length = 2 ^ 31 := List.length_replicate
  have hempty (tag : UInt16) (t : UInt16) :
      Bank.words t (emptyTop.setLabel (emptyTop.label.setTag tag 1)) = 0 := rfl
  constructor
  · rintro ⟨e, ⟨F, hF⟩, he⟩
    have hr : Returns (parseEvioBuff { fAutoAdd := true }
        (Mem.ofList ((Item.container 1 1 .bank10 smallItems).encode .bank)) 0 F) emptyTop 0
        (emptyTop.setLabel (emptyTop.label.setTag 1 1)) := ⟨rfl, rfl⟩
    obtain ⟨-, rfl⟩ := hr.det (hF F le_rfl)
    have hcard := congrArg Multiset.card (he 7)
    rw [hempty] at hcard
    exact absurd hcard (by decide)
  · rintro ⟨e, ⟨F, hF⟩, he⟩
    have hr : Returns (parseEvioBuff { fAutoAdd := true } (Mem.ofList
        ((Item.container 0 1 .bank10 (hugeItems hugePayload)).encode .bank)) 0 (F + 2)) emptyTop 0 _ :=
      returns_huge (by rw [hlen]) (by rw [hlen]; norm_num) (Mem.holds_ofList _)
    obtain ⟨-, rfl⟩ := hr.det (hF (F + 2) (by omega))
    have hwords : (Item.container 0 1 .bank10 (hugeItems hugePayload)).words 1 =
        (hugePayload : Multiset UInt32) + 0 := rfl
    have hcard := congrArg Multiset.card (he 1)
    rw [hempty, hwords, add_zero, Multiset.card_add, Multiset.coe_card, hlen] at hcard
    simp at hcard

end EvioTool
