import EvioTool.Defs.EventTree

/-! The dictionary that auto-add makes of an event, starting from nothing. -/

namespace EvioTool

open Lib

abbrev TagNum := UInt16 × UInt8

namespace Item

mutual
def prune (set : Settings) : Int → Item → List Item
  | _, leaf tag num unsigned payload => [leaf tag num unsigned payload]
  | depth, container tag num c items =>
    if depth < set.fChopLevel ∨ depth > set.fMaxLevel then pruneAll set (depth + 1) items
    else [container tag num c (pruneAll set (depth + 1) items)]

def pruneAll (set : Settings) : Int → List Item → List Item
  | _, [] => []
  | depth, t :: ts => prune set depth t ++ pruneAll set depth ts
end

def asLeaf : Item → Option (TagNum × List UInt32)
  | leaf tag num _ payload => some ((tag, num), payload)
  | container _ _ _ _ => none

def asBank : Item → Option (TagNum × List Item)
  | leaf _ _ _ _ => none
  | container tag num _ items => some ((tag, num), items)

end Item

/-- The leaf for `k`, after leaf banks `ks`: a leaf of number 0 takes what comes for its tag,
unless that has come before. -/
def leafClass (ks : List TagNum) (k : TagNum) : TagNum :=
  if ks.idxOf (k.1, 0) < ks.idxOf k then (k.1, 0) else k

/-- The bank for `k`, after containers `ks`: number 0 is any number, so a first bank of
number 0 takes all that come for its tag, and any first bank those of number 0. -/
def bankClass (ks : List TagNum) (k : TagNum) : TagNum :=
  match ks.find? fun f => f.1 = k.1 with
  | some f => if f.2 = 0 ∨ k.2 = 0 then f else k
  | none => k

def gather (class_ : List TagNum → TagNum → TagNum) (xs : List (TagNum × List α)) (c : TagNum) :
    List α :=
  (xs.filter fun x => class_ (xs.map Prod.fst) x.1 = c).flatMap Prod.snd

def LeafPtr.words : LeafPtr → List UInt32
  | ⟨.prim .uint32, l⟩ => l.data.map UInt32.ofBitVec
  | _ => []

def LeafPtr.tagNum (l : LeafPtr) : TagNum := (UInt16.ofNat l.tag.toNat, UInt8.ofNat l.num.toNat)

def Bank.tagNum (b : Bank) : TagNum := (b.label.tags.headD 0, b.label.num)

/-- Each class of leaf banks has one leaf, with the payloads of the class, and each class of
containers has one bank, which mirrors the contents of the class. -/
inductive Mirrors : List Item → Bank → Prop
  | node {items : List Item} {i : BankInfo} {subs : List Bank}
    (nodup_leafs : (i.leafs.map LeafPtr.tagNum).Nodup)
    (mem_leafs : ∀ c, c ∈ i.leafs.map LeafPtr.tagNum ↔ ∃ x ∈ items.filterMap Item.asLeaf,
      leafClass ((items.filterMap Item.asLeaf).map Prod.fst) x.1 = c)
    (leaf : ∀ l ∈ i.leafs, l.tag = (l.tagNum.1.toNat : Int) ∧ l.num = (l.tagNum.2.toNat : Int) ∧
      l.words = gather leafClass (items.filterMap Item.asLeaf) l.tagNum)
    (nodup_subs : (subs.map Bank.tagNum).Nodup)
    (mem_subs : ∀ c, c ∈ subs.map Bank.tagNum ↔ ∃ x ∈ items.filterMap Item.asBank,
      bankClass ((items.filterMap Item.asBank).map Prod.fst) x.1 = c)
    (tags : ∀ b ∈ subs, b.label.tags = [b.tagNum.1])
    (sub : ∀ b ∈ subs, Mirrors (gather bankClass (items.filterMap Item.asBank) b.tagNum) b) :
    Mirrors items (.node i subs)

end EvioTool
