import EvioTool.Defs.ParseBank

/-! Event trees: what the words of an event stand for, and what reading them is to do
to the dictionary. -/

namespace EvioTool

open Lib

inductive Kind
  | bank | segment | tagsegment
  deriving DecidableEq

namespace Kind

def bankTypes : Kind → List Nat
  | bank => [0xE, 0x10]
  | segment => [0xD, 0x20]
  | tagsegment => [0xC, 0x40]

def dataOffset : Kind → Nat
  | bank => 2
  | segment | tagsegment => 1

def header (tag contentType num padding len : Nat) : Kind → List UInt32
  | bank => [UInt32.ofNat (len + 1),
      UInt32.ofNat (tag * 2 ^ 16 + padding * 2 ^ 14 + contentType * 2 ^ 8 + num)]
  | segment => [UInt32.ofNat (tag * 2 ^ 24 + padding * 2 ^ 22 + contentType * 2 ^ 16 + len)]
  | tagsegment => [UInt32.ofNat (tag * 2 ^ 20 + contentType * 2 ^ 16 + len)]

def decoded (k : Kind) (tag contentType num padding len : Nat) : Header where
  length := toInt32 (len + k.dataOffset)
  tag := UInt16.ofNat tag
  contentType := contentType
  num := UInt8.ofNat num
  padding := padding
  dataOffset := k.dataOffset

def Fits (tag contentType num padding len : Nat) : Kind → Prop
  | bank => tag < 2 ^ 16 ∧ contentType < 2 ^ 6 ∧ num < 2 ^ 8 ∧ padding < 2 ^ 2 ∧ len + 1 < 2 ^ 32
  | segment => tag < 2 ^ 8 ∧ contentType < 2 ^ 6 ∧ num = 0 ∧ padding < 2 ^ 2 ∧ len < 2 ^ 16
  | tagsegment => tag < 2 ^ 12 ∧ contentType < 2 ^ 4 ∧ num = 0 ∧ padding = 0 ∧ len < 2 ^ 16

instance : Decidable (Fits tag contentType num padding len k) := by
  cases k <;> exact inferInstanceAs (Decidable (_ ∧ _))

end Kind

inductive Container
  | bankE | bank10 | segmentD | segment20 | tagsegmentC
  deriving DecidableEq

namespace Container

def contentType : Container → Nat
  | bankE => 0xE
  | bank10 => 0x10
  | segmentD => 0xD
  | segment20 => 0x20
  | tagsegmentC => 0xC

def kind : Container → Kind
  | bankE | bank10 => .bank
  | segmentD | segment20 => .segment
  | tagsegmentC => .tagsegment

end Container

/-- A leaf bank of 32-bit words, of content type 0 or 1, or a container. -/
inductive Item
  | leaf (tag : UInt16) (num : UInt8) (unsigned : Bool) (payload : List UInt32)
  | container (tag : UInt16) (num : UInt8) (c : Container) (items : List Item)

namespace Item

mutual
def encode (k : Kind) : Item → List UInt32
  | leaf tag num unsigned payload =>
    k.header tag.toNat unsigned.toNat num.toNat 0 payload.length ++ payload
  | container tag num c items =>
    k.header tag.toNat c.contentType num.toNat 0 (encodeAll c.kind items).length ++
      encodeAll c.kind items

def encodeAll (k : Kind) : List Item → List UInt32
  | [] => []
  | t :: ts => encode k t ++ encodeAll k ts
end

mutual
/-- Every header has room for what it announces. -/
def WF (k : Kind) : Item → Prop
  | leaf tag num unsigned payload =>
    k.Fits tag.toNat unsigned.toNat num.toNat 0 payload.length
  | container tag num c items =>
    k.Fits tag.toNat c.contentType num.toNat 0 (encodeAll c.kind items).length ∧
      WFAll c.kind items

def WFAll (k : Kind) : List Item → Prop
  | [] => True
  | t :: ts => WF k t ∧ WFAll k ts
end

@[elab_as_elim]
theorem ind {P : Item → Prop} (leaf : ∀ tag num unsigned payload, P (leaf tag num unsigned payload))
    (container : ∀ tag num c items, (∀ t ∈ items, P t) → P (container tag num c items)) :
    ∀ t, P t := by
  intro t
  induction t using Item.rec (motive_2 := fun ts => ∀ t ∈ ts, P t) with
  | leaf tag num unsigned payload => exact leaf tag num unsigned payload
  | container tag num c items ih => exact container tag num c items ih
  | nil => rename_i h; cases h
  | cons t ts iht ihts =>
    rename_i u hu
    rcases List.mem_cons.mp hu with rfl | h
    · exact iht
    · exact ihts _ h

end Item

def resolve (set : Settings) (tag : UInt16) (num : UInt8) (depth : Int) (b : Bank) :
    Option (Target × Bank) :=
  if depth < set.fChopLevel ∨ depth > set.fMaxLevel then
    some (.self, b.setLabel (b.label.setTag tag num))
  else
    let mark (c : Bank) : Bank := c.setLabel (c.label.setTag tag num)
    match b.findBank tag num with
    | some i => b.subs[i]?.map fun c => (.sub i, b.setSub i (mark c))
    | none =>
      if set.fAutoAdd then
        some (.sub b.subs.length,
          .node b.label (b.subs ++ [mark (Bank.new (bankStr tag num) tag num "Auto added Bank")]))
      else none

def foldLeaf (set : Settings) (tag : UInt16) (num : UInt8) (payload : List UInt32)
    (b : BankInfo) : BankInfo :=
  let xs : List (ElemType.prim .uint32).Val := payload.map UInt32.toBitVec
  match b.findLeaf tag num with
  | some loc => (b.pushLeaf loc (.prim .uint32) xs).getD b
  | none =>
    if set.fAutoAdd then
      let b' := b.addLeaf (.prim .uint32) (intStr tag num) tag num "Auto added int leaf"
      (b'.pushLeaf b.leafs.length (.prim .uint32) xs).getD b'
    else b

namespace Target

def node (b : Bank) : Target → Option Bank
  | self => some b
  | sub i => b.subs[i]?

def setNode (b c : Bank) : Target → Bank
  | self => c
  | sub i => b.setSub i c

def update (f : Bank → Bank) (b : Bank) (t : Target) : Bank :=
  match t.node b with
  | some c => t.setNode b (f c)
  | none => b

end Target

mutual
def foldItem (set : Settings) : Int → Item → Bank → Bank
  | _, .leaf tag num _ payload, b => b.setLabel (foldLeaf set tag num payload b.label)
  | depth, .container tag num _ items, b =>
    match resolve set tag num depth b with
    | some (t, b) => t.update (foldItems set (depth + 1) items) b
    | none => b

def foldItems (set : Settings) : Int → List Item → Bank → Bank
  | _, [], b => b
  | depth, t :: ts, b => foldItems set depth ts (foldItem set depth t b)
end

/-- The dictionary after an event whose top bank is the container `tag, num`. -/
def foldEvent (set : Settings) (tag : UInt16) (num : UInt8) (c : Container) (items : List Item)
    (b : Bank) : Bank :=
  foldItem set 0 (.container tag num c items) (b.setLabel (b.label.setTag tag num))

end EvioTool
