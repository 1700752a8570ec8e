import EvioTool.Defs.EventTree

/-! Event trees with leaf banks of all content types, and the fillings that reading them
comes down to. -/

namespace EvioTool

open Lib Exec

inductive Tree
  | leaf (tag : UInt16) (num : UInt8) (contentType padding : Nat) (payload : List UInt32)
  | container (tag : UInt16) (num : UInt8) (c : Container) (trees : List Tree)

namespace Tree

mutual
def encode (k : Kind) : Tree → List UInt32
  | leaf tag num contentType padding payload =>
    k.header tag.toNat contentType num.toNat padding payload.length ++ payload
  | container tag num c trees =>
    k.header tag.toNat c.contentType num.toNat 0 (encodeAll c.kind trees).length ++
      encodeAll c.kind trees

def encodeAll (k : Kind) : List Tree → List UInt32
  | [] => []
  | t :: ts => encode k t ++ encodeAll k ts
end

mutual
def WF (k : Kind) : Tree → Prop
  | leaf tag num contentType padding payload =>
    isContainer contentType = false ∧
      k.Fits tag.toNat contentType num.toNat padding payload.length
  | container tag num c trees =>
    k.Fits tag.toNat c.contentType num.toNat 0 (encodeAll c.kind trees).length ∧
      WFAll c.kind trees

def WFAll (k : Kind) : List Tree → Prop
  | [] => True
  | t :: ts => WF k t ∧ WFAll k ts
end

@[elab_as_elim]
theorem ind {P : Tree → Prop}
    (leaf : ∀ tag num contentType padding payload, P (leaf tag num contentType padding payload))
    (container : ∀ tag num c trees, (∀ t ∈ trees, P t) → P (container tag num c trees)) :
    ∀ t, P t := by
  intro t
  induction t using Tree.rec (motive_2 := fun ts => ∀ t ∈ ts, P t) with
  | leaf tag num contentType padding payload => exact leaf tag num contentType padding payload
  | container tag num c trees ih => exact container tag num c trees ih
  | nil => rename_i h; cases h
  | cons t ts iht ihts =>
    rename_i u hu
    rcases List.mem_cons.mp hu with rfl | h
    · exact iht
    · exact ihts _ h

end Tree

def Settings.Prunes (set : Settings) (depth : Int) : Prop :=
  depth < set.fChopLevel ∨ depth > set.fMaxLevel

instance (set : Settings) : DecidablePred set.Prunes :=
  fun _ => inferInstanceAs (Decidable (_ ∨ _))

mutual
def Tree.mark (set : Settings) (depth : Int) (mark : UInt16) : Tree → UInt16
  | .leaf _ _ _ _ _ => mark
  | .container tag _ _ trees =>
    if set.Prunes depth then Tree.markAll set (depth + 1) tag trees else mark

def Tree.markAll (set : Settings) (depth : Int) (mark : UInt16) : List Tree → UInt16
  | [] => mark
  | t :: ts => Tree.markAll set depth (Tree.mark set depth mark t) ts
end

/-- A leaf bank that is to fill a leaf of a node: the tag of the container that encloses it
and that of the last container that was pruned into the node, the payload, its element type,
where it is and how many elements it has, and the node before. -/
structure Fill where
  enclosing : UInt16
  mark : UInt16
  payload : List UInt32
  type : ElemType
  buf : Int
  count : Int
  header : Header
  node : BankInfo

abbrev Note := Obs ⊕ Fill

def Fill.exec (set : Settings) (mem : Mem) (fill : Nat) (f : Fill) : Exec Halt Obs BankInfo Int :=
  fillSwitch set mem fill f.type f.buf f.count f.header

def noteFill (set : Settings) (mem : Mem) (fill : Nat) (f : BankInfo → Fill) :
    Exec Halt Note BankInfo Int := do
  let f ← gets f
  tell (.inr f)
  mapLog .inl (f.exec set mem fill)

mutual
/-- What `ParseBank` does with the tree at `buf`, apart from finding its way in it. -/
def visit (set : Settings) (mem : Mem) (fill : Nat) (k : Kind) (enclosing mark : UInt16)
    (buf depth : Int) : Tree → Exec Halt Note Bank Unit
  | .leaf tag num contentType padding payload => do
    let header := k.decoded tag.toNat contentType num.toNat padding payload.length
    match leafCase contentType padding with
    | none => pure ()
    | some (type, n, d) =>
      let count ← mapLog .inl (elemCount payload.length n d)
      let _ ← zoom (fun b => some b.label) (fun i b => b.setLabel i) .undefined <|
        noteFill set mem fill fun node =>
          { enclosing, mark, payload, type, buf := buf + k.dataOffset, count, header, node }
  | .container tag num c trees => do
    match ← mapLog .inl (containerNodeHandler set tag num depth) with
    | none => pure ()
    | some .self => visitAll set mem fill c.kind tag tag (buf + k.dataOffset) (depth + 1) trees
    | some (.sub i) =>
      zoom (fun b => b.subs[i]?) (fun c b => b.setSub i c) .undefined
        (visitAll set mem fill c.kind tag tag (buf + k.dataOffset) (depth + 1) trees)

def visitAll (set : Settings) (mem : Mem) (fill : Nat) (k : Kind) (enclosing mark : UInt16)
    (buf depth : Int) : List Tree → Exec Halt Note Bank Unit
  | [] => pure ()
  | t :: ts => do
    visit set mem fill k enclosing mark buf depth t
    visitAll set mem fill k enclosing (t.mark set depth mark) (buf + (t.encode k).length) depth ts
end

def visitEvent (set : Settings) (mem : Mem) (fill : Nat) (tag : UInt16) (num : UInt8)
    (c : Container) (trees : List Tree) : Exec Halt Note Bank Unit := do
  modify fun b => b.setLabel (b.label.setTag tag num)
  let pass ← gets fun b => b.label.checkTag tag
  let len := (Tree.encodeAll c.kind trees).length
  if set.fChopLevel > 0 ∧ c.kind ≠ .bank then pure ()
  else if set.fChopLevel > 0 ∧ !pass then pure ()
  else if len + 2 < 2 ^ 31 then visit set mem fill .bank tag tag 0 0 (.container tag num c trees)
  else do
    -- the length is taken for a negative one
    let header := Kind.bank.decoded tag.toNat c.contentType num.toNat 0 len
    let _ ← mapLog .inl (int32 (header.length - header.dataOffset))
    visit set mem fill .bank tag tag 0 0 (.container tag num c [])

def fills (log : List Note) : List Fill := log.filterMap Sum.getRight?

def Fill.after (set : Settings) (mem : Mem) (fill : Nat) (f : Fill) : BankInfo :=
  (f.exec set mem fill f.node).state

end EvioTool
