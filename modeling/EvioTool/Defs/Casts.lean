import EvioTool.Defs.EvioTool
import EvioTool.Defs.Mirror
import EvioTool.Defs.Tree

/-! The element types that the leaf banks of events bring to leaves. -/

namespace EvioTool

open Lib

namespace Tree

mutual
/-- A container at a level that is chopped or pruned is replaced by its contents. -/
def prune (set : Settings) : Int → Tree → List Tree
  | _, leaf tag num contentType padding payload => [leaf tag num contentType padding payload]
  | depth, container tag num c trees =>
    if set.Prunes depth then pruneAll set (depth + 1) trees
    else [container tag num c (pruneAll set (depth + 1) trees)]

def pruneAll (set : Settings) : Int → List Tree → List Tree
  | _, [] => []
  | depth, t :: ts => prune set depth t ++ pruneAll set depth ts
end

def asLeaf : Tree → Option (TagNum × ElemType)
  | leaf tag num contentType padding _ =>
    (leafCase contentType padding).map fun r => ((tag, num), r.1)
  | container _ _ _ _ => none

def asBank : Tree → Option (TagNum × List Tree)
  | leaf _ _ _ _ _ => none
  | container tag num _ trees => some ((tag, num), trees)

end Tree

/-- The leaf banks of a class, in the node at hand and in each bank below, have one element
type. -/
inductive OneType : List Tree → Prop
  | node {trees : List Tree}
    (leaf : ∀ x ∈ trees.filterMap Tree.asLeaf, ∀ y ∈ trees.filterMap Tree.asLeaf,
      leafClass ((trees.filterMap Tree.asLeaf).map Prod.fst) x.1 =
        leafClass ((trees.filterMap Tree.asLeaf).map Prod.fst) y.1 → x.2 = y.2)
    (bank : ∀ x ∈ trees.filterMap Tree.asBank, OneType (gather bankClass (trees.filterMap Tree.asBank)
      (bankClass ((trees.filterMap Tree.asBank).map Prod.fst) x.1))) :
    OneType trees

structure Event where
  tag : UInt16
  num : UInt8
  container : Container
  trees : List Tree
  buf : EvioBuf
  wf : (Tree.container tag num container trees).WF .bank
  holds : buf.mem.Holds 0 ((Tree.container tag num container trees).encode .bank)

def Event.contents (set : Settings) (top : BankInfo) (e : Event) : List Tree :=
  if set.fChopLevel > 0 ∧ (e.container.kind ≠ .bank ∨ !top.checkTag e.tag) then []
  else if (Tree.encodeAll e.container.kind e.trees).length + 2 < 2 ^ 31 then
    (Tree.container e.tag e.num e.container e.trees).prune set 0
  else (Tree.container e.tag e.num e.container []).prune set 0

/-- The contents of the events have one element type for each leaf, taken together when the
dictionary stays from one event to the next. -/
def Tool.OneType (t : Tool) (events : List Event) : Prop :=
  if t.fFullErase then ∀ e ∈ events, EvioTool.OneType (e.contents t.set t.bank.label)
  else EvioTool.OneType (events.flatMap (Event.contents t.set t.bank.label))

end EvioTool
