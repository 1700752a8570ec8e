import EvioTool.Laws.LeafPath

namespace EvioTool

open Lib Exec

/-- The leaf at `loc` is a `VTPBank` that parses on its own, with the words `ws` and the
records `hits`; it is found for what `leaf` accepts. -/
structure BankInfo.HoldsVTP (leaf : TagNum → Bool) (loc : Nat) (ws : List UInt32) (hits : VTPHits)
    (i : BankInfo) : Prop where
  plain : i.cls = .bank
  leads : ∀ tag num, i.findLeaf tag num = some loc ↔ leaf (tag, num) = true
  vtp : ∃ (l : Leaf (.prim .uint32)) (v : VTPBank), i.leafs[loc]? = some ⟨_, l⟩ ∧
    l.data.map UInt32.ofBitVec = ws ∧ l.cls = .vtpBank v ∧ v.autoParse = true ∧ v.hits = hits

/-- There is such a leaf at the end of the path, below banks that are no SVT banks. -/
inductive Bank.HoldsVTP (leaf : TagNum → Bool) (loc : Nat) (ws : List UInt32) (hits : VTPHits) :
    List (Nat × (TagNum → Bool)) → Bank → Prop
  | here {i : BankInfo} {bs : List Bank} : i.HoldsVTP leaf loc ws hits →
    HoldsVTP leaf loc ws hits [] (.node i bs)
  | sub {i : BankInfo} {bs : List Bank} {c : Bank} {n : Nat} {bank : TagNum → Bool}
    {path : List (Nat × (TagNum → Bool))} : i.cls = .bank → bs[n]? = some c →
    (∀ tag num, findBank (.node i bs) tag num = some n ↔ bank (tag, num) = true) →
    HoldsVTP leaf loc ws hits path c → HoldsVTP leaf loc ws hits ((n, bank) :: path) (.node i bs)

variable {set : Settings} {mem : Mem} {fill : Nat} {leaf : TagNum → Bool} {loc : Nat}
  {ws : List UInt32} {hits : VTPHits} {i : BankInfo} {b c : Bank}
  {path : List (Nat × (TagNum → Bool))}

end EvioTool
