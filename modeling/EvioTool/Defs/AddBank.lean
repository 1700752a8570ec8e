import EvioTool.Defs.Bank

/-! `AddBank`, and which bank it returns. -/

namespace EvioTool

structure BankCall where
  name : String
  itag : UInt16
  inum : UInt8
  desc : String
  deriving DecidableEq

def BankCall.SameKey (c d : BankCall) : Prop := c.itag = d.itag ∧ c.inum = d.inum

instance (c d : BankCall) : Decidable (c.SameKey d) := inferInstanceAs (Decidable (_ ∧ _))

def BankCall.newbank (c : BankCall) : Bank := Bank.new c.name c.itag c.inum c.desc

namespace Bank

def AddBank (b : Bank) (c : BankCall) (override : Bool) : Nat × Bank :=
  match b.findBank c.itag c.inum, override with
  | some idx, false => (idx, b)
  | _, _ => (b.subs.length, .node b.label (b.subs ++ [c.newbank]))

def addBanks (b : Bank) : List BankCall → List Nat × Bank
  | [] => ([], b)
  | c :: calls =>
    let (idx, b) := b.AddBank c false
    let (idxs, b) := addBanks b calls
    (idx :: idxs, b)

end Bank

/-- The calls return the bank of an earlier one exactly when the tag and the number are the same,
and otherwise a new bank with their arguments; `idxs` is what they return, and `banks` are the
banks in the end. -/
structure ReusesSameKey (calls : List BankCall) (idxs : List Nat) (banks : List Bank) : Prop where
  same_iff : ∀ (j k : Nat) (c d : BankCall) (r s : Nat), j < k → calls[j]? = some c →
    calls[k]? = some d → idxs[j]? = some r → idxs[k]? = some s → (s = r ↔ c.SameKey d)
  new : ∀ (k : Nat) (d : BankCall) (s : Nat), calls[k]? = some d → idxs[k]? = some s →
    (∀ c ∈ calls.take k, ¬c.SameKey d) → banks[s]? = some d.newbank

end EvioTool
