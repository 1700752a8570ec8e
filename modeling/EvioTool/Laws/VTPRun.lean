import Mathlib.Data.List.Chain
import EvioTool.Laws.VTPEvent

namespace EvioTool

open Lib Exec

variable {leaf : TagNum → Bool} {loc fill fuel : Nat} {ws ws' : List UInt32} {hits hits' : VTPHits}
  {path : List (Nat × (TagNum → Bool))} {i : BankInfo} {b c : Bank} {t : Tool} {s u : World}

theorem Bank.HoldsVTP.inj (h : HoldsVTP leaf loc ws hits path b)
    (h' : HoldsVTP leaf loc ws' hits' path b) : hits' = hits := by
  induction h with
  | here h =>
    cases h' with
    | here h' =>
      obtain ⟨l, v, hl, -, hc, -, rfl⟩ := h.vtp
      obtain ⟨l', v', hl', -, hc', -, rfl⟩ := h'.vtp
      cases hl.symm.trans hl'
      cases hc.symm.trans hc'
      rfl
  | sub _ hn _ _ ih =>
    cases h' with
    | sub _ hn' _ h' =>
      cases hn.symm.trans hn'
      exact ih h'

section Run

variable {ops : List (Answers × Event)} {s₀ : World}

structure World.Like (s₀ s : World) : Prop where
  keep : s.tool.fFullErase = false
  set : s.tool.set = s₀.tool.set
  address : s.tool.bank.label.address = s₀.tool.bank.label.address

def vtpTop : Bank :=
  let v : VTPBank := { blockHeader := 0, blockTail := 0, eventHeader := 0, trigTime := 0 }
  .node { name := "EvioTool", title := "", tags := [0] }
    [.node { name := "TrigTop", title := "", tags := [46], leafs :=
      [⟨.prim .uint32, { name := "VTPBank", title := "", tag := 57634, num := 0, cls := .vtpBank v }⟩] }
      []]

end Run

end EvioTool
