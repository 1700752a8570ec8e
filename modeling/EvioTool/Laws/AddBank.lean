import EvioTool.Defs.AddBank
import EvioTool.Lib.Registry

namespace EvioTool

open Lib

namespace BankCall

def hits (x c : BankCall) : Bool :=
  x.itag == c.itag && (c.inum == 0 || x.inum == 0 || x.inum == c.inum)

theorem hits_iff {x c : BankCall} : x.hits c ↔
    x.itag = c.itag ∧ (c.inum = 0 ∨ x.inum = 0 ∨ x.inum = c.inum) := by
  simp [hits, or_assoc]

theorem hits_sameKey : Hits hits SameKey where
  equivalence := {
    refl c := ⟨rfl, rfl⟩
    symm h := ⟨h.1.symm, h.2.symm⟩
    trans h h' := ⟨h.1.trans h'.1, h.2.trans h'.2⟩ }
  symm h := by
    obtain ⟨htag, hnum⟩ := hits_iff.mp h
    refine hits_iff.mpr ⟨htag.symm, ?_⟩
    tauto
  of_same h := hits_iff.mpr ⟨h.1, .inr (.inr h.2)⟩
  congr hs h := by
    rw [hits_iff, ← hs.1, ← hs.2]
    exact hits_iff.mp h

theorem newbank_injective : Function.Injective newbank := by
  rintro ⟨name, itag, inum, desc⟩ ⟨name', itag', inum', desc'⟩ h
  simp only [newbank, Bank.new, Rose.node.injEq, BankInfo.mk.injEq] at h
  simp_all

end BankCall

variable {i : BankInfo} {calls : List BankCall}

theorem findBank_newbanks (i : BankInfo) (xs : List BankCall) (c : BankCall) :
    Bank.findBank (.node i (xs.map BankCall.newbank)) c.itag c.inum =
      xs.findIdx? fun x => x.hits c := by
  rw [Bank.findBank, Rose.subs_node, List.findIdx?_map]
  refine congrArg (List.findIdx? · xs) (funext fun x => ?_)
  rw [Bool.eq_iff_iff, BankCall.hits_iff]
  simp only [BankCall.newbank, Bank.new, Function.comp_apply, Rose.label_node, Bool.and_eq_true,
    List.contains_cons, List.contains_nil, Bool.or_false, Bool.or_eq_true, beq_iff_eq, or_assoc]
  exact and_congr_left fun _ => eq_comm

theorem AddBank_state (b : Bank) (c : BankCall) :
    (b.AddBank c false).2 = b.addBank c.name c.itag c.inum c.desc := by
  unfold Bank.AddBank Bank.addBank
  cases b.findBank c.itag c.inum with
  | some idx => rfl
  | none => rfl

theorem AddBank_newbanks (i : BankInfo) (xs : List BankCall) (c : BankCall) :
    Bank.AddBank (.node i (xs.map BankCall.newbank)) c false =
      ((register BankCall.hits xs c).1,
        .node i ((register BankCall.hits xs c).2.map BankCall.newbank)) := by
  unfold Bank.AddBank register
  rw [findBank_newbanks]
  cases xs.findIdx? fun x => x.hits c with
  | some idx => rfl
  | none => simp

theorem addBanks_newbanks (i : BankInfo) (xs calls : List BankCall) :
    Bank.addBanks (.node i (xs.map BankCall.newbank)) calls =
      ((registerAll BankCall.hits xs calls).1,
        .node i ((registerAll BankCall.hits xs calls).2.map BankCall.newbank)) := by
  induction calls generalizing xs with
  | nil => rfl
  | cons c calls ih => simp only [Bank.addBanks, AddBank_newbanks, ih, registerAll]

theorem reusesSameKey_iff {idxs : List Nat} {xs : List BankCall} :
    ReusesSameKey calls idxs (xs.map BankCall.newbank) ↔
      ReusesSame BankCall.SameKey calls idxs xs := by
  have hget (s : Nat) (d : BankCall) :
      (xs.map BankCall.newbank)[s]? = some d.newbank ↔ xs[s]? = some d := by
    rw [List.getElem?_map, Option.map_eq_some_iff]
    constructor
    · rintro ⟨x, hx, heq⟩
      rwa [BankCall.newbank_injective heq] at hx
    · exact fun hx => ⟨d, hx, rfl⟩
  constructor
  · exact fun h => ⟨h.same_iff, fun k d s hd hs hnew => (hget s d).mp (h.new k d s hd hs hnew)⟩
  · exact fun h => ⟨h.same_iff, fun k d s hd hs hnew => (hget s d).mpr (h.new k d s hd hs hnew)⟩

/-- Banks are used again by exactly the calls with the same tag and number if and only if no
call with the number 0 shares its tag with one that has another number. -/
theorem addBanks_reusesSameKey_iff (i : BankInfo) (calls : List BankCall) :
    ReusesSameKey calls (Bank.addBanks (.node i []) calls).1
        (Bank.addBanks (.node i []) calls).2.subs ↔
      calls.Pairwise fun c d => c.itag = d.itag → c.inum = d.inum ∨ c.inum ≠ 0 ∧ d.inum ≠ 0 := by
  have hbanks := addBanks_newbanks i [] calls
  rw [List.map_nil] at hbanks
  rw [hbanks, Rose.subs_node, reusesSameKey_iff, BankCall.hits_sameKey.reusesSame_iff]
  refine List.Pairwise.iff fun c d => ?_
  rw [BankCall.hits_iff, BankCall.SameKey]
  tauto

theorem addBanks_shares : ¬∀ (i : BankInfo) (calls : List BankCall),
    ReusesSameKey calls (Bank.addBanks (.node i []) calls).1
      (Bank.addBanks (.node i []) calls).2.subs := by
  intro h
  have hsame := (h emptyTop.label [⟨"All", 5, 0, ""⟩, ⟨"One", 5, 1, ""⟩]).same_iff 0 1
    ⟨"All", 5, 0, ""⟩ ⟨"One", 5, 1, ""⟩ 0 0 (by decide) rfl rfl rfl rfl
  exact absurd (hsame.mp rfl) (by decide)

end EvioTool
