import Mathlib.Data.List.Nodup
import Mathlib.Data.Nat.Bitwise

/-! Lists of numbers without repetition, which are checked by marking each in a bit set. -/

namespace EvioTool.Lib

def once : List Nat → Nat → Bool
  | [], _ => true
  | n :: ns, marks => !marks.testBit n && once ns (marks ||| 1 <<< n)

theorem nodup_of_once {ns : List Nat} {marks : Nat} (h : once ns marks) :
    ns.Nodup ∧ ∀ n ∈ ns, marks.testBit n = false := by
  induction ns generalizing marks with
  | nil => simp
  | cons n ns ih =>
    obtain ⟨hn, hns⟩ := Bool.and_eq_true_iff.mp h
    obtain ⟨hnodup, hmarks⟩ := ih hns
    have hrest (k : Nat) (hk : k ∈ ns) : marks.testBit k = false ∧ n ≠ k := by
      have hmark := hmarks k hk
      rw [Nat.testBit_or, Nat.one_shiftLeft, Nat.testBit_two_pow] at hmark
      simpa using hmark
    refine ⟨List.nodup_cons.mpr ⟨fun hmem => (hrest n hmem).2 rfl, hnodup⟩, ?_⟩
    rw [List.forall_mem_cons]
    exact ⟨by simpa using hn, fun k hk => (hrest k hk).1⟩

theorem eq_of_once {α : Type} {f : α → Nat} {as : List α} (h : once (as.map f) 0) {a b : α}
    (ha : a ∈ as) (hb : b ∈ as) (hf : f a = f b) : a = b :=
  List.inj_on_of_nodup_map (nodup_of_once h).1 ha hb hf

end EvioTool.Lib
