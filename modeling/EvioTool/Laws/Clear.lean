import EvioTool.Laws.Twins

namespace EvioTool

open Lib

structure BankInfo.Empty (i : BankInfo) : Prop where
  leafs : ∀ l ∈ i.leafs, l.2.data = []
  svt : i.cls.mapSVT SVTBank.clear = i.cls

namespace Bank

/-- All data is where `Clear` gets: there is none in the leaves of an SVT bank and in the
banks below it. -/
inductive Clearable : Bank → Prop
  | bank {i : BankInfo} {bs : List Bank} : i.cls = .bank → (∀ c ∈ bs, Clearable c) →
    Clearable (.node i bs)
  | svt {i : BankInfo} {bs : List Bank} : i.cls ≠ .bank → (∀ l ∈ i.leafs, l.2.data = []) →
    (∀ c ∈ bs, c.All BankInfo.Empty) → Clearable (.node i bs)

end Bank

variable {i : BankInfo} {b : Bank}

theorem LeafPtr.clear_blank_iff (l : LeafPtr) : l.blank = l.blank.clear ↔ l.2.data = [] := by
  obtain ⟨T, l⟩ := l
  constructor
  · intro h
    have hl := eq_of_heq (Sigma.mk.inj h).2
    exact congrArg Leaf.data hl
  · intro h
    simp only at h
    simp [blank, clear, Leaf.clear, h]

theorem BankInfo.leafs_empty_iff : i.leafs.map LeafPtr.blank =
    (i.leafs.map LeafPtr.blank).map LeafPtr.clear ↔ ∀ l ∈ i.leafs, l.2.data = [] := by
  rw [List.map_map, List.map_inj_left]
  simp only [Function.comp_apply, LeafPtr.clear_blank_iff]

theorem BankInfo.untagged_eq_shape_iff : i.untagged = i.shape ↔ i.Empty := by
  constructor
  · intro h
    exact ⟨leafs_empty_iff.mp (congrArg BankInfo.leafs h), (congrArg BankInfo.cls h).symm⟩
  · intro h
    simp only [shape, untagged, blank, ← leafs_empty_iff.mpr h.leafs, h.svt]

theorem Bank.untagged_eq_shape_iff : b.untagged = b.shape ↔ b.All BankInfo.Empty := by
  induction b using Rose.ind with
  | node i bs ih =>
    simp only [Bank.untagged, Bank.shape] at ih ⊢
    rw [Rose.map_node, Rose.map_node, Rose.node.injEq, BankInfo.untagged_eq_shape_iff,
      List.map_inj_left]
    constructor
    · rintro ⟨hi, hbs⟩
      exact .node hi fun c hc => (ih c hc).mp (hbs c hc)
    · rintro ⟨hi, hbs⟩
      exact ⟨hi, fun c hc => (ih c hc).mpr (hbs c hc)⟩

theorem BankClass.clear_clear (c : BankClass) :
    (c.mapSVT SVTBank.clear).mapSVT SVTBank.clear = c.mapSVT SVTBank.clear := by
  cases c <;> rfl

theorem Bank.clear_bank {bs : List Bank} (h : i.cls = .bank) :
    clear (.node i bs) = .node { i with leafs := i.leafs.map LeafPtr.clear } (bs.map clear) := by
  rw [clear, h, clearAll_eq]

theorem Bank.clear_svt {bs : List Bank} (h : i.cls ≠ .bank) :
    clear (.node i bs) = .node { i with cls := i.cls.mapSVT SVTBank.clear } bs := by
  rw [clear]
  cases hc : i.cls with
  | bank => exact absurd hc h
  | svtBank v | svtBank2016 v => rfl

theorem Bank.shape_clear : (clear b).shape = b.shape := by
  induction b using Rose.ind with
  | node i bs ih =>
    by_cases hc : i.cls = .bank
    · have hleafs : ((i.leafs.map LeafPtr.clear).map LeafPtr.blank).map LeafPtr.clear =
          (i.leafs.map LeafPtr.blank).map LeafPtr.clear := by
        simp only [List.map_map]
        rfl
      rw [clear_bank hc]
      simp only [Bank.shape, Rose.map_node, Rose.node.injEq, List.map_map, List.map_inj_left]
      exact ⟨by simp only [BankInfo.shape, BankInfo.untagged, BankInfo.blank, hleafs], ih⟩
    · rw [clear_svt hc]
      simp only [Bank.shape, Rose.map_node, BankInfo.shape, BankInfo.untagged, BankInfo.blank,
        BankClass.clear_clear]

theorem Bank.Clearable.of_empty (h : b.All BankInfo.Empty) : Clearable b := by
  induction b using Rose.ind with
  | node i bs ih =>
    obtain ⟨hi, hbs⟩ := h
    by_cases hc : i.cls = .bank
    · exact .bank hc fun c hcs => ih c hcs (hbs c hcs)
    · exact .svt hc hi.leafs hbs

theorem Bank.untagged_clear_iff : (clear b).untagged = b.shape ↔ Clearable b := by
  induction b using Rose.ind with
  | node i bs ih =>
    by_cases hc : i.cls = .bank
    · have hlabel : { i with leafs := i.leafs.map LeafPtr.clear }.untagged = i.shape := by
        simp only [BankInfo.shape, BankInfo.untagged, BankInfo.blank, hc, BankClass.mapSVT,
          List.map_map]
        rfl
      rw [clear_bank hc]
      simp only [Bank.untagged, Bank.shape] at ih ⊢
      simp only [Rose.map_node, Rose.node.injEq, hlabel, List.map_map, List.map_inj_left, true_and]
      constructor
      · exact fun h => .bank hc fun c hcs => (ih c hcs).mp (h c hcs)
      · rintro (⟨-, h⟩ | ⟨hne, -⟩)
        · exact fun c hcs => (ih c hcs).mpr (h c hcs)
        · exact absurd hc hne
    · rw [clear_svt hc]
      have hlabel : { i with cls := i.cls.mapSVT SVTBank.clear }.untagged = i.shape ↔
          ∀ l ∈ i.leafs, l.2.data = [] := by
        rw [← BankInfo.leafs_empty_iff]
        constructor
        · exact congrArg BankInfo.leafs
        · intro h
          simp only [BankInfo.shape, BankInfo.untagged, BankInfo.blank, ← h]
      have hsub (c : Bank) : c.map BankInfo.untagged = c.map BankInfo.shape ↔
          c.All BankInfo.Empty := untagged_eq_shape_iff
      simp only [Bank.untagged, Bank.shape, Rose.map_node, Rose.node.injEq, List.map_inj_left, hlabel,
        hsub]
      constructor
      · rintro ⟨hl, hs⟩
        exact .svt hc hl hs
      · rintro (⟨hb, -⟩ | ⟨-, hl, hs⟩)
        · exact absurd hb hc
        · exact ⟨hl, hs⟩

theorem Bank.shape_clearFull (b : Bank) : (clearFull b).shape = clearFull b.shape := by
  simp only [clearFull, Bank.shape, Rose.map_node, Rose.label_map, List.map_nil]
  rfl

end EvioTool
