import EvioTool.Laws.AddOrFillLeaf
import EvioTool.Laws.Reads

namespace EvioTool

open Lib Exec

variable {set : Settings} {mem : Mem} {fill n : Nat} {buf : Int} {bankType : Nat} {depth : Int}
  {b c : Bank} {h : Header} {r : Int}

@[simp] theorem returns_onLabel {m : Exec Halt Obs BankInfo α} {a : α} :
    Returns (onLabel m) b a c ↔ ∃ i, Returns m b.label a i ∧ c = b.setLabel i := by
  simp [onLabel]

@[simp] theorem returns_onSub {m : Exec Halt Obs Bank α} {a : α} {i : Nat} :
    Returns (onSub i m) b a c ↔ ∃ x y, b.subs[i]? = some x ∧ Returns m x a y ∧ c = b.setSub i y := by
  simp [onSub]

@[simp] theorem returns_readLength {σ : Type} {s t : σ} {a : Int} {w : UInt32} {contentType : Nat} :
    Returns (readLength mem contentType a) s w t ↔
      ∃ v, mem a = some v ∧ w = v &&& childMask contentType ∧ t = s := by
  simp [readLength, and_assoc]

def leafCount (h : Header) (k d : Int) : Int := (h.length - h.dataOffset) * k - d

theorem returns_parseBank_leaf {T : ElemType} {k d : Int}
    (hh : headerAt mem buf bankType = some h)
    (hl : leafCase h.contentType h.padding = some (T, k, d)) :
    Returns (parseBank set mem fill (n + 1) buf bankType depth) b r c ↔
      (FitsInt (h.length - h.dataOffset) ∧ FitsInt ((h.length - h.dataOffset) * k) ∧
        FitsInt (leafCount h k d)) ∧
      ∃ i, Returns (fillSwitch set mem fill T (buf + h.dataOffset) (leafCount h k d) h)
        b.label r i ∧ c = b.setLabel i := by
  rw [parseBank]
  simp [returns_readHeader hh, hl, leafCount, and_assoc]

theorem logs_containerNodeHandler {P : Obs → Prop} {tag : UInt16} {num : UInt8} :
    Logs P (containerNodeHandler set tag num depth) b := by
  unfold containerNodeHandler
  split
  · exact logs_modify.bind fun _ _ _ => logs_pure
  · refine logs_gets.bind fun loc _ _ => logs_gets.bind fun n _ _ => ?_
    split
    · exact (Logs.zoom fun _ => logs_modify).bind fun _ _ _ => logs_pure
    · exact logs_modify.bind fun _ _ _ =>
        (Logs.zoom fun _ => logs_modify).bind fun _ _ _ => logs_pure
    · exact logs_pure

theorem logs_onTarget {P : Obs → Prop} {x : Option Target} {m : Exec Halt Obs Bank α}
    (hm : ∀ c, Logs P m c) : Logs P (onTarget x m) b := by
  unfold onTarget
  split
  · exact Logs.zoom hm
  · exact hm b

theorem logs_return_ {P : Obs → Prop} {σ : Type} {s : σ} {stat : Int} (h : P (.returned stat)) :
    Logs P (return_ stat) s :=
  (logs_tell.mpr h).bind fun _ _ _ => logs_pure

theorem logs_parseBank {P : Obs → Prop} (hread : Logs P (readHeader mem buf bankType) b)
    (hret : ∀ stat, P (.returned stat))
    (hleaf : ∀ h T k d, headerAt mem buf bankType = some h →
      leafCase h.contentType h.padding = some (T, k, d) →
      Logs P (fillSwitch set mem fill T (buf + h.dataOffset) (leafCount h k d) h) b.label)
    (hcont : ∀ h, headerAt mem buf bankType = some h →
      leafCase h.contentType h.padding = none → isContainer h.contentType = true →
      ∀ live c, Logs P (children set mem fill n live (buf + h.dataOffset)
        (h.length - h.dataOffset) h.contentType (depth + 1) 0) c) :
    Logs P (parseBank set mem fill (n + 1) buf bankType depth) b := by
  rw [parseBank]
  refine hread.bind fun x t hx => ?_
  obtain ⟨rfl, rfl⟩ := returns_readHeader_inv hx
  cases hh : headerAt mem buf bankType with
  | none => exact logs_return_ (hret _)
  | some h =>
    refine (logs_int32 _).bind fun len t hlen => ?_
    obtain ⟨-, rfl, rfl⟩ := returns_int32.mp hlen
    cases hl : leafCase h.contentType h.padding with
    | some r =>
      obtain ⟨T, k, d⟩ := r
      refine ((logs_int32 _).bind fun _ _ _ => logs_int32 _).bind fun m t hm => ?_
      obtain ⟨-, -, rfl, rfl⟩ := returns_elemCount.mp hm
      refine Logs.bind (logs_zoom.mpr ?_) fun _ _ _ => logs_return_ (hret _)
      rintro _ ⟨⟩
      exact hleaf h T k d hh hl
    | none =>
      dsimp only
      split
      · exact logs_containerNodeHandler.bind fun _ _ _ =>
          (logs_onTarget (hcont h hh hl ‹_› _)).bind fun _ _ _ => logs_return_ (hret _)
      · exact logs_return_ (hret _)

theorem returns_parseBank_container (hh : headerAt mem buf bankType = some h)
    (hl : leafCase h.contentType h.padding = none) (hc : isContainer h.contentType = true) :
    Returns (parseBank set mem fill (n + 1) buf bankType depth) b r c ↔
      FitsInt (h.length - h.dataOffset) ∧ ∃ x d,
        Returns (containerNodeHandler set h.tag h.num depth) b x d ∧
        Returns (onTarget x (children set mem fill n x.isSome (buf + h.dataOffset)
          (h.length - h.dataOffset) h.contentType (depth + 1) 0)) d () c ∧ r = 0 := by
  rw [parseBank]
  simp [returns_readHeader hh, hl, hc, Unique.exists_iff]

theorem returns_children {live : Bool} {data bankLen p : Int} {contentType : Nat} :
    Returns (children set mem fill (n + 1) live data bankLen contentType depth p) b () c ↔
      if p < bankLen then ∃ d,
        Returns (when live (parseBank set mem fill n (data + p) contentType depth)) b () d ∧
        ∃ w, Returns (readLength mem contentType (data + p)) d w d ∧
          Returns (children set mem fill n live data bankLen contentType depth (nextPos p w)) d () c
      else c = b := by
  rw [children]
  split <;> simp [Unique.exists_iff, and_assoc]

@[simp] theorem checkTag_setTag {i : BankInfo} {tag t : UInt16} {num : UInt8} :
    (i.setTag tag num).checkTag t = i.checkTag t := rfl

@[simp] theorem label_setLabel {u : Bank} {i : BankInfo} : (u.setLabel i).label = i := by
  cases u
  rfl

theorem returns_parseEvioBuff_pass {fuel : Nat} (hh : headerAt mem 0 0x10 = some h)
    (hc : h.contentType = 0x10 ∨ h.contentType = 0xE) (hpass : b.label.checkTag h.tag = true)
    (hr : Returns (parseBank set mem fill fuel 0 0x10 0) (b.setLabel (b.label.setTag h.tag h.num))
      r c) :
    Returns (parseEvioBuff set mem fill fuel) b 0 c := by
  simp only [headerAt, Option.bind_eq_some_iff, Option.map_eq_some_iff, zero_add] at hh
  obtain ⟨w0, h0, w1, h1, rfl⟩ := hh
  refine (returns_readWord.mpr ⟨h1, rfl⟩).bind ((returns_modify (r := ())).mpr rfl |>.bind
    ((returns_gets.mpr ⟨rfl, rfl⟩).bind ?_))
  simp only [bankHeader] at hc hpass hr
  rw [if_neg (by tauto), if_neg (by simp [hpass])]
  exact hr.bind (by simp)

end EvioTool
