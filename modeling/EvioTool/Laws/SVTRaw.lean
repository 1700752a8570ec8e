import EvioTool.Laws.SVTReads

namespace EvioTool

open Lib Exec

variable {mem : Mem} {words : List UInt32} {dat : Int} {b : BankInfo} {v : SVTBank}
  {l : Leaf (.prim .uint32)}

/-- Every run with enough steps returns, and appends `raw` to the leaf at `loc`, once. -/
def StoresOnce (b : BankInfo) (loc : Nat) (l : Leaf (.prim .uint32)) (raw : List UInt32)
    (m : Nat → Exec Halt Obs BankInfo Unit) : Prop :=
  ∃ F, ∀ fill, F ≤ fill → ∃ c, Returns (m fill) b () c ∧
    c.leafs[loc]? = some ⟨.prim .uint32, l.pushDataArray (raw.map UInt32.toBitVec)⟩

namespace SVTBank

theorem length_rawLeaf (hv : v.fStoreRaw = true) (raw : List UInt32) (n : Nat) :
    (v.rawLeaf raw n l).data.length = l.data.length + n * raw.length := by
  induction n with
  | zero => simp [rawLeaf]
  | succ n ih =>
    rw [rawLeaf, Function.iterate_succ_apply', ← rawLeaf, if_pos hv, Nat.succ_mul, ← Nat.add_assoc,
      ← ih, Leaf.pushDataArray, List.length_append]
    exact congrArg _ (List.length_map _)

theorem rawLeaf_one (hv : v.fStoreRaw = true) (raw : List UInt32) :
    v.rawLeaf raw 1 l = l.pushDataArray (raw.map UInt32.toBitVec) := if_pos hv

theorem rawLeaf_eq_iff (hv : v.fStoreRaw = true) {raw : List UInt32} (hraw : raw ≠ []) (n : Nat) :
    v.rawLeaf raw n l = l.pushDataArray (raw.map UInt32.toBitVec) ↔ n = 1 := by
  rw [← rawLeaf_one hv]
  constructor
  · intro h
    have hlen := congrArg (fun l => l.data.length) h
    simp only [length_rawLeaf hv] at hlen
    exact Nat.eq_of_mul_eq_mul_right (List.length_pos_of_ne_nil hraw) (Nat.add_left_cancel hlen)
  · rintro rfl
    rfl

theorem storesOnce_iff {lead trail : UInt32} {frames : List SVTFrame} (hb : b.HoldsSVT v l)
    (hv : v.fStoreRaw = true) (hm : mem.Holds dat (SVTFrame.payload lead frames trail))
    (hlen : (SVTFrame.payload lead frames trail).length < 2 ^ 31) :
    StoresOnce b v.svtLeaf l (SVTFrame.payload lead frames trail)
        (fun fill => v.pushDataArray mem fill dat (SVTFrame.payload lead frames trail).length) ↔
      frames.length = 1 := by
  have hne : SVTFrame.payload lead frames trail ≠ [] := nofun
  rw [← rawLeaf_eq_iff (l := l) hv hne]
  constructor
  · rintro ⟨F, hF⟩
    obtain ⟨c, hc, hleaf⟩ := hF (F + (SVTFrame.payload lead frames trail).length) (by omega)
    obtain ⟨d, hd, hdl⟩ := returns_payload hb hm hlen
      (F + (SVTFrame.payload lead frames trail).length) (by omega)
    obtain rfl := (hc.det hd).2
    have hraw : d.leafs[v.svtLeaf]? = _ := hdl.leaf
    rw [hleaf] at hraw
    have heq := Option.some.inj hraw
    simp only [Sigma.mk.injEq, heq_eq_eq, true_and] at heq
    exact heq.symm
  · intro h
    refine ⟨(SVTFrame.payload lead frames trail).length, fun fill hfill => ?_⟩
    obtain ⟨d, hd, hdl⟩ := returns_payload hb hm hlen fill hfill
    rw [h] at hdl
    exact ⟨d, hd, hdl.leaf⟩

end SVTBank

theorem SVTBank2016.storesOnce (hl : b.leafs[v.svtLeaf]? = some ⟨.prim .uint32, l⟩)
    (hv : v.fStoreRaw = true) (hm : mem.Holds dat words) (hlen : words.length < 2 ^ 31)
    (hend : words.length % 4 = 2) :
    StoresOnce b v.svtLeaf l words
      (fun fill => SVTBank2016.pushDataArray v mem fill dat words.length) := by
  refine ⟨words.length, fun fill hfill => ?_⟩
  obtain ⟨c, hc, hleaf⟩ := runs_pushDataArray hm hlen (.inr hend) hl hfill
  rw [SVTBank.rawLeaf_one hv] at hleaf
  exact ⟨c, hc.1, hleaf⟩

/-- The raw words of a payload of frames are stored once for each frame; those of a payload of
2015/16 records are stored once. -/
theorem svt_storesOnce_iff {lead trail : UInt32} {frames : List SVTFrame} (hb : b.HoldsSVT v l)
    (hv : v.fStoreRaw = true) (hm : mem.Holds dat (SVTFrame.payload lead frames trail))
    (hlen : (SVTFrame.payload lead frames trail).length < 2 ^ 31) :
    (StoresOnce b v.svtLeaf l (SVTFrame.payload lead frames trail)
        (fun fill => v.pushDataArray mem fill dat (SVTFrame.payload lead frames trail).length) ↔
      frames.length = 1) ∧
    ∀ (mem : Mem) (dat : Int) (words : List UInt32), mem.Holds dat words →
      words.length < 2 ^ 31 → words.length % 4 = 2 →
      StoresOnce b v.svtLeaf l words
        (fun fill => SVTBank2016.pushDataArray v mem fill dat words.length) :=
  ⟨SVTBank.storesOnce_iff hb hv hm hlen,
    fun _ _ _ hm hlen hend => SVTBank2016.storesOnce hb.leaf hv hm hlen hend⟩

def rawInfo : BankInfo := SVTBank.svtInfo { fStoreRaw := true }

theorem svt_storesOnce_oneSample :
    StoresOnce rawInfo 0 { name := "SVTLeaf", title := "", tag := 57648, num := 0 }
      (SVTFrame.payload 0 [SVTBank.oneSample] 0)
      (fun fill => SVTBank.pushDataArray { fStoreRaw := true }
        (Mem.ofList (SVTFrame.payload 0 [SVTBank.oneSample] 0)) fill 0
        (SVTFrame.payload 0 [SVTBank.oneSample] 0).length) :=
  (svt_storesOnce_iff (v := { fStoreRaw := true }) ⟨rfl, rfl⟩ rfl (Mem.holds_ofList _)
    (by decide)).1.mpr rfl

theorem svt_stores_per_frame :
    ¬StoresOnce rawInfo 0 { name := "SVTLeaf", title := "", tag := 57648, num := 0 }
        (SVTFrame.payload 0 [] 0)
        (fun fill => SVTBank.pushDataArray { fStoreRaw := true }
          (Mem.ofList (SVTFrame.payload 0 [] 0)) fill 0 (SVTFrame.payload 0 [] 0).length) ∧
      ¬StoresOnce rawInfo 0 { name := "SVTLeaf", title := "", tag := 57648, num := 0 }
        (SVTFrame.payload 0 [SVTBank.oneSample, SVTBank.oneSample] 0)
        (fun fill => SVTBank.pushDataArray { fStoreRaw := true }
          (Mem.ofList (SVTFrame.payload 0 [SVTBank.oneSample, SVTBank.oneSample] 0)) fill 0
          (SVTFrame.payload 0 [SVTBank.oneSample, SVTBank.oneSample] 0).length) := by
  have hiff (frames : List SVTFrame) (hlen : (SVTFrame.payload 0 frames 0).length < 2 ^ 31) :=
    SVTBank.storesOnce_iff (b := rawInfo) (v := { fStoreRaw := true }) ⟨rfl, rfl⟩ rfl
      (Mem.holds_ofList (SVTFrame.payload 0 frames 0)) hlen
  exact ⟨fun h => absurd ((hiff [] (by decide)).mp h) (by decide),
    fun h => absurd ((hiff [SVTBank.oneSample, SVTBank.oneSample] (by decide)).mp h) (by decide)⟩

end EvioTool
