import EvioTool.Laws.NameIndex

namespace EvioTool.BankInfo

open Lib

variable {b c d : BankInfo} {s n : String} {ns : List String} {loc : UInt16}

inductive Added : BankInfo → String → BankInfo → Prop
  | addLeaf (c : BankInfo) (T : ElemType) (name : String) (itag : UInt16) (inum : UInt8)
    (desc : String) :
    Added c (c.storeLocation name c.leafs.length).1 (c.addLeaf T name itag inum desc)
  | add_Leaf (c : BankInfo) (l : LeafPtr) :
    Added c (c.storeLocation l.2.name c.leafs.length).1 (c.add_Leaf l)
  | addThisLeaf (c : BankInfo) (l : LeafPtr) :
    Added c (c.storeLocation l.2.name c.leafs.length).1 (c.addThisLeaf l)

/-- Leaves are added one after the other, and are registered under these names. -/
inductive Adds : BankInfo → List String → BankInfo → Prop
  | nil (b : BankInfo) : Adds b [] b
  | cons {b c d : BankInfo} {n : String} {ns : List String} : Added b n c → Adds c ns d →
    Adds b (n :: ns) d

theorem storeLocation_fresh (b : BankInfo) (name : String) (location : Nat) :
    b.nameIndex.lookup (b.storeLocation name location).1 = none := by
  rw [List.lookup_eq_none_iff]
  intro e he
  have hfresh := freshName_not_mem (b.nameIndex.map Prod.fst) name
  refine bne_iff_ne.mpr fun heq => hfresh ?_
  rw [show freshName _ _ name = e.1 from heq]
  exact List.mem_map_of_mem he

theorem Added.cases (h : Added c n d) : c.nameIndex.lookup n = none ∧
    d.nameIndex = c.nameIndex ++ [(n, UInt16.ofNat c.leafs.length)] ∧
      ∃ l, d.leafs = c.leafs ++ [l] := by
  cases h with
  | addLeaf => exact ⟨storeLocation_fresh .., rfl, _, rfl⟩
  | add_Leaf => exact ⟨storeLocation_fresh .., rfl, _, rfl⟩
  | addThisLeaf => exact ⟨storeLocation_fresh .., rfl, _, rfl⟩

theorem Added.lookup (h : Added c n d) (hs : c.nameIndex.lookup s = some loc) :
    d.nameIndex.lookup s = some loc ∧ n ≠ s := by
  obtain ⟨hnone, hindex, -⟩ := h.cases
  refine ⟨?_, ?_⟩
  · rw [hindex, List.lookup_append, hs]
    rfl
  · rintro rfl
    rw [hs] at hnone
    cases hnone

theorem Adds.lookup (h : Adds c ns d) (hs : c.nameIndex.lookup s = some loc) :
    d.nameIndex.lookup s = some loc ∧ s ∉ ns := by
  induction h with
  | nil => exact ⟨hs, List.not_mem_nil⟩
  | cons hadd _ ih =>
    obtain ⟨hs, hne⟩ := hadd.lookup hs
    obtain ⟨hd, hns⟩ := ih hs
    exact ⟨hd, List.not_mem_cons_of_ne_of_not_mem hne.symm hns⟩

theorem Adds.leafs (h : Adds c ns d) : ∃ ls, d.leafs = c.leafs ++ ls ∧ ls.length = ns.length := by
  induction h with
  | nil => exact ⟨[], (List.append_nil _).symm, rfl⟩
  | cons hadd _ ih =>
    obtain ⟨-, -, l, hl⟩ := hadd.cases
    obtain ⟨ls, hls, hlen⟩ := ih
    refine ⟨l :: ls, ?_, congrArg Nat.succ hlen⟩
    rw [hls, hl, List.append_assoc, List.singleton_append]

/-- A call that fails registers a name for which there is no leaf.  Whatever is added
afterwards, the name is found at the location of the first leaf that is added, which was registered
under another one. -/
theorem addLeafOfType_failed (b : BankInfo) (name : String) (itag : UInt16) (inum : UInt8)
    (desc : String) (type : Int) (h : (b.addLeafOfType name itag inum desc type).1 = -1) :
    let c := (b.addLeafOfType name itag inum desc type).2
    c.leafs = b.leafs ∧ c.nameIndex ≠ b.nameIndex ∧
      ∃ s, b.findLeafByName s = none ∧ ∀ n ns d, c.Adds (n :: ns) d →
        (∃ ls, d.leafs = b.leafs ++ ls ∧ ls.length = (n :: ns).length) ∧ s ∉ n :: ns ∧
          (b.leafs.length < 65536 → d.findLeafByName s = some b.leafs.length) := by
  have htype : leafOfType type = none := by
    unfold addLeafOfType at h
    split at h
    · dsimp only at h
      omega
    · assumption
  simp only [addLeafOfType, htype]
  have hnone := b.storeLocation_fresh name b.leafs.length
  have hsome : (b.storeLocation name b.leafs.length).2.nameIndex.lookup
      (b.storeLocation name b.leafs.length).1 = some (UInt16.ofNat b.leafs.length) := by
    change List.lookup _ (b.nameIndex ++ [_]) = _
    rw [List.lookup_append, hnone]
    exact List.lookup_cons_self
  refine ⟨rfl, fun heq => ?_, (b.storeLocation name b.leafs.length).1, ?_, fun n ns d hadds => ?_⟩
  · rw [heq, hnone] at hsome
    cases hsome
  · rw [findLeafByName, hnone, Option.map_none]
  · obtain ⟨hd, hns⟩ := hadds.lookup hsome
    refine ⟨hadds.leafs, hns, fun hlen => ?_⟩
    rw [findLeafByName, hd, Option.map_some, UInt16.toNat_ofNat_of_lt' hlen]

def Leaf_Bank : Int := 1

theorem addLeafOfType_failed_emptyTop :
    let c := (emptyTop.label.addLeafOfType "Data" 5 0 "" Leaf_Bank).2
    c.leafs = [] ∧ c.nameIndex ≠ [] ∧
      ∃ s, emptyTop.label.findLeafByName s = none ∧ ∀ n ns d, c.Adds (n :: ns) d →
        s ∉ n :: ns ∧ d.findLeafByName s = some 0 := by
  obtain ⟨hleafs, hindex, s, hs, hadds⟩ :=
    addLeafOfType_failed emptyTop.label "Data" 5 0 "" Leaf_Bank rfl
  refine ⟨hleafs, hindex, s, hs, fun n ns d h => ?_⟩
  obtain ⟨-, hns, hfound⟩ := hadds n ns d h
  exact ⟨hns, hfound (by decide)⟩

theorem addLeafOfType_keeps_name :
    let (location, c) := emptyTop.label.addLeafOfType "Data" 5 0 "" Leaf_Bank
    location = -1 ∧ c.nameIndex ≠ emptyTop.label.nameIndex ∧
      let d := c.addLeaf .string "Text" 6 0 ""
      d.findLeafByName "Data" = some 0 ∧ d.leafs.map (fun l => l.2.name) = ["Text"] := by
  decide +kernel

end EvioTool.BankInfo
