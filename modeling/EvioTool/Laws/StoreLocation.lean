import EvioTool.Defs.StoreLocation
import EvioTool.Laws.FailedAdd

namespace EvioTool.BankInfo

variable {b c : BankInfo} {s n name : String} {location loc : UInt16} {k fuel : Nat}
  {call : LeafCall} {calls : List LeafCall}

theorem plus_succ (name : String) (k : Nat) : plus (name ++ "+") k = plus name (k + 1) := rfl

theorem freshName_eq {keys : List String} {n : Nat} (h : freshName keys n name ∉ keys) :
    ∃ k, freshName keys n name = plus name k ∧ ∀ j < k, plus name j ∈ keys := by
  induction n generalizing name with
  | zero => exact ⟨0, rfl, fun _ hj => absurd hj (Nat.not_lt_zero _)⟩
  | succ n ih =>
    rw [freshName] at h ⊢
    split at h <;> rename_i hname
    · rw [if_pos hname]
      obtain ⟨k, hk, hall⟩ := ih h
      refine ⟨k + 1, by rw [hk, plus_succ], fun j hj => ?_⟩
      cases j with
      | zero => exact List.contains_iff_mem.mp hname
      | succ j => exact plus_succ name j ▸ hall j (by omega)
    · rw [if_neg hname]
      exact ⟨0, rfl, fun _ hj => absurd hj (Nat.not_lt_zero _)⟩

theorem lookup_eq_none_iff :
    b.nameIndex.lookup s = none ↔ s ∉ b.nameIndex.map Prod.fst := by
  rw [List.lookup_eq_none_iff]
  simp only [bne_iff_ne, List.mem_map, not_exists, not_and]
  exact ⟨fun h e he heq => h e he heq.symm, fun h e he heq => h e he heq.symm⟩

theorem storeLocation_eq_plus (b : BankInfo) (name : String) (location : Nat) :
    ∃ k, (b.storeLocation name location).1 = plus name k ∧
      b.nameIndex.lookup (plus name k) = none ∧
      ∀ j < k, b.nameIndex.lookup (plus name j) ≠ none := by
  obtain ⟨k, hk, hall⟩ := freshName_eq (freshName_not_mem (b.nameIndex.map Prod.fst) name)
  have hstored : (b.storeLocation name location).1 = plus name k := hk
  refine ⟨k, hstored, ?_, fun j hj hnone => lookup_eq_none_iff.mp hnone (hall j hj)⟩
  rw [← hstored]
  exact storeLocation_fresh b name location

theorem StoreLocation_of_least (hnone : b.nameIndex.lookup (plus name k) = none)
    (hsome : ∀ j < k, b.nameIndex.lookup (plus name j) ≠ none) (hfuel : k < fuel) :
    b.StoreLocation fuel name location =
      some (plus name k, { b with nameIndex := b.nameIndex ++ [(plus name k, location)] }) := by
  induction k generalizing name fuel with
  | zero =>
    obtain ⟨fuel, rfl⟩ := Nat.exists_eq_add_of_le' hfuel
    have hname : b.nameIndex.lookup name = none := hnone
    rw [StoreLocation, hname]
    rfl
  | succ k ih =>
    obtain ⟨fuel, rfl⟩ := Nat.exists_eq_add_of_le' (show 1 ≤ fuel by omega)
    obtain ⟨loc, hname⟩ := Option.ne_none_iff_exists'.mp (hsome 0 (Nat.succ_pos k))
    have hname : b.nameIndex.lookup name = some loc := hname
    rw [StoreLocation, hname, ← plus_succ]
    exact ih hnone (fun j hj => hsome (j + 1) (by omega)) (by omega)

theorem nameIndex_storeLocation (b : BankInfo) (name : String) (location : Nat) :
    (b.storeLocation name location).2.nameIndex =
      b.nameIndex ++ [((b.storeLocation name location).1, UInt16.ofNat location)] := rfl

theorem LeafCall.nameIndex_exec (b : BankInfo) (c : LeafCall) :
    (c.exec b).nameIndex = b.nameIndex ++
      [((b.storeLocation c.name b.leafs.length).1, UInt16.ofNat b.leafs.length)] := by
  cases c with
  | addLeaf | add_Leaf | addThisLeaf => rfl
  | addLeafOfType name itag inum desc type =>
    rw [exec, BankInfo.addLeafOfType]
    cases leafOfType type <;> rfl

theorem lookup_append_singleton (hs : b.nameIndex.lookup s = none)
    (hc : c.nameIndex = b.nameIndex ++ [(s, location)]) :
    c.nameIndex.lookup s = some location ∧
      ∀ n ≠ s, c.nameIndex.lookup n = b.nameIndex.lookup n := by
  rw [hc]
  refine ⟨?_, fun n hn => ?_⟩
  · rw [List.lookup_append, hs]
    exact List.lookup_cons_self
  · have hlast : List.lookup n [(s, location)] = none :=
      List.lookup_eq_none_iff.mpr fun e he => by
        obtain rfl := List.mem_singleton.mp he
        exact bne_iff_ne.mpr hn
    rw [List.lookup_append, hlast, Option.or_none]

theorem LeafCall.lookup_exec (call : LeafCall) (hs : b.nameIndex.lookup s = some loc) :
    (call.exec b).nameIndex.lookup s = some loc ∧
      (b.storeLocation call.name b.leafs.length).1 ≠ s := by
  have hfresh := storeLocation_fresh b call.name b.leafs.length
  have hne : (b.storeLocation call.name b.leafs.length).1 ≠ s := by
    rintro rfl
    rw [hfresh] at hs
    cases hs
  exact ⟨((lookup_append_singleton hfresh (call.nameIndex_exec b)).2 s hne.symm).trans hs, hne⟩

theorem lookup_execAll (hs : b.nameIndex.lookup s = some loc) :
    (b.execAll calls).nameIndex.lookup s = some loc ∧ s ∉ b.storedNames calls := by
  induction calls generalizing b with
  | nil => exact ⟨hs, List.not_mem_nil⟩
  | cons call calls ih =>
    obtain ⟨hcall, hne⟩ := call.lookup_exec hs
    obtain ⟨hall, hnot⟩ := ih hcall
    exact ⟨hall, List.not_mem_cons_of_ne_of_not_mem hne.symm hnot⟩

theorem nodup_storedNames (b : BankInfo) (calls : List LeafCall) :
    (b.storedNames calls).Nodup := by
  induction calls generalizing b with
  | nil => exact List.nodup_nil
  | cons call calls ih =>
    have hfresh := storeLocation_fresh b call.name b.leafs.length
    have hstored := (lookup_append_singleton hfresh (call.nameIndex_exec b)).1
    exact List.nodup_cons.mpr ⟨(lookup_execAll hstored).2, ih (call.exec b)⟩

theorem lookup_storedNames (b : BankInfo) (h : (b.storedNames calls)[k]? = some n) :
    (b.execAll (calls.take k)).nameIndex.lookup n = none ∧
      ∀ j, k < j → (b.execAll (calls.take j)).nameIndex.lookup n =
        some (UInt16.ofNat (b.execAll (calls.take k)).leafs.length) := by
  induction calls generalizing b k with
  | nil => simp [storedNames] at h
  | cons call calls ih =>
    cases k with
    | zero =>
      obtain rfl := Option.some.inj h
      have hfresh := storeLocation_fresh b call.name b.leafs.length
      have hstored := (lookup_append_singleton hfresh (call.nameIndex_exec b)).1
      refine ⟨hfresh, fun j hj => ?_⟩
      obtain ⟨j, rfl⟩ := Nat.exists_eq_add_of_le' hj
      exact (lookup_execAll hstored).1
    | succ k =>
      obtain ⟨hnone, hfound⟩ := ih (call.exec b) h
      refine ⟨hnone, fun j hj => ?_⟩
      obtain ⟨j, rfl⟩ := Nat.exists_eq_add_of_le' (show 1 ≤ j by omega)
      exact hfound j (by omega)

/-- `StoreLocation` ends with the first name behind `name` that is new, and stores the location
there and nowhere else.  Names that are stored by calls that add leaves are distinct, and each
keeps its location. -/
theorem StoreLocation_least (b : BankInfo) :
    (∀ name (location : UInt16), ∃ k c,
      (∀ fuel, k < fuel → b.StoreLocation fuel name location = some (plus name k, c)) ∧
      b.nameIndex.lookup (plus name k) = none ∧
      (∀ j < k, b.nameIndex.lookup (plus name j) ≠ none) ∧
      c.nameIndex.lookup (plus name k) = some location ∧
      (∀ n ≠ plus name k, c.nameIndex.lookup n = b.nameIndex.lookup n) ∧
      c = { b with nameIndex := c.nameIndex } ∧
      b.storeLocation name location.toNat = (plus name k, c)) ∧
    ∀ calls, (b.storedNames calls).Nodup ∧
      (∀ k n, (b.storedNames calls)[k]? = some n →
        (b.execAll (calls.take k)).nameIndex.lookup n = none ∧
        ∀ j, k < j → (b.execAll (calls.take j)).nameIndex.lookup n =
          some (UInt16.ofNat (b.execAll (calls.take k)).leafs.length)) ∧
      ∀ n loc, b.nameIndex.lookup n = some loc →
        ∀ j, (b.execAll (calls.take j)).nameIndex.lookup n = some loc := by
  refine ⟨fun name location => ?_, fun calls => ⟨nodup_storedNames b calls, ?_, ?_⟩⟩
  · obtain ⟨k, hk, hnone, hsome⟩ := storeLocation_eq_plus b name location.toNat
    have hc : ({ b with nameIndex := b.nameIndex ++ [(plus name k, location)] } : BankInfo).nameIndex =
        b.nameIndex ++ [(plus name k, location)] := rfl
    obtain ⟨hfound, hother⟩ := lookup_append_singleton hnone hc
    refine ⟨k, _, fun fuel => StoreLocation_of_least hnone hsome, hnone, hsome, hfound, hother,
      rfl, ?_⟩
    have hindex := nameIndex_storeLocation b name location.toNat
    rw [hk, UInt16.ofNat_toNat] at hindex
    exact Prod.ext hk (congrArg (fun index => { b with nameIndex := index }) hindex)
  · exact fun k n => lookup_storedNames b
  · exact fun n loc h j => (lookup_execAll h).1

example : ((emptyTop.label.execAll [.addLeaf .fadc "A" 1 0 "", .addLeaf .fadc "A" 2 0 "",
    .addLeafOfType "A+" 3 0 "" 2]).nameIndex.lookup "A++") = some 2 := by decide

end EvioTool.BankInfo
