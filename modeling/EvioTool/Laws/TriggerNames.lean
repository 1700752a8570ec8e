import Mathlib.Data.List.Nodup
import EvioTool.Laws.TSBank

namespace EvioTool.TSBank

open Lib

variable {names : NameTable} {q : NameQuery} {qs : List NameQuery} {num : UInt8} {name : Str}

theorem insertIfNew_of_mem {α β : Type} {cmp : α → α → Ordering} {t : Std.TreeMap α β cmp} {k : α}
    {v : β} (h : k ∈ t) : t.insertIfNew k v = t := by
  obtain ⟨⟨t, wf⟩⟩ := t
  have hk : @Std.DTreeMap.Internal.Impl.contains α (fun _ => β) ⟨cmp⟩ k t = true := h
  simp only [Std.TreeMap.insertIfNew, Std.DTreeMap.insertIfNew,
    Std.DTreeMap.Internal.Impl.insertIfNew, hk, if_true]

theorem nodup_numbers : (TriggerNames.toList.map Prod.snd).Nodup := by decide +kernel

theorem number_lt {k : UInt8} (h : TriggerNames[name]? = some k) : k.toNat < 20 := by
  have hall : ∀ e ∈ TriggerNames.toList, e.2.toNat < 20 := by decide +kernel
  exact hall _ (Std.TreeMap.mem_toList_iff_getElem?_eq_some.mpr h)

theorem name_unique {s : Str} (h : TriggerNames[name]? = some num)
    (hs : TriggerNames[s]? = some num) : s = name := by
  have hmem := Std.TreeMap.mem_toList_iff_getElem?_eq_some.mpr h
  have hmem' := Std.TreeMap.mem_toList_iff_getElem?_eq_some.mpr hs
  exact congrArg Prod.fst (List.inj_on_of_nodup_map nodup_numbers hmem' hmem rfl)

/-- The answer that is asked for, by the initial table. -/
def NameQuery.Right : NameQuery → Bool ⊕ Str → Prop
  | isTrigger uninit data name, .inl answer =>
    answer ↔ ∃ k, TriggerNames[name]? = some k ∧ bit k.toNat (getTriggerInt uninit data)
  | getTriggerName num, .inr answer =>
    (TriggerNames[answer]? = some num ∧ ∀ s : Str, TriggerNames[s]? = some num → s = answer) ∨
      (answer = str "NA" ∧ ∀ s : Str, TriggerNames[s]? ≠ some num)
  | _, _ => False

def NameQuery.Known : NameQuery → Prop
  | isTrigger _ _ name => name ∈ TriggerNames
  | getTriggerName _ => True

theorem exec_table_of_known (h : q.Known) : (q.exec TriggerNames).2 = TriggerNames := by
  cases q with
  | isTrigger uninit data name =>
    simp only [NameQuery.exec, isTriggerNamed, Std.TreeMap.getThenInsertIfNew?_snd]
    exact insertIfNew_of_mem h
  | getTriggerName num => rfl

theorem size_exec (names : NameTable) (q : NameQuery) :
    names.size ≤ (q.exec names).2.size ∧
      ((q.exec names).2.size = names.size → (q.exec names).2 = names) := by
  cases q with
  | isTrigger uninit data name =>
    simp only [NameQuery.exec, isTriggerNamed, Std.TreeMap.getThenInsertIfNew?_snd,
      Std.TreeMap.size_insertIfNew]
    by_cases h : name ∈ names
    · simp [h, insertIfNew_of_mem h]
    · simp [h]
  | getTriggerName num => exact ⟨le_rfl, fun _ => rfl⟩

theorem right_of_known (h : q.Known) : q.Right (q.exec TriggerNames).1 := by
  cases q with
  | isTrigger uninit data name =>
    obtain ⟨k, hk⟩ : ∃ k, TriggerNames[name]? = some k := by
      exact Option.isSome_iff_exists.mp (Std.TreeMap.isSome_getElem?_iff_mem.mpr h)
    have h32 : k.toUInt32.toNat < 32 := by
      have := number_lt hk
      rw [UInt8.toNat_toUInt32]
      omega
    simp only [NameQuery.exec, isTriggerNamed, Std.TreeMap.getThenInsertIfNew?_fst, hk,
      NameQuery.Right, Option.getD_some, bne_iff_ne, ne_eq, and_shift_eq_zero_iff h32,
      UInt8.toNat_toUInt32, Bool.not_eq_false]
    constructor
    · exact fun hbit => ⟨k, rfl, hbit⟩
    · rintro ⟨_, hk', hbit⟩
      exact Option.some.inj hk' ▸ hbit
  | getTriggerName num =>
    simp only [NameQuery.exec, NameQuery.Right, TSBank.getTriggerName]
    split
    · rename_i e he
      obtain rfl : e.2 = num := by simpa using List.find?_some he
      have hname : TriggerNames[e.1]? = some e.2 :=
        Std.TreeMap.mem_toList_iff_getElem?_eq_some.mp (List.mem_of_find?_eq_some he)
      exact .inl ⟨hname, fun s hs => name_unique hname hs⟩
    · rename_i hnone
      refine .inr ⟨rfl, fun s hs => ?_⟩
      have := List.find?_eq_none.mp hnone _ (Std.TreeMap.mem_toList_iff_getElem?_eq_some.mpr hs)
      simp at this

theorem runQueries_cons (names : NameTable) (q : NameQuery) (qs : List NameQuery) :
    runQueries names (q :: qs) =
      ((q.exec names).1 :: (runQueries (q.exec names).2 qs).1,
        (runQueries (q.exec names).2 qs).2) := rfl

theorem size_runQueries (qs : List NameQuery) (names : NameTable) :
    names.size ≤ (runQueries names qs).2.size := by
  induction qs generalizing names with
  | nil => exact le_rfl
  | cons q qs ih => exact (size_exec names q).1.trans (ih _)

theorem known_of_exec (h : (q.exec TriggerNames).2 = TriggerNames) : q.Known := by
  cases q with
  | isTrigger uninit data name =>
    simp only [NameQuery.exec, isTriggerNamed, Std.TreeMap.getThenInsertIfNew?_snd] at h
    have hmem : name ∈ TriggerNames.insertIfNew name 0 :=
      Std.TreeMap.mem_insertIfNew.mpr (.inl Std.ReflCmp.compare_self)
    rwa [h] at hmem
  | getTriggerName num => trivial

/-- The table keeps its contents and every answer is right exactly when all names that are
asked for are in the table. -/
theorem runQueries_pure_iff (qs : List NameQuery) :
    ((runQueries TriggerNames qs).2 = TriggerNames ∧
      List.Forall₂ NameQuery.Right qs (runQueries TriggerNames qs).1) ↔ ∀ q ∈ qs, q.Known := by
  induction qs with
  | nil => simp [runQueries]
  | cons q qs ih =>
    rw [List.forall_mem_cons, ← ih]
    constructor
    · rintro ⟨htable, hright⟩
      have hsize := (size_exec TriggerNames q).1.antisymm
        ((size_runQueries qs _).trans (congrArg Std.TreeMap.size htable).le)
      have hkept := (size_exec TriggerNames q).2 hsize.symm
      rw [runQueries_cons, hkept] at htable hright
      exact ⟨known_of_exec hkept, htable, (List.forall₂_cons.mp hright).2⟩
    · rintro ⟨hq, htable, hright⟩
      rw [runQueries_cons, exec_table_of_known hq]
      exact ⟨htable, .cons (right_of_known hq) hright⟩

theorem runQueries_not_pure :
    (runQueries TriggerNames [.isTrigger 0 [] (str "A"), .getTriggerName 0]).1 =
        [.inl false, .inr (str "A")] ∧
      ¬((runQueries TriggerNames [.isTrigger 0 [] (str "A"), .getTriggerName 0]).2 = TriggerNames ∧
        List.Forall₂ NameQuery.Right [.isTrigger 0 [] (str "A"), .getTriggerName 0]
          (runQueries TriggerNames [.isTrigger 0 [] (str "A"), .getTriggerName 0]).1) := by
  refine ⟨by decide +kernel, ?_⟩
  rintro ⟨htable, -⟩
  have hsize := congrArg Std.TreeMap.size htable
  revert hsize
  decide +kernel

end EvioTool.TSBank
