import Mathlib.Data.List.Induction
import Mathlib.Data.List.Nodup

/-! First fit: an arrival joins the first group that fits it, or starts one of its own. -/

namespace EvioTool.Lib

variable {κ V L : Type}

def firstFit (fits : κ → κ → Bool) (ks : List κ) : List κ :=
  ks.foldl (fun cs k => if cs.any fun c => fits c k then cs else cs ++ [k]) []

def classOf (fits : κ → κ → Bool) (ks : List κ) (k : κ) : Option κ :=
  (firstFit fits ks).find? fun c => fits c k

section Classes

variable {fits : κ → κ → Bool} {ks : List κ} {c k : κ}

theorem firstFit_concat : firstFit fits (ks ++ [k]) =
    if (firstFit fits ks).any fun c => fits c k then firstFit fits ks
    else firstFit fits ks ++ [k] := by
  rw [firstFit, List.foldl_append]
  rfl

theorem fits_of_classOf (h : classOf fits ks k = some c) : fits c k = true :=
  List.find?_some (p := fun c => fits c k) h

theorem mem_of_classOf (h : classOf fits ks k = some c) : c ∈ firstFit fits ks :=
  List.mem_of_find?_eq_some h

theorem not_fits_of_classOf (h : classOf fits ks k = none) (hc : c ∈ firstFit fits ks) :
    ¬fits c k = true := List.find?_eq_none.mp h c hc

theorem firstFit_concat_of_some (h : classOf fits ks k = some c) :
    firstFit fits (ks ++ [k]) = firstFit fits ks := by
  have hany : ((firstFit fits ks).any fun c => fits c k) = true :=
    List.any_eq_true.mpr ⟨c, mem_of_classOf h, fits_of_classOf h⟩
  rw [firstFit_concat, if_pos hany]

theorem firstFit_concat_of_none (h : classOf fits ks k = none) :
    firstFit fits (ks ++ [k]) = firstFit fits ks ++ [k] := by
  rw [firstFit_concat, if_neg]
  rw [List.any_eq_true]
  rintro ⟨c, hc, hfit⟩
  exact not_fits_of_classOf h hc hfit

theorem prefix_firstFit (l : κ) : firstFit fits ks <+: firstFit fits (ks ++ [l]) := by
  rw [firstFit_concat]
  split
  · exact List.prefix_rfl
  · exact List.prefix_append _ _

theorem classOf_concat {l : κ} (h : classOf fits ks k = some c) :
    classOf fits (ks ++ [l]) k = some c := by
  obtain ⟨cs, hcs⟩ : firstFit fits ks <+: firstFit fits (ks ++ [l]) := prefix_firstFit l
  have h' : (firstFit fits ks).find? (fun c => fits c k) = some c := h
  rw [classOf, ← hcs, List.find?_append, h']
  rfl

variable (hrefl : ∀ k, fits k k = true)

include hrefl

theorem classOf_concat_self (h : classOf fits ks k = none) :
    classOf fits (ks ++ [k]) k = some k := by
  have h' : (firstFit fits ks).find? (fun c => fits c k) = none := h
  rw [classOf, firstFit_concat_of_none h, List.find?_append, h']
  simp [hrefl]

theorem classOf_isSome (hk : k ∈ ks) : (classOf fits ks k).isSome := by
  induction ks using List.reverseRecOn with
  | nil => cases hk
  | append_singleton ks l ih =>
    by_cases hmem : k ∈ ks
    · obtain ⟨c, hc⟩ := Option.isSome_iff_exists.mp (ih hmem)
      rw [classOf_concat hc]
      rfl
    · obtain rfl : k = l := by simpa [hmem] using hk
      cases h : classOf fits ks k with
      | none => rw [classOf_concat_self hrefl h]; rfl
      | some c => rw [classOf_concat h]; rfl

theorem classOf_key (hc : c ∈ firstFit fits ks) : c ∈ ks ∧ classOf fits ks c = some c := by
  induction ks using List.reverseRecOn with
  | nil => cases hc
  | append_singleton ks l ih =>
    cases h : classOf fits ks l with
    | some d =>
      rw [firstFit_concat_of_some h] at hc
      exact ⟨List.mem_append_left _ (ih hc).1, classOf_concat (ih hc).2⟩
    | none =>
      rw [firstFit_concat_of_none h, List.mem_append, List.mem_singleton] at hc
      obtain hc | rfl := hc
      · exact ⟨List.mem_append_left _ (ih hc).1, classOf_concat (ih hc).2⟩
      · exact ⟨by simp, classOf_concat_self hrefl h⟩

theorem mem_firstFit_iff : c ∈ firstFit fits ks ↔ ∃ k ∈ ks, classOf fits ks k = some c :=
  ⟨fun h => ⟨c, (classOf_key hrefl h).1, (classOf_key hrefl h).2⟩,
    fun ⟨_, _, h⟩ => mem_of_classOf h⟩

theorem nodup_firstFit : (firstFit fits ks).Nodup := by
  induction ks using List.reverseRecOn with
  | nil => exact List.nodup_nil
  | append_singleton ks l ih =>
    rw [firstFit_concat]
    split <;> rename_i h
    · exact ih
    · refine List.nodup_append.mpr ⟨ih, List.nodup_singleton _, fun a ha b hb hab => h ?_⟩
      obtain rfl := List.mem_singleton.mp hb
      exact List.any_eq_true.mpr ⟨a, ha, by rw [hab]; exact hrefl _⟩

end Classes

theorem findIdx?_congr {p q : L → Bool} {ls : List L} (h : ∀ l ∈ ls, p l = q l) :
    ls.findIdx? p = ls.findIdx? q := by
  induction ls with
  | nil => rfl
  | cons l ls ih =>
    rw [List.findIdx?_cons, List.findIdx?_cons, h l (by simp), ih fun m hm => h m (by simp [hm])]

def part [DecidableEq κ] (fits : κ → κ → Bool) (arrivals : List (κ × V)) (c : κ) : List V :=
  (arrivals.filter fun a => classOf fits (arrivals.map Prod.fst) a.1 = some c).map Prod.snd

/-- `ls` are the groups of the arrivals, and hold what these bring. -/
structure Grouped [DecidableEq κ] (fits : κ → κ → Bool) (key : L → κ) (Holds : L → List V → Prop)
    (arrivals : List (κ × V)) (ls : List L) : Prop where
  keys : ls.map key = firstFit fits (arrivals.map Prod.fst)
  holds : ∀ l ∈ ls, Holds l (part fits arrivals (key l))

namespace Grouped

variable [DecidableEq κ] {fits : κ → κ → Bool} {key : L → κ} {Holds : L → List V → Prop}
  {arrivals : List (κ × V)} {ls : List L} {l l' : L} {k c : κ} {v : V} {i : Nat}

theorem part_concat (hrefl : ∀ k, fits k k = true) :
    part fits (arrivals ++ [(k, v)]) c = part fits arrivals c ++
      if classOf fits (arrivals.map Prod.fst ++ [k]) k = some c then [v] else [] := by
  have hold : ∀ a ∈ arrivals, classOf fits (arrivals.map Prod.fst ++ [k]) a.1 =
      classOf fits (arrivals.map Prod.fst) a.1 := by
    intro a ha
    obtain ⟨d, hd⟩ := Option.isSome_iff_exists.mp
      (classOf_isSome hrefl (List.mem_map_of_mem (f := Prod.fst) ha))
    rw [hd, classOf_concat hd]
  have hfilter : (arrivals.filter fun a =>
      classOf fits (arrivals.map Prod.fst ++ [k]) a.1 = some c) = arrivals.filter fun a =>
      classOf fits (arrivals.map Prod.fst) a.1 = some c :=
    List.filter_congr fun a ha => by rw [hold a ha]
  simp only [part, List.map_append, List.map_cons, List.map_nil, List.filter_append, hfilter]
  congr 1
  simp only [List.filter_cons, List.filter_nil]
  split <;> simp_all

theorem find (h : Grouped fits key Holds arrivals ls) :
    (ls.find? fun l => fits (key l) k).map key = classOf fits (arrivals.map Prod.fst) k := by
  rw [classOf, ← h.keys, List.find?_map]
  rfl

theorem classOf_found (h : Grouped fits key Holds arrivals ls)
    (hi : ls.findIdx? (fun l => fits (key l) k) = some i) (hl : ls[i]? = some l) :
    classOf fits (arrivals.map Prod.fst) k = some (key l) := by
  obtain ⟨hlt, hfit, hfirst⟩ := List.findIdx?_eq_some_iff_getElem.mp hi
  have hfind : (ls.find? fun l => fits (key l) k) = some l :=
    List.find?_eq_some_iff_getElem.mpr ⟨by simp_all, i, hlt, by simpa [hlt] using hl,
      fun j hj => by simpa using hfirst j hj⟩
  rw [← h.find, hfind]
  rfl

theorem found (hrefl : ∀ k, fits k k = true) (h : Grouped fits key Holds arrivals ls)
    (hi : ls.findIdx? (fun l => fits (key l) k) = some i) (hl : ls[i]? = some l)
    (hkey : key l' = key l) (hl' : Holds l' (part fits arrivals (key l) ++ [v])) :
    Grouped fits key Holds (arrivals ++ [(k, v)]) (ls.set i l') := by
  have hclass := h.classOf_found hi hl
  obtain ⟨hlt, rfl⟩ := List.getElem?_eq_some_iff.mp hl
  have hnodup : (ls.map key).Nodup := h.keys ▸ nodup_firstFit hrefl
  constructor
  · rw [List.map_set, hkey, List.map_append, List.map_singleton, firstFit_concat_of_some hclass,
      ← h.keys]
    apply List.ext_getElem <;> simp [List.getElem_set]
    rintro j hj rfl
    rfl
  · intro x hx
    obtain ⟨j, hj, rfl⟩ := List.getElem_of_mem hx
    rw [List.length_set] at hj
    rw [part_concat hrefl, classOf_concat hclass, List.getElem_set]
    split <;> rename_i hij
    · rw [hkey, if_pos rfl]
      exact hl'
    · have hne : key ls[i] ≠ key ls[j] := by
        intro heq
        have hi' : i < (ls.map key).length := by simpa
        have hj' : j < (ls.map key).length := by simpa
        refine hij (hnodup.getElem_inj_iff.mp (?_ : (ls.map key)[i] = (ls.map key)[j]))
        simpa using heq
      rw [if_neg (by simpa using hne), List.append_nil]
      exact h.holds _ (List.getElem_mem hj)

theorem classOf_fresh (h : Grouped fits key Holds arrivals ls)
    (hi : ls.findIdx? (fun l => fits (key l) k) = none) :
    classOf fits (arrivals.map Prod.fst) k = none := by
  have hnone := List.findIdx?_eq_none_iff.mp hi
  rw [← h.find, List.find?_eq_none.mpr fun l hl => by simpa using hnone l hl]
  rfl

theorem part_fresh (hrefl : ∀ k, fits k k = true) (h : classOf fits (arrivals.map Prod.fst) k = none) :
    part fits arrivals k = [] := by
  rw [part, List.map_eq_nil_iff, List.filter_eq_nil_iff]
  intro a _ hk
  exact not_fits_of_classOf h (mem_of_classOf (of_decide_eq_true hk)) (hrefl k)

theorem new (hrefl : ∀ k, fits k k = true) (h : Grouped fits key Holds arrivals ls)
    (hi : ls.findIdx? (fun l => fits (key l) k) = none) (hkey : key l' = k) (hl' : Holds l' [v]) :
    Grouped fits key Holds (arrivals ++ [(k, v)]) (ls ++ [l']) := by
  have hclass := h.classOf_fresh hi
  constructor
  · rw [List.map_append, List.map_append, List.map_singleton, List.map_singleton, hkey,
      firstFit_concat_of_none hclass, h.keys]
  · intro x hx
    rw [part_concat hrefl, classOf_concat_self hrefl hclass]
    obtain hx | hx := List.mem_append.mp hx
    · have hfresh : k ≠ key x := by
        intro heq
        have hmem : key x ∈ firstFit fits (arrivals.map Prod.fst) := h.keys ▸ List.mem_map_of_mem hx
        exact not_fits_of_classOf hclass hmem (heq ▸ hrefl k)
      rw [if_neg (by simpa using hfresh), List.append_nil]
      exact h.holds x hx
    · obtain rfl := List.mem_singleton.mp hx
      rw [hkey, part_fresh hrefl hclass, if_pos rfl]
      exact hl'

end Grouped

end EvioTool.Lib
