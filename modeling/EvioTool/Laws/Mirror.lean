import EvioTool.Defs.Mirror
import EvioTool.Lib.FirstFit
import EvioTool.Laws.Words

namespace EvioTool

open Lib Exec

def leafFits (c k : TagNum) : Bool := c.1 == k.1 && (c.2 == 0 || c.2 == k.2)

def bankFits (c k : TagNum) : Bool := c.1 == k.1 && (k.2 == 0 || c.2 == 0 || c.2 == k.2)

section Classes

variable {ks : List TagNum} {c k f : TagNum} {t : UInt16}

theorem leafFits_self (k : TagNum) : leafFits k k = true := by
  simp [leafFits]

theorem bankFits_self (k : TagNum) : bankFits k k = true := by
  simp [bankFits]

theorem leafFits_iff : leafFits c k = true ↔ c = (k.1, 0) ∨ c = k := by
  obtain ⟨ct, cn⟩ := c
  obtain ⟨kt, kn⟩ := k
  simp only [leafFits, Bool.and_eq_true, Bool.or_eq_true, beq_iff_eq, Prod.mk.injEq]
  tauto

theorem bankFits_iff : bankFits c k = true ↔ c.1 = k.1 ∧ (k.2 = 0 ∨ c.2 = 0 ∨ c.2 = k.2) := by
  simp only [bankFits, Bool.and_eq_true, Bool.or_eq_true, beq_iff_eq, or_assoc]

theorem leafClass_concat (hk : k ∈ ks) (l : TagNum) : leafClass (ks ++ [l]) k = leafClass ks k := by
  unfold leafClass
  rw [List.idxOf_append_of_mem hk]
  by_cases h0 : (k.1, 0) ∈ ks
  · rw [List.idxOf_append_of_mem h0]
  · have hlt := List.idxOf_lt_length_of_mem hk
    rw [List.idxOf_append_of_notMem h0, List.idxOf_of_notMem h0, if_neg (by omega), if_neg (by omega)]

theorem leafClass_concat_self (hk : k ∉ ks) :
    leafClass (ks ++ [k]) k = if (k.1, 0) ∈ ks then (k.1, 0) else k := by
  unfold leafClass
  rw [List.idxOf_append_of_notMem hk, List.idxOf_cons_self]
  by_cases h0 : (k.1, 0) ∈ ks
  · have hlt := List.idxOf_lt_length_of_mem h0
    rw [List.idxOf_append_of_mem h0, if_pos (by omega), if_pos h0]
  · rw [List.idxOf_append_of_notMem h0, if_neg (by omega), if_neg h0]

theorem classOf_leafFits (hk : k ∈ ks) : classOf leafFits ks k = some (leafClass ks k) := by
  induction ks using List.reverseRecOn with
  | nil => cases hk
  | append_singleton ks l ih =>
    by_cases hmem : k ∈ ks
    · rw [classOf_concat (ih hmem), leafClass_concat hmem]
    · obtain rfl : k = l := by simpa [hmem] using hk
      rw [leafClass_concat_self hmem]
      cases h : classOf leafFits ks k with
      | some c =>
        have hfit := fits_of_classOf h
        have hc := (classOf_key leafFits_self (mem_of_classOf h)).1
        rw [classOf_concat h]
        obtain rfl | rfl := leafFits_iff.mp hfit
        · rw [if_pos hc]
        · exact absurd hc hmem
      | none =>
        have h0 : (k.1, 0) ∉ ks := by
          intro h0
          obtain ⟨c, hc⟩ := Option.isSome_iff_exists.mp (classOf_isSome leafFits_self h0)
          obtain rfl : c = (k.1, 0) := by
            obtain h | h := leafFits_iff.mp (fits_of_classOf hc) <;> exact h
          exact not_fits_of_classOf h (mem_of_classOf hc) (leafFits_iff.mpr (.inl rfl))
        rw [classOf_concat_self leafFits_self h, if_neg h0]

theorem find_firstFit_bankFits :
    ((firstFit bankFits ks).find? fun c => c.1 = t) = ks.find? fun c => c.1 = t := by
  induction ks using List.reverseRecOn with
  | nil => rfl
  | append_singleton ks l ih =>
    rw [List.find?_append, ← ih]
    cases h : classOf bankFits ks l with
    | none => rw [firstFit_concat_of_none h, List.find?_append]
    | some c =>
      rw [firstFit_concat_of_some h]
      cases hf : (firstFit bankFits ks).find? fun c => c.1 = t with
      | some f => rfl
      | none =>
        have hne := List.find?_eq_none.mp hf c (mem_of_classOf h)
        have htag := (bankFits_iff.mp (fits_of_classOf h)).1
        rw [htag] at hne
        simp [hne]

theorem find?_of_imp {α : Type} {p q : α → Bool} {xs : List α} {x : α}
    (h : xs.find? p = some x) (hq : q x = true) (himp : ∀ y, q y = true → p y = true) :
    xs.find? q = some x := by
  obtain ⟨hp, as, bs, rfl, has⟩ := List.find?_eq_some_iff_append.mp h
  refine List.find?_eq_some_iff_append.mpr ⟨hq, as, bs, rfl, fun a ha => ?_⟩
  have hnot := has a ha
  simp only [Bool.not_eq_true'] at hnot ⊢
  exact Bool.eq_false_iff.mpr fun hqa => by simp [himp a hqa] at hnot

theorem classOf_bankFits_first (hf : (ks.find? fun c => c.1 = k.1) = some f)
    (h0 : f.2 = 0 ∨ k.2 = 0) : classOf bankFits ks k = some f := by
  rw [← find_firstFit_bankFits] at hf
  have htag : f.1 = k.1 := of_decide_eq_true (List.find?_some (p := fun c : TagNum => decide (c.1 = k.1)) hf)
  refine find?_of_imp hf (bankFits_iff.mpr ⟨htag, by tauto⟩) fun c hc => ?_
  exact decide_eq_true (bankFits_iff.mp hc).1

theorem classOf_bankFits (hk : k ∈ ks) : classOf bankFits ks k = some (bankClass ks k) := by
  induction ks using List.reverseRecOn with
  | nil => cases hk
  | append_singleton ks l ih =>
    by_cases hmem : k ∈ ks
    · obtain ⟨f, hf⟩ : ∃ f, (ks.find? fun c => c.1 = k.1) = some f :=
        Option.isSome_iff_exists.mp (List.find?_isSome.mpr ⟨k, hmem, by simp⟩)
      rw [classOf_concat (ih hmem), bankClass, bankClass, List.find?_append, hf]
      rfl
    · obtain rfl : k = l := by simpa [hmem] using hk
      rw [bankClass, List.find?_append]
      cases hf : ks.find? fun c => c.1 = k.1 with
      | none =>
        have hnone : classOf bankFits ks k = none := by
          refine List.find?_eq_none.mpr fun c hc hfit => ?_
          refine List.find?_eq_none.mp hf c (classOf_key bankFits_self hc).1 ?_
          exact decide_eq_true (bankFits_iff.mp hfit).1
        rw [classOf_concat_self bankFits_self hnone]
        simp
      | some f =>
        simp only [Option.some_or]
        split <;> rename_i h0
        · rw [classOf_concat (classOf_bankFits_first hf h0)]
        · have hnone : classOf bankFits ks k = none := by
            refine List.find?_eq_none.mpr fun c hc hfit => ?_
            obtain ⟨htag, hnum⟩ := bankFits_iff.mp hfit
            have hkey := classOf_key bankFits_self hc
            obtain hk0 | hc0 | heq := hnum
            · exact h0 (.inr hk0)
            · rw [classOf_bankFits_first (f := f) (by rwa [htag]) (.inr hc0)] at hkey
              obtain rfl := Option.some.inj hkey.2
              exact h0 (.inl hc0)
            · obtain rfl : c = k := Prod.ext htag heq
              exact hmem hkey.1
          rw [classOf_concat_self bankFits_self hnone]

end Classes

section Gather

variable {α : Type} {fits : TagNum → TagNum → Bool} {class_ : List TagNum → TagNum → TagNum}
  {xs : List (TagNum × List α)}
  (hclass : ∀ ks k, k ∈ ks → classOf fits ks k = some (class_ ks k))

include hclass

theorem flatten_part (c : TagNum) : (part fits xs c).flatten = gather class_ xs c := by
  have hfilter : (xs.filter fun x => classOf fits (xs.map Prod.fst) x.1 = some c) =
      xs.filter fun x => class_ (xs.map Prod.fst) x.1 = c := by
    refine List.filter_congr fun x hx => ?_
    rw [decide_eq_decide, hclass _ _ (List.mem_map_of_mem hx), Option.some.injEq]
  rw [part, hfilter, gather, List.flatMap_def]

theorem mem_firstFit_iff_class (hrefl : ∀ k, fits k k = true) (c : TagNum) :
    c ∈ firstFit fits (xs.map Prod.fst) ↔ ∃ x ∈ xs, class_ (xs.map Prod.fst) x.1 = c := by
  rw [mem_firstFit_iff hrefl]
  constructor
  · rintro ⟨_, hk, hc⟩
    obtain ⟨x, hx, rfl⟩ := List.mem_map.mp hk
    rw [hclass _ _ hk, Option.some.injEq] at hc
    exact ⟨x, hx, hc⟩
  · rintro ⟨x, hx, rfl⟩
    exact ⟨x.1, List.mem_map_of_mem hx, hclass _ _ (List.mem_map_of_mem hx)⟩

end Gather

def LeafPtr.HoldsWords (l : LeafPtr) (wss : List (List UInt32)) : Prop :=
  l.tag = (l.tagNum.1.toNat : Int) ∧ l.num = (l.tagNum.2.toNat : Int) ∧ l.words = wss.flatten

inductive Grown : List Item → Bank → Prop
  | node {items : List Item} {i : BankInfo} {subs : List Bank}
    (leafs : Grouped leafFits LeafPtr.tagNum LeafPtr.HoldsWords (items.filterMap Item.asLeaf) i.leafs)
    (keys : subs.map Bank.tagNum = firstFit bankFits ((items.filterMap Item.asBank).map Prod.fst))
    (tags : ∀ b ∈ subs, b.label.tags = [b.tagNum.1])
    (sub : ∀ b ∈ subs, Grown (part bankFits (items.filterMap Item.asBank) b.tagNum).flatten b) :
    Grown items (.node i subs)

theorem Grown.mirrors {items : List Item} {b : Bank} (h : Grown items b) : Mirrors items b := by
  induction h with
  | node leafs keys tags sub ih =>
    have hleaf (ks : List TagNum) (k : TagNum) (hk : k ∈ ks) := classOf_leafFits hk
    have hbank (ks : List TagNum) (k : TagNum) (hk : k ∈ ks) := classOf_bankFits hk
    refine .node ?_ (fun c => ?_) (fun l hl => ?_) ?_ (fun c => ?_) tags fun b hb => ?_
    · rw [leafs.keys]
      exact nodup_firstFit leafFits_self
    · rw [leafs.keys]
      exact mem_firstFit_iff_class hleaf leafFits_self c
    · rw [← flatten_part hleaf]
      exact leafs.holds l hl
    · rw [keys]
      exact nodup_firstFit bankFits_self
    · rw [keys]
      exact mem_firstFit_iff_class hbank bankFits_self c
    · rw [← flatten_part hbank]
      exact ih b hb

variable {set : Settings} {items xs : List Item} {b c : Bank} {i j : BankInfo} {tag : UInt16}
  {num : UInt8} {depth : Int} {ws : List UInt32}

namespace Grown

def HoldsItems (b : Bank) (itemss : List (List Item)) : Prop :=
  b.label.tags = [b.tagNum.1] ∧ Grown itemss.flatten b

theorem subs {bs : List Bank} (h : Grown items (.node i bs)) :
    Grouped bankFits Bank.tagNum HoldsItems (items.filterMap Item.asBank) bs := by
  cases h with
  | node _ keys tags sub => exact ⟨keys, fun b hb => ⟨tags b hb, sub b hb⟩⟩

theorem of_grouped {bs : List Bank}
    (hl : Grouped leafFits LeafPtr.tagNum LeafPtr.HoldsWords (items.filterMap Item.asLeaf) i.leafs)
    (hs : Grouped bankFits Bank.tagNum HoldsItems (items.filterMap Item.asBank) bs) :
    Grown items (.node i bs) :=
  .node hl hs.keys (fun b hb => (hs.holds b hb).1) fun b hb => (hs.holds b hb).2

theorem empty (hl : b.label.leafs = []) (hs : b.subs = []) : Grown [] b := by
  cases b with
  | node i bs =>
    obtain rfl : bs = [] := hs
    exact of_grouped ⟨by rw [show i.leafs = [] from hl]; rfl, by rw [show i.leafs = [] from hl]; nofun⟩
      ⟨rfl, nofun⟩

theorem leafs (h : Grown items b) :
    Grouped leafFits LeafPtr.tagNum LeafPtr.HoldsWords (items.filterMap Item.asLeaf)
      b.label.leafs := by
  cases h with
  | node leafs keys tags sub => exact leafs

end Grown

theorem BankInfo.findLeaf_eq (h : ∀ l ∈ i.leafs, l.tag = (l.tagNum.1.toNat : Int) ∧
    l.num = (l.tagNum.2.toNat : Int)) :
    i.findLeaf tag num = i.leafs.findIdx? fun l => leafFits l.tagNum (tag, num) := by
  refine findIdx?_congr fun l hl => ?_
  obtain ⟨htag, hnum⟩ := h l hl
  have hzero : ((l.tagNum.2.toNat : Int) = 0) ↔ l.tagNum.2 = 0 := by
    rw [Nat.cast_eq_zero, ← UInt8.toNat_inj]
    rfl
  rw [htag, hnum, Bool.eq_iff_iff]
  simp only [leafFits, Bool.and_eq_true, Bool.or_eq_true, beq_iff_eq, Nat.cast_inj,
    UInt16.toNat_inj, UInt8.toNat_inj, hzero]

theorem Bank.findBank_eq {bs : List Bank} (h : ∀ c ∈ bs, c.label.tags = [c.tagNum.1]) :
    Bank.findBank (.node i bs) tag num = bs.findIdx? fun c => bankFits c.tagNum (tag, num) := by
  refine findIdx?_congr fun c hc => ?_
  rw [h c hc, Bool.eq_iff_iff]
  simp only [bankFits, Bool.and_eq_true, Bool.or_eq_true, beq_iff_eq, List.contains_iff_mem,
    List.mem_singleton, eq_comm (a := tag)]
  rfl

theorem LeafPtr.HoldsWords.push {m : Leaf (.prim .uint32)} {wss : List (List UInt32)}
    (h : LeafPtr.HoldsWords ⟨_, m⟩ wss) (ws : List UInt32) :
    LeafPtr.HoldsWords ⟨_, m.pushDataArray (ws.map UInt32.toBitVec)⟩ (wss ++ [ws]) := by
  obtain ⟨htag, hnum, hwords⟩ := h
  refine ⟨htag, hnum, ?_⟩
  rw [words_push, hwords]
  simp

namespace Item

variable {unsigned : Bool} {k : Container}

theorem asLeaf_concat_leaf : (xs ++ [leaf tag num unsigned ws]).filterMap asLeaf =
    xs.filterMap asLeaf ++ [((tag, num), ws)] := List.filterMap_append

theorem asLeaf_concat_container : (xs ++ [container tag num k items]).filterMap asLeaf =
    xs.filterMap asLeaf := List.filterMap_append.trans (List.append_nil _)

theorem asBank_concat_leaf : (xs ++ [leaf tag num unsigned ws]).filterMap asBank =
    xs.filterMap asBank := List.filterMap_append.trans (List.append_nil _)

theorem asBank_concat_container : (xs ++ [container tag num k items]).filterMap asBank =
    xs.filterMap asBank ++ [((tag, num), items)] := List.filterMap_append

end Item

theorem grown_foldLeaf {unsigned : Bool} (ha : set.fAutoAdd = true) (hi : i.Plain)
    (h : Grouped leafFits LeafPtr.tagNum LeafPtr.HoldsWords (xs.filterMap Item.asLeaf) i.leafs) :
    Grouped leafFits LeafPtr.tagNum LeafPtr.HoldsWords
      ((xs ++ [Item.leaf tag num unsigned ws]).filterMap Item.asLeaf)
      (foldLeaf set tag num ws i).leafs := by
  rw [Item.asLeaf_concat_leaf]
  have hfind : i.findLeaf tag num = _ :=
    BankInfo.findLeaf_eq fun l hl => ⟨(h.holds l hl).1, (h.holds l hl).2.1⟩
  unfold foldLeaf
  cases hf : i.findLeaf tag num with
  | some loc =>
    obtain ⟨m, hm, -⟩ := hi.leaf (BankInfo.findLeaf_lt hf)
    simp only [BankInfo.pushLeaf_eq hm, Option.getD_some, BankInfo.leafs_setLeaf]
    rw [hfind] at hf
    exact h.found leafFits_self hf hm rfl ((h.holds _ (List.mem_of_getElem? hm)).push ws)
  | none =>
    obtain ⟨m, hm, htag, hnum, hdata, -⟩ := i.leafs_addLeaf (.prim .uint32) (intStr tag num)
      "Auto added int leaf" tag num
    have hget : (i.addLeaf (.prim .uint32) (intStr tag num) tag num
        "Auto added int leaf").leafs[i.leafs.length]? = some ⟨_, m⟩ := by
      simp [hm]
    simp only [ha, if_true, BankInfo.pushLeaf_eq hget, Option.getD_some, BankInfo.leafs_setLeaf, hm,
      List.set_append_right _ _ le_rfl, Nat.sub_self, List.set_cons_zero]
    rw [hfind] at hf
    have hkey : LeafPtr.tagNum ⟨_, m⟩ = (tag, num) := by
      simp [LeafPtr.tagNum, LeafPtr.tag, LeafPtr.num, htag, hnum]
    have hnew : LeafPtr.HoldsWords ⟨_, m⟩ [] := by
      refine ⟨by rw [hkey]; exact htag, by rw [hkey]; exact hnum, ?_⟩
      simp only [LeafPtr.words, hdata]
      rfl
    exact h.new leafFits_self hf hkey (hnew.push ws)

section Containers

variable {items : List Item} {k : Container} {d : Bank} {n : Nat}

def Bank.mark (tag : UInt16) (num : UInt8) (b : Bank) : Bank := b.setLabel (b.label.setTag tag num)

section Resolve

variable {bs : List Bank}

theorem resolve_pruned (h : depth < set.fChopLevel ∨ depth > set.fMaxLevel) :
    resolve set tag num depth b = some (.self, b.mark tag num) := if_pos h

theorem resolve_found (h : ¬(depth < set.fChopLevel ∨ depth > set.fMaxLevel))
    (hf : Bank.findBank (.node i bs) tag num = some n) (hn : bs[n]? = some d) :
    resolve set tag num depth (.node i bs) = some (.sub n, .node i (bs.set n (d.mark tag num))) := by
  simp only [resolve, if_neg h, hf, Rose.subs_node, hn, Option.map_some]
  rfl

theorem resolve_added (h : ¬(depth < set.fChopLevel ∨ depth > set.fMaxLevel))
    (hf : Bank.findBank b tag num = none) (ha : set.fAutoAdd = true) :
    resolve set tag num depth b = some (.sub b.subs.length, .node b.label
      (b.subs ++ [(Bank.new (bankStr tag num) tag num "Auto added Bank").mark tag num])) := by
  simp only [resolve, if_neg h, hf, if_pos ha]
  rfl

end Resolve

theorem foldItem_pruned (h : depth < set.fChopLevel ∨ depth > set.fMaxLevel) :
    foldItem set depth (.container tag num k items) b =
      foldItems set (depth + 1) items (b.mark tag num) := by
  rw [foldItem, resolve_pruned h]
  rfl

theorem foldItem_found (h : ¬(depth < set.fChopLevel ∨ depth > set.fMaxLevel))
    (hf : Bank.findBank b tag num = some n) (hn : b.subs[n]? = some d) :
    foldItem set depth (.container tag num k items) b =
      b.setSub n (foldItems set (depth + 1) items (d.mark tag num)) := by
  have hlt := (List.getElem?_eq_some_iff.mp hn).1
  cases b with
  | node i bs =>
    have hset : (bs.set n (d.mark tag num))[n]? = some (d.mark tag num) :=
      List.getElem?_set_self hlt
    simp only [foldItem, resolve_found h hf hn]
    simp only [Target.update, Target.node, Rose.subs_node, hset]
    simp [Target.setNode, Rose.setSub]

theorem foldItem_added (h : ¬(depth < set.fChopLevel ∨ depth > set.fMaxLevel))
    (hf : Bank.findBank b tag num = none) (ha : set.fAutoAdd = true) :
    foldItem set depth (.container tag num k items) b = .node b.label (b.subs ++
      [foldItems set (depth + 1) items
        ((Bank.new (bankStr tag num) tag num "Auto added Bank").mark tag num)]) := by
  simp only [foldItem, resolve_added h hf ha]
  simp [Target.update, Target.node, Target.setNode, Rose.setSub]

end Containers

def Grows (set : Settings) (x : Item) : Prop :=
  ∀ (depth : Int) (b : Bank) (xs : List Item), b.All BankInfo.Plain → Grown xs b →
    Grown (xs ++ x.prune set depth) (foldItem set depth x b) ∧
      (foldItem set depth x b).label.tags = b.label.tags ∧
      (foldItem set depth x b).label.num = b.label.num

theorem label_foldLeaf (ha : set.fAutoAdd = true) (hi : i.Plain) :
    (foldLeaf set tag num ws i).tags = i.tags ∧ (foldLeaf set tag num ws i).num = i.num := by
  unfold foldLeaf
  cases hf : i.findLeaf tag num with
  | some loc =>
    obtain ⟨m, hm, -⟩ := hi.leaf (BankInfo.findLeaf_lt hf)
    simp only [BankInfo.pushLeaf_eq hm, Option.getD_some]
    exact ⟨rfl, rfl⟩
  | none =>
    obtain ⟨m, hm, -⟩ :=
      i.leaf_addLeaf (.prim .uint32) (intStr tag num) "Auto added int leaf" tag num
    simp only [ha, if_true, BankInfo.pushLeaf_eq hm, Option.getD_some]
    exact ⟨rfl, rfl⟩

theorem grows_leaf {unsigned : Bool} (ha : set.fAutoAdd = true) :
    Grows set (.leaf tag num unsigned ws) := by
  intro depth b xs hb h
  cases b with
  | node i bs =>
    refine ⟨.of_grouped (grown_foldLeaf ha hb.label h.leafs) ?_, label_foldLeaf ha hb.label⟩
    rw [Item.prune, Item.asBank_concat_leaf]
    exact h.subs

theorem grows_items (ha : set.fAutoAdd = true) (ih : ∀ x ∈ items, Grows set x)
    (hb : b.All BankInfo.Plain) (h : Grown xs b) :
    Grown (xs ++ Item.pruneAll set depth items) (foldItems set depth items b) ∧
      (foldItems set depth items b).label.tags = b.label.tags ∧
      (foldItems set depth items b).label.num = b.label.num := by
  induction items generalizing b xs with
  | nil =>
    rw [Item.pruneAll, List.append_nil]
    exact ⟨h, rfl, rfl⟩
  | cons x items ihx =>
    obtain ⟨hx, htags, hnum⟩ := ih x (by simp) depth b xs hb h
    have hplain := (keepsWords (t := 0) ha x depth b hb).1
    obtain ⟨hxs, htags', hnum'⟩ := ihx (fun y hy => ih y (by simp [hy])) hplain hx
    rw [Item.pruneAll, ← List.append_assoc]
    exact ⟨hxs, htags'.trans htags, hnum'.trans hnum⟩

theorem Bank.plain_mark (hb : b.All BankInfo.Plain) : (b.mark tag num).All BankInfo.Plain :=
  Bank.plain_setLabel hb (hb.label.setTag tag num)

theorem Grown.mark (h : Grown xs b) (tag : UInt16) (num : UInt8) : Grown xs (b.mark tag num) := by
  cases h with
  | node leafs keys tags sub => exact .node leafs keys tags sub

theorem label_mark : (b.mark tag num).label.tags = b.label.tags ∧
    (b.mark tag num).label.num = b.label.num := by
  cases b
  exact ⟨rfl, rfl⟩

theorem holdsItems_foldItems (ha : set.fAutoAdd = true) (ih : ∀ x ∈ items, Grows set x)
    (hb : b.All BankInfo.Plain) {xss : List (List Item)} (h : Grown.HoldsItems b xss) :
    Grown.HoldsItems (foldItems set depth items (b.mark tag num))
      (xss ++ [Item.pruneAll set depth items]) ∧
      Bank.tagNum (foldItems set depth items (b.mark tag num)) = b.tagNum := by
  obtain ⟨hgrown, htags, hnum⟩ :
    _ ∧ (foldItems set depth items (b.mark tag num)).label.tags = _ ∧ _ = _ :=
    grows_items ha ih (Bank.plain_mark hb) (h.2.mark tag num)
  rw [label_mark.1] at htags
  rw [label_mark.2] at hnum
  have hkey : Bank.tagNum (foldItems set depth items (b.mark tag num)) = b.tagNum := by
    rw [Bank.tagNum, htags, hnum]
    rfl
  refine ⟨⟨?_, ?_⟩, hkey⟩
  · rw [hkey, htags, h.1]
  · rwa [List.flatten_append, List.flatten_singleton]

theorem grows_container {k : Container} (ha : set.fAutoAdd = true) (ih : ∀ x ∈ items, Grows set x) :
    Grows set (.container tag num k items) := by
  intro depth b xs hb h
  by_cases hprune : depth < set.fChopLevel ∨ depth > set.fMaxLevel
  · rw [foldItem_pruned hprune, Item.prune, if_pos hprune, ← (label_mark (b := b)).1,
      ← (label_mark (b := b)).2]
    exact grows_items ha ih (Bank.plain_mark hb) (h.mark tag num)
  · cases b with
    | node i bs =>
      rw [Item.prune, if_neg hprune]
      have hsame : (xs ++ [Item.container tag num k (Item.pruneAll set (depth + 1) items)]).filterMap
          Item.asLeaf = xs.filterMap Item.asLeaf := Item.asLeaf_concat_container
      have hleafs := h.leafs
      rw [← hsame] at hleafs
      cases hf : Bank.findBank (.node i bs) tag num with
      | some n =>
        have hlt : n < bs.length := Bank.findBank_lt hf
        have hn : bs[n]? = some bs[n] := List.getElem?_eq_getElem hlt
        rw [foldItem_found hprune hf hn]
        refine ⟨.of_grouped hleafs ?_, rfl, rfl⟩
        rw [Bank.findBank_eq fun c hc => (h.subs.holds c hc).1] at hf
        rw [Item.asBank_concat_container]
        have hd := hb.sub (List.getElem_mem hlt)
        obtain ⟨hholds, hkey⟩ : Grown.HoldsItems (foldItems set (depth + 1) items
            (Bank.mark tag num bs[n])) _ ∧ _ = _ :=
          holdsItems_foldItems ha ih hd (h.subs.holds _ (List.getElem_mem hlt))
        exact h.subs.found bankFits_self hf hn hkey hholds
      | none =>
        rw [foldItem_added hprune hf ha]
        refine ⟨.of_grouped hleafs ?_, rfl, rfl⟩
        rw [Bank.findBank_eq fun c hc => (h.subs.holds c hc).1] at hf
        rw [Item.asBank_concat_container]
        have hnew : Grown.HoldsItems (Bank.new (bankStr tag num) tag num "Auto added Bank") [] :=
          ⟨rfl, .empty rfl rfl⟩
        obtain ⟨hholds, hkey⟩ : Grown.HoldsItems (foldItems set (depth + 1) items
            ((Bank.new (bankStr tag num) tag num "Auto added Bank").mark tag num)) _ ∧ _ = _ :=
          holdsItems_foldItems ha ih (Bank.plain_new _ _ _ _) hnew
        exact h.subs.new bankFits_self hf hkey hholds

theorem grows (ha : set.fAutoAdd = true) (x : Item) : Grows set x := by
  induction x using Item.ind with
  | leaf tag num unsigned payload => exact grows_leaf ha
  | container tag num k items ih => exact grows_container ha ih

/-- With auto-add an empty dictionary becomes the mirror of the event. -/
theorem parseEvioBuff_mirrors {mem : Mem} {fill : Nat} {k : Container} (ha : set.fAutoAdd = true)
    (hk : k.kind = .bank) (hpass : b.label.checkTag tag = true)
    (hw : (Item.container tag num k items).WF .bank)
    (hm : mem.Holds 0 ((Item.container tag num k items).encode .bank))
    (hu : ((Item.container tag num k items).encode .bank).length < 2 ^ 31)
    (hcls : b.label.cls = .bank) (hleafs : b.label.leafs = []) (hsubs : b.subs = []) :
    ∃ e, (∃ F, ∀ fuel, F ≤ fuel → Returns (parseEvioBuff set mem fill fuel) b 0 e) ∧
      Mirrors ((Item.container tag num k items).prune set 0) e := by
  have hb : b.All BankInfo.Plain := by
    cases b with
    | node i bs =>
      obtain rfl : bs = [] := hsubs
      exact .node ⟨hcls, by rw [show i.leafs = [] from hleafs]; nofun⟩ nofun
  refine ⟨_, parseEvioBuff_eq_fold hk hpass hw hm hu hb, ?_⟩
  have hempty : Grown [] (b.mark tag num) := (Grown.empty hleafs hsubs).mark tag num
  exact (grows ha (.container tag num k items) 0 _ [] (Bank.plain_mark hb) hempty).1.mirrors

theorem parseEvioBuff_mirrors_small : ∃ e,
    (∃ F, ∀ fuel, F ≤ fuel → Returns (parseEvioBuff { fAutoAdd := true }
      (Mem.ofList ((Item.container 0 1 .bank10 smallItems).encode .bank)) 0 fuel) emptyTop 0 e) ∧
    Mirrors ((Item.container 0 1 .bank10 smallItems).prune { fAutoAdd := true } 0) e :=
  parseEvioBuff_mirrors rfl rfl (by decide) (by simp [smallItems, Item.WF, Item.WFAll]; decide)
    (Mem.holds_ofList _) (by decide) rfl rfl rfl

def wildItems : List Item :=
  [.leaf 7 0 true [1], .leaf 7 5 true [2], .leaf 8 5 true [3], .leaf 8 0 true [4],
    .container 5 3 .bank10 [], .container 5 0 .bank10 []]

theorem parseEvioBuff_mirrors_wild :
    (∃ e, (∃ F, ∀ fuel, F ≤ fuel → Returns (parseEvioBuff { fAutoAdd := true }
        (Mem.ofList ((Item.container 0 1 .bank10 wildItems).encode .bank)) 0 fuel) emptyTop 0 e) ∧
      e.label.leafs.map (fun l => (l.tagNum, l.words)) =
        [((7, 0), [1, 2]), ((8, 5), [3]), ((8, 0), [4])] ∧
      e.subs.map Bank.tagNum = [(5, 3)]) ∧
    (¬∃ e, (∃ F, ∀ fuel, F ≤ fuel → Returns (parseEvioBuff { fAutoAdd := true }
        (Mem.ofList ((Item.container 1 1 .bank10 smallItems).encode .bank)) 0 fuel) emptyTop 0 e) ∧
      Mirrors ((Item.container 1 1 .bank10 smallItems).prune { fAutoAdd := true } 0) e) ∧
    ¬∃ e, (∃ F, ∀ fuel, F ≤ fuel → Returns (parseEvioBuff { fAutoAdd := true } (Mem.ofList
        ((Item.container 0 1 .bank10 (hugeItems hugePayload)).encode .bank)) 0 fuel) emptyTop 0 e) ∧
      Mirrors ((Item.container 0 1 .bank10 (hugeItems hugePayload)).prune { fAutoAdd := true } 0) e := by
  have hlen : hugePayload.length = 2 ^ 31 := List.length_replicate
  have hnone {tag : UInt16} {items : List Item} (x : TagNum × List UInt32)
      (hx : x ∈ items.filterMap Item.asLeaf) : ¬Mirrors items (emptyTop.mark tag 1) := by
    rintro ⟨-, mem_leafs, -, -, -, -, -⟩
    have hmem := (mem_leafs _).mpr ⟨x, hx, rfl⟩
    cases hmem
  refine ⟨⟨_, parseEvioBuff_eq_fold rfl (by decide) ?_ (Mem.holds_ofList _) (by decide)
    emptyTop_plain, by decide, by decide⟩, ?_, ?_⟩
  · simp [wildItems, Item.WF, Item.WFAll]
    decide
  · rintro ⟨e, ⟨F, hF⟩, he⟩
    have hr : Returns (parseEvioBuff { fAutoAdd := true }
        (Mem.ofList ((Item.container 1 1 .bank10 smallItems).encode .bank)) 0 F) emptyTop 0
        (emptyTop.mark 1 1) := ⟨rfl, rfl⟩
    obtain ⟨-, rfl⟩ := hr.det (hF F le_rfl)
    exact hnone ((9, 3), []) (by decide) he
  · rintro ⟨e, ⟨F, hF⟩, he⟩
    have hr : Returns (parseEvioBuff { fAutoAdd := true } (Mem.ofList
        ((Item.container 0 1 .bank10 (hugeItems hugePayload)).encode .bank)) 0 (F + 2)) emptyTop 0 _ :=
      returns_huge (by rw [hlen]) (by rw [hlen]; norm_num) (Mem.holds_ofList _)
    obtain ⟨-, rfl⟩ := hr.det (hF (F + 2) (by omega))
    exact hnone ((1, 0), hugePayload) (.head _) he

end EvioTool
