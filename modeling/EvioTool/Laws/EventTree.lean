import EvioTool.Laws.Tree

namespace EvioTool

open Lib Exec

/-- A plain `Bank` whose leaves are all `Leaf<unsigned int>`. -/
def BankInfo.Plain (b : BankInfo) : Prop :=
  b.cls = .bank ∧ ∀ l ∈ b.leafs, ∃ m : Leaf (.prim .uint32), l = ⟨_, m⟩ ∧ m.cls = .leaf

variable {set : Settings} {mem : Mem} {fill : Nat} {b : Bank} {i : BankInfo} {tag : UInt16}
  {num : UInt8} {depth : Int}

theorem BankInfo.findLeaf_lt {loc : Nat} (h : i.findLeaf tag num = some loc) :
    loc < i.leafs.length :=
  (List.findIdx?_eq_some_iff_getElem.mp h).1

theorem Bank.findBank_lt {loc : Nat} (h : Bank.findBank b tag num = some loc) :
    loc < b.subs.length :=
  (List.findIdx?_eq_some_iff_getElem.mp h).1

namespace BankInfo.Plain

theorem setTag (h : i.Plain) (tag : UInt16) (num : UInt8) : (i.setTag tag num).Plain := h

theorem leaf (h : i.Plain) {loc : Nat} (hl : loc < i.leafs.length) :
    ∃ m : Leaf (.prim .uint32), i.leafs[loc]? = some ⟨_, m⟩ ∧ m.cls = .leaf := by
  obtain ⟨m, hm, hc⟩ := h.2 i.leafs[loc] (List.getElem_mem hl)
  exact ⟨m, by rw [List.getElem?_eq_getElem hl, hm], hc⟩

theorem setLeaf (h : i.Plain) (loc : Nat) {m : Leaf (.prim .uint32)} (hm : m.cls = .leaf) :
    (i.setLeaf loc ⟨_, m⟩).Plain := by
  refine ⟨h.1, fun l hl => ?_⟩
  rcases List.mem_or_eq_of_mem_set hl with hl | rfl
  · exact h.2 l hl
  · exact ⟨m, rfl, hm⟩

theorem addLeaf (h : i.Plain) (name desc : String) (tag : UInt16) (num : UInt8) :
    (i.addLeaf (.prim .uint32) name tag num desc).Plain := by
  refine ⟨h.1, fun l hl => ?_⟩
  rcases List.mem_append.mp hl with hl | hl
  · exact h.2 l hl
  · exact ⟨_, List.mem_singleton.mp hl, rfl⟩

end BankInfo.Plain

@[simp] theorem BankInfo.leafs_storeLocation (name : String) (loc : Nat) :
    (i.storeLocation name loc).2.leafs = i.leafs := rfl

theorem BankInfo.leafs_addLeaf (T : ElemType) (name desc : String) (tag : UInt16) (num : UInt8) :
    ∃ m : Leaf T, (i.addLeaf T name tag num desc).leafs = i.leafs ++ [⟨T, m⟩] ∧
      m.tag = (tag.toNat : Int) ∧ m.num = (num.toNat : Int) ∧ m.data = [] ∧ m.cls = .leaf :=
  ⟨_, rfl, rfl, rfl, rfl, rfl⟩

theorem BankInfo.leaf_addLeaf (T : ElemType) (name desc : String) (tag : UInt16) (num : UInt8) :
    ∃ m : Leaf T, (i.addLeaf T name tag num desc).leafs[i.leafs.length]? = some ⟨T, m⟩ ∧
      m.cls = .leaf := by
  obtain ⟨m, hm, -, -, -, hcls⟩ := i.leafs_addLeaf T name desc tag num
  exact ⟨m, by rw [hm, List.getElem?_concat_length], hcls⟩

theorem BankInfo.look_leafFor {β : Type} (look : Option LeafPtr → β) {T : ElemType}
    (hlook : ∀ m : Leaf T, m.data = [] → look (some ⟨T, m⟩) = look none) {fAutoAdd : Bool}
    {str desc : String} {n : Nat} {j : BankInfo}
    (h : i.leafFor fAutoAdd T str desc tag num = some (n, j)) (loc : Nat) :
    look j.leafs[loc]? = look i.leafs[loc]? ∧ j.thisTag = i.thisTag ∧ j.cls = i.cls := by
  unfold leafFor at h
  split at h
  · cases h
    exact ⟨rfl, rfl, rfl⟩
  · split at h
    · cases h
      refine ⟨?_, rfl, rfl⟩
      obtain ⟨m, hm, -, -, hdata, -⟩ := i.leafs_addLeaf T str desc tag num
      rw [hm]
      obtain hlt | rfl | hgt := Nat.lt_trichotomy loc i.leafs.length
      · rw [List.getElem?_append_left hlt]
      · rw [List.getElem?_concat_length, List.getElem?_eq_none le_rfl, hlook m hdata]
      · rw [List.getElem?_eq_none (by simp; omega), List.getElem?_eq_none hgt.le]
    · cases h

theorem returns_findOrAddLeaf_missing {T : ElemType} {str desc : String}
    (hf : i.findLeaf tag num = none) :
    Returns (findOrAddLeaf false T str desc tag num) i none i := by
  simp [findOrAddLeaf, hf]

theorem returns_findOrAddLeaf_added {T : ElemType} {str desc : String}
    (hf : i.findLeaf tag num = none) :
    Returns (findOrAddLeaf true T str desc tag num) i (some i.leafs.length)
      (i.addLeaf T str tag num desc) := by
  simp [findOrAddLeaf, hf, BankInfo.addLeaf, Unique.exists_iff]

theorem returns_fillLeaf_words {loc : Nat} {m : Leaf (.prim .uint32)} {ws : List UInt32}
    {buf : Int} (hi : i.Plain) (hm : mem.Holds buf ws)
    (hl : i.leafs[loc]? = some ⟨.prim .uint32, m⟩) (hc : m.cls = .leaf) :
    ∃ j, i.pushLeaf loc (.prim .uint32) (ws.map UInt32.toBitVec) = some j ∧ j.Plain ∧
      Returns (fillLeaf (.prim .uint32) loc (pushDataArray mem fill loc .uint32 buf ws.length))
        i 1 j := by
  refine ⟨_, BankInfo.pushLeaf_eq hl _, hi.setLeaf loc hc, ?_⟩
  exact (returns_fillLeaf_plain (.inl hi.1) hl hc).mpr
    ⟨by omega, _, hm.elems_words, rfl, rfl⟩

theorem returns_addOrFillLeaf_words {ws : List UInt32} {buf : Int} (hi : i.Plain)
    (hm : mem.Holds buf ws) :
    (foldLeaf set tag num ws i).Plain ∧ ∃ stat,
      Returns (addOrFillLeaf set.fAutoAdd mem fill .uint32 buf ws.length tag num) i stat
        (foldLeaf set tag num ws i) := by
  cases hf : i.findLeaf tag num with
  | some loc =>
    obtain ⟨m, hl, hc⟩ := hi.leaf (BankInfo.findLeaf_lt hf)
    obtain ⟨j, hj, hp, hr⟩ := returns_fillLeaf_words hi hm hl hc
    have hfold : foldLeaf set tag num ws i = j := by simp [foldLeaf, hf, hj]
    rw [hfold]
    exact ⟨hp, 1, (returns_congr (addOrFillLeaf_found hf)).mpr hr⟩
  | none =>
    cases ha : set.fAutoAdd with
    | false =>
      have hfold : foldLeaf set tag num ws i = i := by simp [foldLeaf, hf, ha]
      rw [hfold]
      exact ⟨hi, 0, (returns_findOrAddLeaf_missing hf).bind (by simp)⟩
    | true =>
      obtain ⟨m, hl, hc⟩ :=
        i.leaf_addLeaf (.prim .uint32) (intStr tag num) "Auto added int leaf" tag num
      obtain ⟨j, hj, hp, hr⟩ := returns_fillLeaf_words
        (hi.addLeaf (intStr tag num) "Auto added int leaf" tag num) hm hl hc
      have hfold : foldLeaf set tag num ws i = j := by simp [foldLeaf, hf, ha, hj]
      rw [hfold]
      exact ⟨hp, 1, (returns_findOrAddLeaf_added hf).bind hr⟩

theorem Bank.plain_setLabel (hb : b.All BankInfo.Plain) (hi : i.Plain) :
    (b.setLabel i).All BankInfo.Plain := by
  cases hb with | node _ hs => exact .node hi hs

theorem Bank.plain_new (name desc : String) (tag : UInt16) (num : UInt8) :
    (Bank.new name tag num desc).All BankInfo.Plain :=
  .node ⟨rfl, by simp⟩ (by simp)

theorem Bank.addBank_missing {name desc : String} (hf : Bank.findBank b tag num = none) :
    Bank.addBank b name tag num desc = .node b.label (b.subs ++ [Bank.new name tag num desc]) := by
  simp [addBank, hf]

theorem returns_containerNodeHandler :
    Returns (containerNodeHandler set tag num depth) b
      ((resolve set tag num depth b).map Prod.fst)
      (((resolve set tag num depth b).map Prod.snd).getD b) := by
  unfold resolve containerNodeHandler
  split
  · simp
  · cases hf : Bank.findBank b tag num with
    | some i =>
      have hi := List.getElem?_eq_getElem (Bank.findBank_lt hf)
      simp [hf, hi]
    | none =>
      cases ha : set.fAutoAdd with
      | false => simp [hf]
      | true => simp [hf, Bank.addBank_missing hf, Rose.setSub]

theorem resolve_plain {t : Target} {c : Bank} (hb : b.All BankInfo.Plain)
    (hr : resolve set tag num depth b = some (t, c)) :
    c.All BankInfo.Plain ∧ ∃ d, t.node c = some d := by
  unfold resolve at hr
  split at hr
  · cases hr
    exact ⟨Bank.plain_setLabel hb (hb.label.setTag tag num), _, rfl⟩
  · cases hf : Bank.findBank b tag num with
    | some i =>
      have hi := Bank.findBank_lt hf
      have hc := hb.sub (List.getElem_mem hi)
      simp only [hf, List.getElem?_eq_getElem hi, Option.map_some, Option.some.injEq,
        Prod.mk.injEq] at hr
      obtain ⟨rfl, rfl⟩ := hr
      refine ⟨hb.setSub (Bank.plain_setLabel hc (hc.label.setTag tag num)), ?_⟩
      simp [Target.node, hi]
    | none =>
      simp only [hf, Option.ite_none_right_eq_some, Option.some.injEq, Prod.mk.injEq] at hr
      obtain ⟨-, rfl, rfl⟩ := hr
      have hn := Bank.plain_new (bankStr tag num) "Auto added Bank" tag num
      refine ⟨.node hb.label fun u hu => ?_, by simp [Target.node]⟩
      rcases List.mem_append.mp hu with hu | hu
      · exact hb.sub hu
      · rw [List.mem_singleton.mp hu]
        exact Bank.plain_setLabel hn (hn.label.setTag tag num)

theorem Target.plain_node {t : Target} {c : Bank} (hb : b.All BankInfo.Plain)
    (hn : t.node b = some c) : c.All BankInfo.Plain := by
  cases t with
  | self =>
    cases hn
    exact hb
  | sub i => exact hb.sub (List.mem_of_getElem? hn)

theorem returns_onTarget {m : Exec Halt Obs Bank Unit} {f : Bank → Bank} {t : Target} {c : Bank}
    (hn : t.node b = some c) (hm : Returns m c () (f c)) :
    Returns (onTarget (some t) m) b () (t.update f b) := by
  simp only [Target.update, hn]
  cases t with
  | self =>
    cases hn
    exact hm
  | sub i => exact returns_onSub.mpr ⟨_, _, hn, hm, rfl⟩

theorem Target.plain_update {f : Bank → Bank} {t : Target} {c : Bank} (hb : b.All BankInfo.Plain)
    (hn : t.node b = some c) (hf : (f c).All BankInfo.Plain) :
    (t.update f b).All BankInfo.Plain := by
  simp only [Target.update, hn]
  cases t with
  | self => exact hf
  | sub i => exact hb.setSub hf

namespace Item

theorem encode_eq (k : Kind) (t : Item) (hw : t.WF k) : ∃ tag contentType num len body,
    t.encode k = k.header tag contentType num 0 len ++ body ∧ body.length = len ∧
      k.Fits tag contentType num 0 len := by
  cases t with
  | leaf tag num unsigned payload => exact ⟨_, _, _, _, _, rfl, rfl, hw⟩
  | container tag num c items => exact ⟨_, _, _, _, _, rfl, rfl, hw.1⟩

end Item

def ReadsAs (set : Settings) (mem : Mem) (fill : Nat) (t : Item) : Prop :=
  ∀ (k : Kind) (bankType : Nat) (buf depth : Int) (b : Bank), bankType ∈ k.bankTypes → t.WF k →
    mem.Holds buf (t.encode k) → (t.encode k).length < 2 ^ 31 → b.All BankInfo.Plain →
    (foldItem set depth t b).All BankInfo.Plain ∧ ∃ F, ∀ fuel, F ≤ fuel → ∃ stat,
      Returns (parseBank set mem fill fuel buf bankType depth) b stat (foldItem set depth t b)

theorem nextPos_item {σ : Type} {s : σ} {c : Container} {t : Item} {a p : Int} (hw : t.WF c.kind)
    (hm : mem.Holds a (t.encode c.kind)) (hp : 0 ≤ p)
    (hu : p + (t.encode c.kind).length < 2 ^ 31) :
    0 < (t.encode c.kind).length ∧ ∃ w, Returns (readLength mem c.contentType a) s w s ∧
      nextPos p w = p + (t.encode c.kind).length := by
  obtain ⟨tag, contentType, num, len, body, he, hlen, hfit⟩ := t.encode_eq c.kind hw
  exact nextPos_header he hlen hfit hm hp hu

section Children

variable {c : Container} {items : List Item} {data bankLen p : Int}

theorem returns_children_skip (hw : Item.WFAll c.kind items)
    (hm : mem.Holds (data + p) (Item.encodeAll c.kind items)) (hp : 0 ≤ p)
    (hl : p + (Item.encodeAll c.kind items).length = bankLen) (hu : bankLen < 2 ^ 31) :
    ∃ F, ∀ fuel, F ≤ fuel →
      Returns (children set mem fill fuel false data bankLen c.contentType depth p) b () b := by
  induction items generalizing p with
  | nil =>
    refine ⟨1, fun fuel hF => ?_⟩
    obtain ⟨fuel, rfl⟩ := Nat.exists_eq_add_of_le' hF
    simp only [Item.encodeAll, List.length_nil] at hl
    simp [returns_children, ← hl]
  | cons t ts ih =>
    obtain ⟨ht, hts⟩ := hw
    obtain ⟨mh, mt⟩ := hm.append
    simp only [Item.encodeAll, List.length_append, Nat.cast_add] at hl
    obtain ⟨hpos, w, hr, hn⟩ := nextPos_item (s := b) ht mh hp (by omega)
    obtain ⟨F, hF⟩ := ih hts (by rwa [← add_assoc]) (by omega) (by omega)
    refine ⟨F + 1, fun fuel hfuel => ?_⟩
    obtain ⟨fuel, rfl⟩ := Nat.exists_eq_add_of_le' hfuel
    rw [← add_assoc, returns_children, if_pos (by omega)]
    exact ⟨b, by simp, w, hr, by rw [hn]; exact hF _ (by omega)⟩

theorem returns_children_items (ih : ∀ t ∈ items, ReadsAs set mem fill t)
    (hw : Item.WFAll c.kind items) (hm : mem.Holds (data + p) (Item.encodeAll c.kind items))
    (hp : 0 ≤ p) (hl : p + (Item.encodeAll c.kind items).length = bankLen) (hu : bankLen < 2 ^ 31)
    (hb : b.All BankInfo.Plain) :
    (foldItems set depth items b).All BankInfo.Plain ∧ ∃ F, ∀ fuel, F ≤ fuel →
      Returns (children set mem fill fuel true data bankLen c.contentType depth p) b ()
        (foldItems set depth items b) := by
  induction items generalizing p b with
  | nil =>
    refine ⟨hb, 1, fun fuel hF => ?_⟩
    obtain ⟨fuel, rfl⟩ := Nat.exists_eq_add_of_le' hF
    simp only [Item.encodeAll, List.length_nil] at hl
    simp [returns_children, ← hl, foldItems]
  | cons t ts iht =>
    obtain ⟨ht, hts⟩ := hw
    obtain ⟨mh, mt⟩ := hm.append
    simp only [Item.encodeAll, List.length_append, Nat.cast_add] at hl
    obtain ⟨hb', F, hF⟩ := ih t (by simp) c.kind c.contentType (data + p) depth b
      c.contentType_mem ht mh (by omega) hb
    obtain ⟨hpos, w, hr, hn⟩ := nextPos_item (s := foldItem set depth t b) ht mh hp (by omega)
    obtain ⟨hb'', G, hG⟩ := iht (fun u hu => ih u (by simp [hu])) hts (by rwa [← add_assoc])
      (by omega) (by omega) hb'
    refine ⟨hb'', max F G + 1, fun fuel hfuel => ?_⟩
    obtain ⟨fuel, rfl⟩ := Nat.exists_eq_add_of_le' hfuel
    rw [← add_assoc, returns_children, if_pos (by omega)]
    obtain ⟨stat, hstat⟩ := hF (fuel + max F G) (by omega)
    refine ⟨_, returns_when_true.mpr ⟨stat, hstat⟩, w, hr, ?_⟩
    rw [hn]
    exact hG _ (by omega)

end Children

theorem readsAs_leaf (tag : UInt16) (num : UInt8) (unsigned : Bool) (payload : List UInt32) :
    ReadsAs set mem fill (.leaf tag num unsigned payload) := by
  intro k bankType buf depth b hk hw hm hu hb
  simp only [Item.encode, List.length_append, Kind.length_header] at hm hu
  have hh := headerAt_of_holds hk hw hm.append.1
  have hcase (x : Int) : leafCase unsigned.toNat x = some (.prim .uint32, 1, 0) := by
    cases unsigned <;> rfl
  have hpay := hm.append.2
  rw [Kind.length_header] at hpay
  obtain ⟨hp, stat, hr⟩ :
    (foldLeaf set tag num payload b.label).Plain ∧ ∃ stat, Returns (addOrFillLeaf set.fAutoAdd mem
      fill .uint32 (buf + k.dataOffset) payload.length tag num) b.label stat _ :=
    returns_addOrFillLeaf_words hb.label hpay
  refine ⟨Bank.plain_setLabel hb hp, 1, fun fuel hF => ⟨stat, ?_⟩⟩
  obtain ⟨fuel, rfl⟩ := Nat.exists_eq_add_of_le' hF
  have hlen : payload.length + k.dataOffset < 2 ^ 31 := by omega
  rw [returns_parseBank_leaf hh (hcase _), leafCount, Kind.length_decoded hlen, mul_one, sub_zero]
  have hfits : FitsInt payload.length := fitsInt_natCast (by omega)
  exact ⟨⟨hfits, hfits, hfits⟩, _, by simpa [fillSwitch, Kind.decoded] using hr, rfl⟩

theorem readsAs_container {tag : UInt16} {num : UInt8} {c : Container} {items : List Item}
    (ih : ∀ t ∈ items, ReadsAs set mem fill t) :
    ReadsAs set mem fill (.container tag num c items) := by
  intro k bankType buf depth b hk hw hm hu hb
  obtain ⟨hfit, hitems⟩ := hw
  simp only [Item.encode, List.length_append, Kind.length_header] at hm hu
  have hh := headerAt_of_holds hk hfit hm.append.1
  have hpay := hm.append.2
  rw [Kind.length_header, ← add_zero (buf + (k.dataOffset : Int))] at hpay
  have hlen : (Item.encodeAll c.kind items).length + k.dataOffset < 2 ^ 31 := by omega
  have hcase (x : Int) : leafCase c.contentType x = none := by cases c <;> rfl
  have hcont : isContainer c.contentType = true := by cases c <;> rfl
  have hnode : Returns (containerNodeHandler set tag num depth) b _ _ :=
    returns_containerNodeHandler
  have hfits : FitsInt (Item.encodeAll c.kind items).length := fitsInt_natCast (by omega)
  have hbound : ((Item.encodeAll c.kind items).length : Int) < 2 ^ 31 := by omega
  -- the header puts the call at the loop over the encoded items
  have hcall {fuel : Nat} {d : Bank} :
      Returns (parseBank set mem fill (fuel + 1) buf bankType depth) b 0 d ↔ _ :=
    returns_parseBank_container hh (hcase _) hcont
  rw [Kind.length_decoded hlen] at hcall
  simp only [Kind.decoded, UInt16.ofNat_toNat, UInt8.ofNat_toNat] at hcall
  cases hres : resolve set tag num depth b with
  | none =>
    rw [hres] at hnode
    obtain ⟨F, hF⟩ : ∃ F, ∀ fuel, F ≤ fuel → Returns (children set mem fill fuel false
        (buf + k.dataOffset) _ c.contentType (depth + 1) 0) b () b :=
      returns_children_skip hitems hpay le_rfl (zero_add _) hbound
    simp only [foldItem, hres]
    refine ⟨hb, F + 1, fun fuel hfuel => ⟨0, ?_⟩⟩
    obtain ⟨fuel, rfl⟩ := Nat.exists_eq_add_of_le' hfuel
    exact hcall.mpr ⟨hfits, none, b, hnode, hF _ (Nat.le_add_left _ _), trivial⟩
  | some r =>
    obtain ⟨t, d⟩ := r
    rw [hres] at hnode
    obtain ⟨hd, e, hn⟩ := resolve_plain hb hres
    obtain ⟨hp, F, hF⟩ : (foldItems set (depth + 1) items e).All BankInfo.Plain ∧
        ∃ F, ∀ fuel, F ≤ fuel → Returns (children set mem fill fuel true
          (buf + k.dataOffset) _ c.contentType (depth + 1) 0) e () _ :=
      returns_children_items ih hitems hpay le_rfl (zero_add _) hbound (Target.plain_node hd hn)
    simp only [foldItem, hres]
    refine ⟨Target.plain_update hd hn hp, F + 1, fun fuel hfuel => ⟨0, ?_⟩⟩
    obtain ⟨fuel, rfl⟩ := Nat.exists_eq_add_of_le' hfuel
    exact hcall.mpr ⟨hfits, some t, d, hnode,
      returns_onTarget hn (hF _ (Nat.le_add_left _ _)), trivial⟩

theorem readsAs (t : Item) : ReadsAs set mem fill t := by
  induction t using Item.ind with
  | leaf tag num unsigned payload => exact readsAs_leaf tag num unsigned payload
  | container tag num c items ih => exact readsAs_container ih

theorem parseEvioBuff_eq_fold {c : Container} {items : List Item} (hc : c.kind = .bank)
    (hpass : b.label.checkTag tag = true)
    (hw : (Item.container tag num c items).WF .bank)
    (hm : mem.Holds 0 ((Item.container tag num c items).encode .bank))
    (hu : ((Item.container tag num c items).encode .bank).length < 2 ^ 31)
    (hb : b.All BankInfo.Plain) :
    ∃ F, ∀ fuel, F ≤ fuel → Returns (parseEvioBuff set mem fill fuel) b 0
      (foldEvent set tag num c items b) := by
  have hh : headerAt mem 0 0x10 = _ := headerAt_of_holds (k := .bank) (by decide) hw.1 hm.append.1
  have hmark := Bank.plain_setLabel hb (hb.label.setTag tag num)
  obtain ⟨-, F, hF⟩ : _ ∧ ∃ F, ∀ fuel, F ≤ fuel → ∃ stat,
      Returns (parseBank set mem fill fuel 0 0x10 0) _ stat (foldEvent set tag num c items b) :=
    readsAs (.container tag num c items) .bank 0x10 0 0 _ (by decide) hw hm hu hmark
  refine ⟨F, fun fuel hfuel => ?_⟩
  obtain ⟨stat, hstat⟩ := hF fuel hfuel
  refine returns_parseEvioBuff_pass hh ?_ (by simpa [Kind.decoded] using hpass)
    (by simpa [Kind.decoded] using hstat)
  cases c <;> simp_all [Container.kind, Container.contentType, Kind.decoded]

def smallItems : List Item := [.container 5 0 .segmentD [.leaf 7 0 true [11, 12]], .leaf 9 3 false []]

theorem emptyTop_plain : emptyTop.All BankInfo.Plain :=
  .node ⟨rfl, by simp⟩ (by simp)

theorem parseEvioBuff_eq_fold_small :
    ∃ F, ∀ fuel, F ≤ fuel → Returns (parseEvioBuff { fAutoAdd := true }
      (Mem.ofList ((Item.container 0 1 .bank10 smallItems).encode .bank)) 0 fuel) emptyTop 0
      (foldEvent { fAutoAdd := true } 0 1 .bank10 smallItems emptyTop) :=
  parseEvioBuff_eq_fold rfl (by decide) (by simp [smallItems, Item.WF, Item.WFAll]; decide)
    (Mem.holds_ofList _) (by decide) emptyTop_plain

section Huge

variable {ws : List UInt32} {fuel : Nat}

def hugeItems (ws : List UInt32) : List Item := [.leaf 1 0 true ws]

theorem length_hugeItems : (Item.encodeAll .bank (hugeItems ws)).length = 2 + ws.length := by
  simp [hugeItems, Item.encodeAll, Item.encode, Kind.dataOffset]

theorem returns_huge (hl : 2 ^ 31 ≤ ws.length) (hu : ws.length + 3 < 2 ^ 32)
    (hm : mem.Holds 0 ((Item.container 0 1 .bank10 (hugeItems ws)).encode .bank)) :
    Returns (parseEvioBuff { fAutoAdd := true } mem fill (fuel + 2)) emptyTop 0
      (emptyTop.setLabel (emptyTop.label.setTag 0 1)) := by
  rw [Item.encode, Container.kind, length_hugeItems] at hm
  have hfit : Kind.Fits 0 0x10 1 0 (2 + ws.length) .bank := by
    refine ⟨by decide, by decide, by decide, by decide, by omega⟩
  have hh : headerAt mem 0 0x10 = _ := headerAt_of_holds (by decide) hfit hm.append.1
  have hlen : (Kind.bank.decoded 0 0x10 1 0 (2 + ws.length)).length -
      (Kind.bank.decoded 0 0x10 1 0 (2 + ws.length)).dataOffset = 2 + ws.length - 2 ^ 32 := by
    simp only [Kind.decoded, Kind.dataOffset]
    rw [toInt32_wrap] <;> norm_num at * <;> omega
  refine returns_parseEvioBuff_pass (r := 0) hh (.inl rfl) (by simp only [Kind.decoded]; decide) ?_
  rw [returns_parseBank_container hh rfl rfl, hlen]
  refine ⟨⟨by omega, by omega⟩, some .self, emptyTop.setLabel (emptyTop.label.setTag 0 1),
    ?_, ?_, rfl⟩
  · simp [containerNodeHandler, Kind.decoded]
    rfl
  · simp only [onTarget, returns_children]
    rw [if_neg (by omega)]
    trivial

theorem leafs_fold_huge : (foldEvent { fAutoAdd := true } 0 1 .bank10 (hugeItems ws)
    emptyTop).label.leafs.length = 1 := by
  have hleaf (i : BankInfo) (h : i.leafs = []) :
      (foldLeaf { fAutoAdd := true } 1 0 ws i).leafs.length = 1 := by
    obtain ⟨m, hm, -⟩ := i.leaf_addLeaf (.prim .uint32) (intStr 1 0) "Auto added int leaf" 1 0
    have hf : i.findLeaf 1 0 = none := by simp [BankInfo.findLeaf, h]
    simp only [foldLeaf, hf, if_true]
    rw [BankInfo.pushLeaf_eq hm]
    simp [BankInfo.addLeaf, h]
  exact hleaf (emptyTop.label.setTag 0 1) rfl

theorem wf_huge (hu : ws.length + 3 < 2 ^ 32) :
    (Item.container 0 1 .bank10 (hugeItems ws)).WF .bank := by
  refine ⟨⟨by decide, by decide, by decide, by decide, ?_⟩, ⟨?_, trivial⟩⟩
  · rw [Container.kind, length_hugeItems]
    omega
  · exact ⟨by decide, by decide, by decide, by decide, by omega⟩

theorem not_returns_fold_huge {F : Nat} (hl : 2 ^ 31 ≤ ws.length) (hu : ws.length + 3 < 2 ^ 32)
    (hm : mem.Holds 0 ((Item.container 0 1 .bank10 (hugeItems ws)).encode .bank)) :
    ¬Returns (parseEvioBuff { fAutoAdd := true } mem fill (F + 2)) emptyTop 0
      (foldEvent { fAutoAdd := true } 0 1 .bank10 (hugeItems ws) emptyTop) := by
  intro h
  have hleafs : (foldEvent _ 0 1 .bank10 (hugeItems ws) _).label.leafs.length = 1 := leafs_fold_huge
  rw [((returns_huge hl hu hm).det h).2] at hleafs
  exact absurd hleafs (by decide)

end Huge

def hugePayload : List UInt32 := List.replicate (2 ^ 31) 0

theorem parseEvioBuff_ne_fold_huge :
    emptyTop.All BankInfo.Plain ∧ emptyTop.label.checkTag 0 = true ∧
    (Item.container 0 1 .bank10 (hugeItems hugePayload)).WF .bank ∧
    ¬∃ F, ∀ fuel, F ≤ fuel → Returns (parseEvioBuff { fAutoAdd := true }
      (Mem.ofList ((Item.container 0 1 .bank10 (hugeItems hugePayload)).encode .bank)) 0 fuel)
      emptyTop 0 (foldEvent { fAutoAdd := true } 0 1 .bank10 (hugeItems hugePayload) emptyTop) := by
  have hlen : hugePayload.length = 2 ^ 31 := List.length_replicate
  refine ⟨emptyTop_plain, by decide, wf_huge (by rw [hlen]; norm_num), ?_⟩
  rintro ⟨F, hF⟩
  exact not_returns_fold_huge (by rw [hlen]) (by rw [hlen]; norm_num) (Mem.holds_ofList _)
    (hF (F + 2) (by omega))

end EvioTool
