import EvioTool.Laws.ParseBank

namespace EvioTool

open Lib Exec

def Prim.contentTypes : Prim → List Nat
  | uint32 => [0x0, 0x1]
  | float => [0x2]
  | int16 => [0x4]
  | uint16 => [0x5]
  | int8 => [0x6]
  | uint8 => [0x7]
  | double => [0x8]
  | int64 => [0x9]
  | uint64 => [0xA]
  | int32 => [0xB]

/-- The bank at `buf` is read, the elements of its payload `ws` less `padding` bytes are
appended to the leaf `l` at `loc`, and nothing outside the bank is looked at. -/
def Decodes (set : Settings) (mem : Mem) (fill fuel : Nat) (k : Kind) (buf : Int) (bankType : Nat)
    (depth : Int) (b : Bank) (loc : Nat) (l : Leaf (.prim t)) (padding : Nat)
    (ws : List UInt32) : Prop :=
  let xs := elements t.width (Mem.wordBytes ws) ((4 * ws.length - padding) / t.width)
  Returns (parseBank set mem fill fuel buf bankType depth) b 1
      (b.setLabel (b.label.setLeaf loc ⟨.prim t, l.pushDataArray xs⟩)) ∧
    Logs (Obs.Within buf (buf + k.dataOffset + ws.length))
      (parseBank set mem fill fuel buf bankType depth) b

/-- The element counts of `ParseBank` are those of the payload: the counts of words and
halves of words know nothing of the padding, and an element narrower or wider than a
word is counted as one. -/
def CountsAgree (t : Prim) (k : Kind) (padding len : Nat) : Prop :=
  match t with
  | .uint32 | .int32 | .float => (padding = 0 ∨ len = 0) ∧ len + k.dataOffset < 2 ^ 31
  | .int16 | .uint16 => len = 0 ∨ 2 * len = padding ∨ 2 * len = padding + 1
  | .int8 | .uint8 => len = 0 ∨ 3 * len = padding
  | .int64 | .uint64 => len = 0
  | .double => len = 0 ∧ padding < 2

section Counts

variable {t : Prim} {k : Kind} {contentType padding len : Nat}

def Prim.perWord (t : Prim) : Int := if t = .double then 2 else 1

def Prim.dropped (t : Prim) (padding : Int) : Int := if t = .double then padding / 2 else 0

theorem leafCase_prim (h : contentType ∈ t.contentTypes) (padding : Int) :
    leafCase contentType padding = some (.prim t, t.perWord, t.dropped padding) := by
  cases t <;> simp only [Prim.contentTypes, List.mem_cons, List.not_mem_nil, or_false] at h <;>
    (try rcases h with rfl | rfl) <;> rfl

def payloadCount (t : Prim) (k : Kind) (padding len : Nat) : Int :=
  (toInt32 (len + k.dataOffset) - k.dataOffset) * t.perWord - t.dropped padding

theorem lt_of_count_nonneg (hu : len + 1 < 2 ^ 32)
    (h : 0 ≤ payloadCount t k padding len) : len + k.dataOffset < 2 ^ 31 := by
  by_contra hl
  have hk := k.dataOffset_pos
  have hneg : toInt32 (len + k.dataOffset) - k.dataOffset < 0 := by
    rw [toInt32_wrap] <;> norm_num at * <;> omega
  simp only [payloadCount, Prim.perWord, Prim.dropped] at h
  split at h <;> omega

theorem fitsInt_counts (hp : padding < 4) (hl : len + k.dataOffset < 2 ^ 31)
    (h : (len * t.perWord - t.dropped padding).toNat = (4 * len - padding) / t.width)
    (h0 : 0 ≤ len * t.perWord - t.dropped padding) :
    FitsInt len ∧ FitsInt (len * t.perWord) ∧ FitsInt (len * t.perWord - t.dropped padding) := by
  cases t <;> simp only [FitsInt, Prim.perWord, Prim.dropped, Prim.width, reduceCtorEq,
    if_true, if_false] at * <;> omega

theorem countsAgree_iff (hp : padding < 4) :
    (len + k.dataOffset < 2 ^ 31 ∧ 0 ≤ len * t.perWord - t.dropped padding ∧
      (len * t.perWord - t.dropped padding).toNat = (4 * len - padding) / t.width) ↔
    CountsAgree t k padding len := by
  have hk := k.dataOffset_pos
  cases t <;> simp only [CountsAgree, Prim.perWord, Prim.dropped, Prim.width, reduceCtorEq,
    if_true, if_false] <;> omega

end Counts

section Decoding

variable {set : Settings} {mem : Mem} {fill fuel : Nat} {k : Kind} {buf depth : Int}
  {bankType contentType padding loc : Nat} {tag : UInt16} {num : UInt8} {ws : List UInt32}
  {b : Bank} {t : Prim} {l : Leaf (.prim t)}

theorem BankInfo.setLeaf_inj {i : BankInfo} {T : ElemType} {x y : Leaf T} (h : loc < i.leafs.length)
    (he : i.setLeaf loc ⟨T, x⟩ = i.setLeaf loc ⟨T, y⟩) : x = y := by
  have hg := congrArg (fun j : BankInfo => j.leafs[loc]?) he
  simpa [h] using hg

theorem Leaf.pushDataArray_inj {T : ElemType} {x : Leaf T} {xs ys : List T.Val}
    (h : x.pushDataArray xs = x.pushDataArray ys) : xs = ys :=
  List.append_cancel_left (congrArg Leaf.data h)

theorem Rose.setLabel_inj {α : Type} {u : Rose α} {a a' : α} (h : u.setLabel a = u.setLabel a') :
    a = a' := by
  cases u
  exact congrArg Rose.label h

theorem payload_bytes_le : (4 * ws.length - padding) / t.width * t.width ≤ 4 * ws.length :=
  (Nat.div_mul_le_self _ _).trans (Nat.sub_le _ _)

theorem returns_parseBank_prim {r : Int} {c : Bank} {h : Header}
    (hh : headerAt mem buf bankType = some h) (ht : h.contentType ∈ t.contentTypes)
    (hb : b.label.cls = .bank ∨ t ≠ .uint32) (hf : b.label.findLeaf h.tag h.num = some loc)
    (hl : b.label.leafs[loc]? = some ⟨.prim t, l⟩) (hc : l.cls = .leaf) :
    Returns (parseBank set mem fill (fuel + 1) buf bankType depth) b r c ↔
      (FitsInt (h.length - h.dataOffset) ∧ FitsInt ((h.length - h.dataOffset) * t.perWord) ∧
        FitsInt (leafCount h t.perWord (t.dropped h.padding))) ∧
      0 ≤ leafCount h t.perWord (t.dropped h.padding) ∧
      ∃ xs, mem.elems (4 * (buf + h.dataOffset)) t.width
          (leafCount h t.perWord (t.dropped h.padding)).toNat = some xs ∧ r = 1 ∧
        c = b.setLabel (b.label.setLeaf loc ⟨.prim t, l.pushDataArray xs⟩) := by
  rw [returns_parseBank_leaf hh (leafCase_prim ht h.padding)]
  simp only [fillSwitch, returns_addOrFillLeaf_found hb hf hl hc]
  constructor
  · rintro ⟨hfits, i, ⟨h0, xs, hxs, rfl, rfl⟩, rfl⟩
    exact ⟨hfits, h0, xs, hxs, rfl, rfl⟩
  · rintro ⟨hfits, h0, xs, hxs, rfl, rfl⟩
    exact ⟨hfits, _, ⟨h0, xs, hxs, rfl, rfl⟩, rfl⟩

/-- The bank at `buf` holds `ws` as elements of type `t`, and the dictionary has a plain
leaf for them. -/
structure LeafBank (mem : Mem) (k : Kind) (buf : Int) (bankType contentType padding : Nat)
    (tag : UInt16) (num : UInt8) (ws : List UInt32) (b : Bank) (loc : Nat) (l : Leaf (.prim t)) :
    Prop where
  kind : bankType ∈ k.bankTypes
  content : contentType ∈ t.contentTypes
  fits : k.Fits tag.toNat contentType num.toNat padding ws.length
  words : mem.Holds buf (k.header tag.toNat contentType num.toNat padding ws.length ++ ws)
  plainBank : b.label.cls = .bank ∨ t ≠ .uint32
  found : b.label.findLeaf tag num = some loc
  leaf : b.label.leafs[loc]? = some ⟨.prim t, l⟩
  plainLeaf : l.cls = .leaf

namespace LeafBank

variable (h : LeafBank mem k buf bankType contentType padding tag num ws b loc l)

include h

theorem padding_lt : padding < 4 := by
  have := h.fits
  cases k <;> simp only [Kind.Fits] at this <;> omega

theorem length_lt : ws.length + 1 < 2 ^ 32 := by
  have := h.fits
  cases k <;> simp only [Kind.Fits] at this <;> norm_num at * <;> omega

theorem header_eq : headerAt mem buf bankType =
    some (k.decoded tag.toNat contentType num.toNat padding ws.length) :=
  headerAt_of_holds h.kind h.fits h.words.append.1

theorem returns {r : Int} {c : Bank} :
    Returns (parseBank set mem fill (fuel + 1) buf bankType depth) b r c ↔
      (FitsInt (toInt32 (ws.length + k.dataOffset) - k.dataOffset) ∧
        FitsInt ((toInt32 (ws.length + k.dataOffset) - k.dataOffset) * t.perWord) ∧
        FitsInt (payloadCount t k padding ws.length)) ∧
      0 ≤ payloadCount t k padding ws.length ∧
      ∃ xs, mem.elems (4 * (buf + k.dataOffset)) t.width
          (payloadCount t k padding ws.length).toNat = some xs ∧ r = 1 ∧
        c = b.setLabel (b.label.setLeaf loc ⟨.prim t, l.pushDataArray xs⟩) := by
  have hf : b.label.findLeaf (UInt16.ofNat tag.toNat) (UInt8.ofNat num.toNat) = some loc := by
    simpa using h.found
  rw [returns_parseBank_prim h.header_eq h.content h.plainBank hf h.leaf h.plainLeaf]
  simp only [Kind.decoded, leafCount, payloadCount]

theorem decodes (hn : CountsAgree t k padding ws.length) :
    Decodes set mem fill (fuel + 1) k buf bankType depth b loc l padding ws := by
  obtain ⟨hle, h0, hn⟩ := (countsAgree_iff h.padding_lt).mpr hn
  have hbytes : (4 * ws.length - padding) / t.width * t.width ≤ 4 * ws.length := payload_bytes_le
  have hxs := h.words.append.2.elems hbytes
  rw [Kind.length_header, ← hn] at hxs
  constructor
  · simp only [h.returns, payloadCount, payloadLength_eq hle]
    exact ⟨fitsInt_counts h.padding_lt hle hn h0, h0, _, hxs, trivial, by rw [hn]⟩
  · have hcase (x : Int) := leafCase_prim h.content x
    refine logs_parseBank (logs_readHeader h.kind le_rfl (by omega)) (fun _ => trivial) ?_ ?_ <;>
      rw [h.header_eq]
    · intro h' T k d hh hl
      obtain rfl := Option.some.inj hh
      refine logs_fillSwitch (Obs.within_ofFillers _ _) ?_
      rintro _ rfl -
      simp only [Kind.decoded, hcase, Option.some.injEq, Prod.mk.injEq] at hl
      obtain ⟨⟨⟩, rfl, rfl⟩ := hl
      simp only [Kind.decoded, leafCount, payloadLength_eq hle, hn, Obs.Within]
      omega
    · intro h' hh hl
      obtain rfl := Option.some.inj hh
      simp [Kind.decoded, hcase] at hl

theorem countsAgree (hd : Decodes set mem fill (fuel + 1) k buf bankType depth b loc l padding ws) :
    CountsAgree t k padding ws.length := by
  have hlt : loc < b.label.leafs.length := (List.getElem?_eq_some_iff.mp h.leaf).1
  obtain ⟨-, h0, xs, hxs, -, hst⟩ := h.returns.mp hd.1
  have hle := lt_of_count_nonneg h.length_lt h0
  rw [payloadCount, payloadLength_eq hle] at h0 hxs
  have hdata := Leaf.pushDataArray_inj (BankInfo.setLeaf_inj hlt (Rose.setLabel_inj hst))
  have hlen := Mem.length_of_elems hxs
  rw [← hdata, length_elements] at hlen
  exact (countsAgree_iff h.padding_lt).mp ⟨hle, h0, hlen.symm⟩

theorem decodes_packed {xs : List (BitVec (8 * t.width))} {rest : List UInt8}
    (hn : CountsAgree t k padding ws.length) (hr : rest.length = padding)
    (hws : Mem.wordBytes ws = pack t.width xs ++ rest) :
    Returns (parseBank set mem fill (fuel + 1) buf bankType depth) b 1
      (b.setLabel (b.label.setLeaf loc ⟨.prim t, l.pushDataArray xs⟩)) := by
  have hlen : (4 * ws.length - padding) / t.width = xs.length := by
    have hw : 0 < t.width := by cases t <;> decide
    rw [← Mem.length_wordBytes, hws, List.length_append, hr, Nat.add_sub_cancel, length_pack,
      Nat.mul_div_cancel _ hw]
  have hd : Decodes set mem fill (fuel + 1) k buf bankType depth b loc l padding ws := h.decodes hn
  have hd := hd.1
  rwa [hlen, hws, elements_pack] at hd

end LeafBank

theorem parseBank_decodes_iff
    (h : LeafBank mem k buf bankType contentType padding tag num ws b loc l) :
    Decodes set mem fill (fuel + 1) k buf bankType depth b loc l padding ws ↔
      CountsAgree t k padding ws.length :=
  ⟨h.countsAgree, h.decodes⟩

end Decoding

def uint32Leaf : Leaf (.prim .uint32) := { name := "L", title := "", tag := 1, num := 0 }

def uint32Bank : Bank := .node { name := "B", title := "", tags := [0], leafs := [⟨_, uint32Leaf⟩] } []

def uint32Words : List UInt32 := [7, 8]

def uint32Mem : Mem := Mem.ofList (Kind.bank.header 1 1 0 0 2 ++ uint32Words)

theorem uint32_leafBank :
    LeafBank uint32Mem .bank 0 0x10 0x1 0 1 0 uint32Words uint32Bank 0 uint32Leaf where
  kind := by decide
  content := by decide
  fits := by decide
  words := Mem.holds_ofList _
  plainBank := .inl rfl
  found := rfl
  leaf := rfl
  plainLeaf := rfl

theorem parseBank_decodes_uint32 :
    LeafBank uint32Mem .bank 0 0x10 0x1 0 1 0 uint32Words uint32Bank 0 uint32Leaf ∧
      Decodes {} uint32Mem 0 1 .bank 0 0x10 0 uint32Bank 0 uint32Leaf 0 uint32Words := by
  have hcounts : CountsAgree .uint32 .bank 0 2 := by
    unfold CountsAgree
    decide
  exact ⟨uint32_leafBank, (parseBank_decodes_iff uint32_leafBank).mpr hcounts⟩

def int16Leaf : Leaf (.prim .int16) := { name := "L", title := "", tag := 1, num := 0 }

def int16Bank : Bank := .node { name := "B", title := "", tags := [0], leafs := [⟨_, int16Leaf⟩] } []

def int16Words : List UInt32 := [0x00020001]

def int16Mem : Mem := Mem.ofList (Kind.bank.header 1 4 0 0 1 ++ int16Words)

theorem int16_leafBank :
    LeafBank int16Mem .bank 0 0x10 0x4 0 1 0 int16Words int16Bank 0 int16Leaf where
  kind := by decide
  content := by decide
  fits := by decide
  words := Mem.holds_ofList _
  plainBank := .inl rfl
  found := rfl
  leaf := rfl
  plainLeaf := rfl

theorem int16_not_decoded :
    LeafBank int16Mem .bank 0 0x10 0x4 0 1 0 int16Words int16Bank 0 int16Leaf ∧
      ¬Decodes {} int16Mem 0 1 .bank 0 0x10 0 int16Bank 0 int16Leaf 0 int16Words := by
  refine ⟨int16_leafBank, fun h => ?_⟩
  have hlen := congrArg (fun b : Bank => b.label.leafs.map fun l => l.2.data.length) h.1.2
  revert hlen
  decide

end EvioTool
