import EvioTool.Defs.EvioBlocks
import EvioTool.Defs.ForeignTree
import EvioTool.Laws.EvioNumbers
import EvioTool.Laws.Header
import EvioTool.Laws.Tree

namespace EvioTool

open Lib

namespace Swapped

variable {m : Swapped} {i n : Nat} {ws xs ys : List UInt32} {f : List UInt32 → List UInt32}

@[simp] theorem out_setOut (m : Swapped) (ws : List UInt32) : (m.setOut ws).out = ws := by
  rcases m with ⟨data, _ | dest⟩ <;> rfl

@[simp] theorem setOut_setOut (m : Swapped) (ws xs : List UInt32) :
    (m.setOut ws).setOut xs = m.setOut xs := by
  rcases m with ⟨data, _ | dest⟩ <;> rfl

theorem setOut_out (m : Swapped) : m.setOut m.out = m := by
  rcases m with ⟨data, _ | dest⟩ <;> rfl

theorem holds_iff : m.Holds i ws ↔ i + ws.length ≤ m.data.length ∧
    (m.data.drop i).take ws.length = ws := by
  unfold Holds words
  split
  · simp [*]
  · simp [*]

theorem Holds.length_le (h : m.Holds i ws) : i + ws.length ≤ m.data.length := (holds_iff.mp h).1

theorem Holds.append (h : m.Holds i (xs ++ ys)) : m.Holds i xs ∧ m.Holds (i + xs.length) ys := by
  obtain ⟨hlen, htake⟩ := holds_iff.mp h
  rw [List.length_append] at hlen htake
  refine ⟨holds_iff.mpr ⟨by omega, ?_⟩, holds_iff.mpr ⟨by omega, ?_⟩⟩
  · have := congrArg (List.take xs.length) htake
    rwa [List.take_take, Nat.min_eq_left (by omega), List.take_left] at this
  · have := congrArg (List.drop xs.length) htake
    rwa [List.drop_take, List.drop_left, List.drop_drop, Nat.add_sub_cancel_left] at this

theorem Holds.getElem? (h : m.Holds i ws) {j : Nat} (hj : j < ws.length) :
    m.data[i + j]? = ws[j]? := by
  obtain ⟨-, htake⟩ := holds_iff.mp h
  conv => rhs; rw [← htake]
  rw [List.getElem?_take_of_lt hj, List.getElem?_drop]

theorem Holds.setOut (h : m.Holds n ws) (hn : i + xs.length ≤ n) :
    (m.setOut (splice m.out i xs)).Holds n ws := by
  obtain ⟨hlen, htake⟩ := holds_iff.mp h
  rcases m with ⟨data, _ | dest⟩
  · refine holds_iff.mpr ⟨?_, ?_⟩
    · simp only [Swapped.setOut, out, Option.getD_none] at hlen ⊢
      rw [length_splice_of_le (by omega)]
      exact hlen
    · simp only [Swapped.setOut, out, Option.getD_none] at hlen htake ⊢
      rw [drop_splice hn (by omega), htake]
  · exact holds_iff.mpr ⟨hlen, htake⟩

theorem Holds.through (h : m.Holds i ws) (hf : (f ws).length = ws.length)
    (hout : i + ws.length ≤ m.out.length) :
    m.through f i ws.length = some (m.setOut (splice m.out i (f ws))) := by
  have hw : m.words i ws.length = some ws := h
  simp [Swapped.through, hw, poke_eq (show i + (f ws).length ≤ m.out.length by omega)]

theorem Holds.copy_data (h : m.Holds i ws) (hout : i + ws.length ≤ m.out.length) :
    copy_data m i ws.length = some (m.setOut (splice m.out i ws)) := by
  unfold EvioTool.copy_data
  split
  · rename_i hd
    have hdata : m.out = m.data := by simp [out, hd]
    rw [splice_self (by rw [hdata]; exact (holds_iff.mp h).2), setOut_out]
  · exact h.through (f := id) rfl hout

end Swapped

theorem toNat_length_word {n : Nat} (h : n + 1 < 2 ^ 32) : (UInt32.ofNat (n + 1) - 1).toNat = n := by
  have hofNat : (UInt32.ofNat (n + 1)).toNat = n + 1 := UInt32.toNat_ofNat_of_lt' h
  rw [UInt32.toNat_sub_of_le]
  · rw [hofNat]
    rfl
  · rw [UInt32.le_iff_toNat_le, hofNat]
    exact Nat.le_add_left 1 n

section Header

variable {k : Kind} {tag contentType num padding len : Nat}

theorem lengthAndType_header (hfit : k.Fits tag contentType num padding len) {ws : List UInt32}
    {i : Nat} (hws : ∀ j < k.dataOffset, ws[i + j]? = (k.header tag contentType num padding len)[j]?) :
    k.lengthAndType ws i = some (len, contentType) := by
  have h0 := hws 0 k.dataOffset_pos.1
  rw [Nat.add_zero] at h0
  cases k with
  | bank =>
    obtain ⟨ht, hc, hn, hp, hl⟩ := hfit
    have h1 := hws 1 (by decide)
    simp only [Kind.header, List.getElem?_cons_zero, List.getElem?_cons_succ] at h0 h1
    have hw : (UInt32.ofNat (len + 1) - 1).toNat = len := toNat_length_word hl
    have hv : (UInt32.ofNat (tag * 2 ^ 16 + padding * 2 ^ 14 + contentType * 2 ^ 8 + num)).toNat =
        tag * 2 ^ 16 + padding * 2 ^ 14 + contentType * 2 ^ 8 + num :=
      UInt32.toNat_ofNat_of_lt' (by norm_num [UInt32.size] at *; omega)
    simp only [Kind.lengthAndType, h0, h1, Option.bind_eq_bind, Option.bind_some, hw,
      Option.pure_def, Option.some.injEq, Prod.mk.injEq, true_and]
    rw [UInt32.toNat_field_of (k := 8) (n := 6) rfl (by decide) rfl, hv]
    omega
  | segment =>
    obtain ⟨ht, hc, rfl, hp, hl⟩ := hfit
    simp only [Kind.header, List.getElem?_cons_zero] at h0
    have hv : (UInt32.ofNat (tag * 2 ^ 24 + padding * 2 ^ 22 + contentType * 2 ^ 16 + len)).toNat =
        tag * 2 ^ 24 + padding * 2 ^ 22 + contentType * 2 ^ 16 + len :=
      UInt32.toNat_ofNat_of_lt' (by norm_num [UInt32.size] at *; omega)
    simp only [Kind.lengthAndType, h0, Option.bind_eq_bind, Option.bind_some, Option.pure_def,
      Option.some.injEq, Prod.mk.injEq]
    rw [UInt32.toNat_and_of (n := 16) rfl,
      UInt32.toNat_field_of (k := 16) (n := 6) rfl (by decide) rfl, hv]
    omega
  | tagsegment =>
    obtain ⟨ht, hc, rfl, rfl, hl⟩ := hfit
    simp only [Kind.header, List.getElem?_cons_zero] at h0
    have hv : (UInt32.ofNat (tag * 2 ^ 20 + contentType * 2 ^ 16 + len)).toNat =
        tag * 2 ^ 20 + contentType * 2 ^ 16 + len :=
      UInt32.toNat_ofNat_of_lt' (by norm_num [UInt32.size] at *; omega)
    simp only [Kind.lengthAndType, h0, Option.bind_eq_bind, Option.bind_some, Option.pure_def,
      Option.some.injEq, Prod.mk.injEq]
    rw [UInt32.toNat_and_of (n := 16) rfl,
      UInt32.toNat_field_of (k := 16) (n := 4) rfl (by decide) rfl, hv]
    omega

theorem fraglen_header (hfit : k.Fits tag contentType num padding len) {w : UInt32}
    (hw : (k.header tag contentType num padding len)[0]? = some w) :
    k.fraglen w = UInt32.ofNat (k.dataOffset + len) := by
  apply UInt32.toNat_inj.mp
  cases k with
  | bank =>
    obtain ⟨ht, hc, hn, hp, hl⟩ := hfit
    cases hw
    rw [Kind.fraglen, UInt32.toNat_add, UInt32.toNat_ofNat', UInt32.toNat_ofNat']
    simp [Kind.dataOffset]
    omega
  | segment =>
    obtain ⟨ht, hc, rfl, hp, hl⟩ := hfit
    cases hw
    rw [Kind.fraglen, UInt32.toNat_add, UInt32.toNat_and_of (n := 16) rfl, UInt32.toNat_ofNat',
      UInt32.toNat_ofNat']
    simp [Kind.dataOffset]
    omega
  | tagsegment =>
    obtain ⟨ht, hc, rfl, rfl, hl⟩ := hfit
    cases hw
    rw [Kind.fraglen, UInt32.toNat_add, UInt32.toNat_and_of (n := 16) rfl, UInt32.toNat_ofNat',
      UInt32.toNat_ofNat']
    simp [Kind.dataOffset]
    omega

end Header

section Side

variable {α : Type} (b : Bool) (x y : α)

@[simp] theorem side_self : side b x x = x := by cases b <;> rfl

theorem side_append {b : Bool} (x y x' y' : List α) :
    side b (x ++ x') (y ++ y') = side b x y ++ side b x' y' := by
  cases b <;> rfl

theorem length_side {b : Bool} {x y : List α} (h : y.length = x.length) :
    (side b x y).length = x.length := by
  cases b
  · rfl
  · exact h

end Side

variable {env : SwapEnv} {comp : List UInt32 → List UInt32} {tolocal : Bool} {k : Kind}
  {m : Swapped} {i fuel tag contentType num padding len : Nat} {payload src dst : List UInt32}

theorem length_foreignPayload (h : PayloadSwaps env comp contentType payload) :
    (foreignPayload comp contentType payload).length = payload.length := by
  unfold PayloadSwaps at h
  unfold foreignPayload
  cases hd : dataSwap contentType <;> simp only [hd, List.length_map, length_swapPairs] at h ⊢
  exact h.1

theorem dataSwap_of_leaf (h : isContainer contentType = false) :
    dataSwap contentType ≠ .contains k := by
  simp only [isContainer, List.mem_cons, List.not_mem_nil, or_false, decide_eq_false_iff_not,
    not_or] at h
  unfold dataSwap
  split_ifs <;> simp_all

theorem swap_data_leaf (hok : PayloadSwaps env comp contentType payload)
    (hleaf : isContainer contentType = false) (hfuel : 3 ≤ fuel)
    (hm : m.Holds i (side tolocal payload (foreignPayload comp contentType payload)))
    (hout : i + payload.length ≤ m.out.length) :
    swap_data env tolocal fuel contentType m i payload.length =
      some (m.setOut (splice m.out i
        (side tolocal (foreignPayload comp contentType payload) payload))) := by
  obtain ⟨fuel, rfl⟩ := Nat.exists_eq_add_of_le' (show 1 ≤ fuel by omega)
  have hlen := length_foreignPayload hok
  rw [swap_data]
  unfold foreignPayload PayloadSwaps at *
  cases hd : dataSwap contentType with
  | contains k => exact absurd hd (dataSwap_of_leaf hleaf)
  | copy =>
    simp only [hd, side_self] at hm ⊢
    exact hm.copy_data hout
  | composite =>
    simp only [hd] at hm hok ⊢
    exact hok.2 tolocal fuel m i (by omega) hm hout
  | int32 =>
    simp only [hd] at hm ⊢
    cases tolocal
    · exact hm.through (by simp) hout
    · have := hm.through (f := List.map EVIO_SWAP32) (by simp [side]) (by simpa [side])
      simpa [side, swap_int32_t, Function.comp_def] using this
  | int16 =>
    simp only [hd] at hm hok ⊢
    rw [swap_int16_t, show 2 * payload.length % 4294967296 / 2 = payload.length by omega]
    cases tolocal
    · exact hm.through (by simp) hout
    · have := hm.through (f := List.map swapHalves) (by simp [side]) (by simpa [side])
      simpa [side, Function.comp_def] using this
  | int64 =>
    simp only [hd] at hm hok ⊢
    rw [swap_int64_t, show 2 * (payload.length / 2) = payload.length by omega]
    cases tolocal
    · exact hm.through (by simp) hout
    · have := hm.through (f := swapPairs) (by simp [side]) (by simpa [side])
      simpa [side] using this

theorem swapKind_of_data (hfit : k.Fits tag contentType num padding len)
    (hsrc : src.length = len)
    (hdata : ∀ m' : Swapped, m'.Holds (i + k.dataOffset) src → i + k.dataOffset + len ≤ m'.out.length →
      swap_data env tolocal fuel contentType m' (i + k.dataOffset) len =
        some (m'.setOut (splice m'.out (i + k.dataOffset) dst)))
    (hm : m.Holds i (side tolocal (k.header tag contentType num padding len)
      ((k.header tag contentType num padding len).map EVIO_SWAP32) ++ src))
    (hout : i + k.dataOffset + len ≤ m.out.length) :
    swapKind env tolocal (fuel + 1) k m i =
      some (m.setOut (splice m.out i (side tolocal
        ((k.header tag contentType num padding len).map EVIO_SWAP32)
        (k.header tag contentType num padding len) ++ dst))) := by
  generalize hh : k.header tag contentType num padding len = h at *
  have hlen : h.length = k.dataOffset := by rw [← hh, Kind.length_header]
  have hfrom : (side tolocal h (h.map EVIO_SWAP32)).length = k.dataOffset := by
    rw [length_side (by simp), hlen]
  have hto : (side tolocal (h.map EVIO_SWAP32) h).length = k.dataOffset := by
    rw [length_side (by simp), List.length_map, hlen]
  obtain ⟨hhead, hrest⟩ := hm.append
  rw [hfrom] at hrest
  have hmap : (side tolocal h (h.map EVIO_SWAP32)).map EVIO_SWAP32 =
      side tolocal (h.map EVIO_SWAP32) h := by
    cases tolocal <;> simp [side, Function.comp_def]
  have hswap := hhead.through (f := List.map EVIO_SWAP32) (by simp) (by omega)
  rw [hfrom, hmap] at hswap
  have hread : k.lengthAndType
      (if tolocal then (m.setOut (splice m.out i (side tolocal (h.map EVIO_SWAP32) h))).out
        else m.data) i = some (len, contentType) := by
    refine lengthAndType_header hfit fun j hj => ?_
    rw [hh]
    cases tolocal
    · exact hhead.getElem? (by omega)
    · have hat : ((splice m.out i h).drop i).take h.length = h := splice_at (by omega)
      conv => rhs; rw [← hat]
      rw [List.getElem?_take_of_lt (by omega), List.getElem?_drop]
      simp [side]
  rw [swapKind]
  simp only [swap_int32_t, hswap, Option.bind_eq_bind, Option.bind_some, hread]
  rw [hdata _ (hrest.setOut (by omega)) (by
    rw [Swapped.out_setOut, length_splice_of_le (by omega)]
    exact hout)]
  rw [Swapped.out_setOut, Swapped.setOut_setOut]
  congr 2
  conv => lhs; arg 2; rw [← hto]
  exact splice_splice (by omega)

namespace Tree

theorem length_foreign (comp : List UInt32 → List UInt32) {t : Tree} (h : t.Swaps env comp) :
    ∀ k, (t.foreign comp k).length = (t.encode k).length := by
  induction t using Tree.ind with
  | leaf tag num contentType padding payload =>
    intro k
    simp [foreign, encode, length_foreignPayload h]
  | container tag num c trees ih =>
    intro k
    simp only [foreign, encode, List.length_append, List.length_map]
    congr 1
    rw [Swaps] at h
    induction trees with
    | nil => rfl
    | cons t ts ihs =>
      simp [foreignAll, encodeAll, ih t (.head _) h.1 c.kind, ihs (fun t ht => ih t (.tail _ ht)) h.2]

theorem length_foreignAll (comp : List UInt32 → List UInt32) {ts : List Tree}
    (h : SwapsAll env comp ts) (k : Kind) :
    (foreignAll comp k ts).length = (encodeAll k ts).length := by
  induction ts with
  | nil => rfl
  | cons t ts ih => simp [foreignAll, encodeAll, length_foreign comp h.1, ih h.2]

theorem calls_pos (t : Tree) : 3 ≤ t.calls := by
  cases t with
  | leaf tag num contentType padding payload => simp [calls]
  | container tag num c trees => exact Nat.le_add_right ..

theorem wf_of_mem {ts : List Tree} (h : WFAll k ts) {t : Tree} (ht : t ∈ ts) : t.WF k := by
  induction ts with
  | nil => cases ht
  | cons u ts ih =>
    rcases List.mem_cons.mp ht with rfl | ht
    · exact h.1
    · exact ih h.2 ht

theorem swaps_of_mem {ts : List Tree} (h : SwapsAll env comp ts) {t : Tree} (ht : t ∈ ts) :
    t.Swaps env comp := by
  induction ts with
  | nil => cases ht
  | cons u ts ih =>
    rcases List.mem_cons.mp ht with rfl | ht
    · exact h.1
    · exact ih h.2 ht

theorem fraglen_encode {t : Tree} (hw : t.WF k) :
    ∃ w, (t.encode k)[0]? = some w ∧ k.fraglen w = UInt32.ofNat (t.encode k).length := by
  obtain ⟨tag, contentType, num, padding, len, body, he, hlen, hfit⟩ := t.encode_eq k hw
  have hpos := k.dataOffset_pos.1
  have hlt : 0 < (k.header tag contentType num padding len).length := by rwa [Kind.length_header]
  refine ⟨(k.header tag contentType num padding len)[0], ?_, ?_⟩
  · rw [he, List.getElem?_append_left hlt, List.getElem?_eq_getElem hlt]
  · rw [fraglen_header hfit (List.getElem?_eq_getElem hlt), he, List.length_append, hlen,
      Kind.length_header]

/-- `t` is swapped wherever it is. -/
def SwapsAt (env : SwapEnv) (comp : List UInt32 → List UInt32) (tolocal : Bool) (k : Kind)
    (t : Tree) : Prop :=
  ∀ fuel (m : Swapped) i, t.calls ≤ fuel → m.Holds i (side tolocal (t.encode k) (t.foreign comp k)) →
    i + (t.encode k).length ≤ m.out.length →
    swapKind env tolocal fuel k m i =
      some (m.setOut (splice m.out i (side tolocal (t.foreign comp k) (t.encode k))))

theorem swapContents_eq {ts : List Tree} (ih : ∀ t ∈ ts, t.SwapsAt env comp tolocal k)
    (hw : WFAll k ts) (hs : SwapsAll env comp ts) {l : Nat}
    (hlen : l + (encodeAll k ts).length < 2 ^ 32) (hfuel : callsAll ts < fuel)
    (hm : m.Holds (i + l) (side tolocal (encodeAll k ts) (foreignAll comp k ts)))
    (hout : i + l + (encodeAll k ts).length ≤ m.out.length) :
    swapContents env tolocal fuel k m i (UInt32.ofNat l) (l + (encodeAll k ts).length) =
      some (m.setOut (splice m.out (i + l)
        (side tolocal (foreignAll comp k ts) (encodeAll k ts)))) := by
  have hl : (UInt32.ofNat l).toNat = l := UInt32.toNat_ofNat_of_lt' (by simp [UInt32.size]; omega)
  obtain ⟨fuel, rfl⟩ := Nat.exists_eq_add_of_le' (show 1 ≤ fuel by omega)
  induction ts generalizing l m fuel with
  | nil =>
    rw [swapContents, hl, if_neg (by simp [encodeAll])]
    simp only [foreignAll, encodeAll, side_self]
    rw [splice_self (by simp), Swapped.setOut_out]
  | cons t ts ihs =>
    obtain ⟨hwt, hwts⟩ := hw
    obtain ⟨hst, hsts⟩ := hs
    simp only [encodeAll, foreignAll, side_append, List.length_append, callsAll] at *
    obtain ⟨hmt, hmts⟩ := hm.append
    have hfl := length_foreign comp hst k
    have hpos := t.calls_pos
    have hfrom : (side tolocal (t.encode k) (t.foreign comp k)).length = (t.encode k).length :=
      length_side hfl
    have hto : (side tolocal (t.foreign comp k) (t.encode k)).length = (t.encode k).length := by
      rw [length_side hfl.symm, hfl]
    rw [hfrom] at hmts
    have hswap := ih t (.head _) fuel m (i + l) (by omega) hmt (by omega)
    obtain ⟨w, hw0, hfrag⟩ := fraglen_encode hwt
    have hread : (if tolocal then (m.setOut (splice m.out (i + l)
        (side tolocal (t.foreign comp k) (t.encode k)))).out else m.data)[i + l]? = some w := by
      have hlt : 0 < (t.encode k).length := (List.getElem?_eq_some_iff.mp hw0).1
      cases tolocal
      · have := hmt.getElem? (j := 0) (by simpa [side] using hlt)
        simpa [side, hw0] using this
      · have hat : ((splice m.out (i + l) (t.encode k)).drop (i + l)).take (t.encode k).length =
            t.encode k := splice_at (by omega)
        rw [← hw0]
        conv => rhs; rw [← hat]
        rw [List.getElem?_take_of_lt hlt, List.getElem?_drop]
        simp [side]
    have hadd : UInt32.ofNat l + k.fraglen w = UInt32.ofNat (l + (t.encode k).length) := by
      rw [hfrag, UInt32.ofNat_add]
    rw [swapContents, hl, if_pos (by have := (List.getElem?_eq_some_iff.mp hw0).1; omega)]
    simp only [hswap, hread, Option.bind_eq_bind, Option.bind_some, hadd]
    obtain ⟨fuel, rfl⟩ := Nat.exists_eq_add_of_le' (show 1 ≤ fuel by omega)
    have hrest := ihs (fun t ht => ih t (.tail _ ht)) hwts hsts (l := l + (t.encode k).length)
      (m := m.setOut (splice m.out (i + l) (side tolocal (t.foreign comp k) (t.encode k))))
      (by omega)
      (by rw [← Nat.add_assoc]; exact hmts.setOut (by omega))
      (by rw [Swapped.out_setOut, length_splice_of_le (by omega)]; omega)
      (UInt32.toNat_ofNat_of_lt' (by simp [UInt32.size]; omega)) fuel (by omega)
    rw [← Nat.add_assoc, hrest, Swapped.out_setOut, Swapped.setOut_setOut]
    congr 2
    conv => lhs; arg 2; rw [← Nat.add_assoc, ← hto]
    exact splice_splice (by omega)

theorem swapsAt (t : Tree) :
    ∀ k, t.WF k → t.Swaps env comp → t.SwapsAt env comp tolocal k := by
  induction t using Tree.ind with
  | leaf tag num contentType padding payload =>
    intro k hw hs fuel m i hfuel hm hout
    obtain ⟨fuel, rfl⟩ := Nat.exists_eq_add_of_le' (show 1 ≤ fuel by simp [calls] at hfuel; omega)
    simp only [encode, foreign, side_append, List.length_append, Kind.length_header] at *
    refine swapKind_of_data hw.2 ?_ (fun m' hm' hout' => ?_) hm (by omega)
    · exact length_side (length_foreignPayload hs)
    · exact swap_data_leaf hs hw.1 (by simp [calls] at hfuel; omega) hm' hout'
  | container tag num c trees ih =>
    intro k hw hs fuel m i hfuel hm hout
    simp only [calls] at hfuel
    obtain ⟨fuel, rfl⟩ := Nat.exists_eq_add_of_le' (show 2 ≤ fuel by omega)
    simp only [encode, foreign, side_append, List.length_append, Kind.length_header] at *
    have hlen : (encodeAll c.kind trees).length < 2 ^ 32 := by
      have := hw.1
      cases k <;> simp only [Kind.Fits] at this <;> omega
    refine swapKind_of_data hw.1 ?_ (fun m' hm' hout' => ?_) hm (by omega)
    · exact length_side (length_foreignAll comp hs _)
    · have htype : dataSwap c.contentType = .contains c.kind := by cases c <;> rfl
      have := swapContents_eq (l := 0)
        (fun t ht => ih t ht c.kind (wf_of_mem hw.2 ht) (swaps_of_mem hs ht)) hw.2 hs (by omega)
        (show callsAll trees < fuel by omega) hm' (by omega)
      rw [swap_data, htype]
      simpa using this

end Tree

theorem evioswap_eq {t : Tree} (hw : t.WF .bank) (hs : t.Swaps env comp) (hfuel : t.calls ≤ fuel)
    {p s q old u : List UInt32} {m : Swapped}
    (hdata : m.data = p ++ (side tolocal (t.encode .bank) (t.foreign comp .bank) ++ s))
    (hout : m.out = q ++ (old ++ u)) (hq : q.length = p.length)
    (hold : old.length = (t.encode .bank).length) :
    evioswap env tolocal fuel m p.length =
      some (m.setOut (q ++ (side tolocal (t.foreign comp .bank) (t.encode .bank) ++ u))) := by
  have hlen := t.length_foreign comp hs .bank
  have hsrc := length_side (b := tolocal) hlen
  have hdst := length_side (b := tolocal) hlen.symm
  have hholds : m.Holds p.length (side tolocal (t.encode .bank) (t.foreign comp .bank)) := by
    refine Swapped.holds_iff.mpr ⟨?_, ?_⟩
    · rw [hdata]
      simp
    · rw [hdata, List.drop_left, List.take_left]
  have hroom : p.length + (t.encode .bank).length ≤ m.out.length := by
    rw [hout, List.length_append, List.length_append]
    omega
  have := t.swapsAt .bank hw hs fuel m p.length hfuel hholds hroom
  rwa [hout, splice_append hq.symm (by omega)] at this

/-- `evioswap` of an event turns its words into those of the other byte order, and back.  In place
nothing but the event is changed, and into another buffer nothing but the words of that at the
same place. -/
theorem evioswap_tree {t : Tree} (hw : t.WF .bank) (hs : t.Swaps env comp) (hfuel : t.calls ≤ fuel)
    (p s q old u : List UInt32) (hq : q.length = p.length)
    (hold : old.length = (t.encode .bank).length) (tolocal : Bool) :
    let src := side tolocal (t.encode .bank) (t.foreign comp .bank)
    let dst := side tolocal (t.foreign comp .bank) (t.encode .bank)
    evioswap env tolocal fuel { data := p ++ (src ++ s) } p.length =
        some { data := p ++ (dst ++ s) } ∧
      evioswap env tolocal fuel { data := p ++ (src ++ s), dest := some (q ++ (old ++ u)) } p.length =
        some { data := p ++ (src ++ s), dest := some (q ++ (dst ++ u)) } :=
  ⟨evioswap_eq hw hs hfuel rfl rfl rfl (length_side (t.length_foreign comp hs .bank)),
    evioswap_eq hw hs hfuel rfl rfl hq hold⟩

def numbersTree : Tree := .container 1 0 .bank10 [.leaf 2 3 0x1 0 [5, 6]]

theorem wf_numbersTree : numbersTree.WF .bank := by
  simp [numbersTree, Tree.WF, Tree.WFAll]
  decide

def numbersEnv : SwapEnv := { atoi := fun _ => 0, fuel := 8 }

theorem swaps_numbersTree : numbersTree.Swaps numbersEnv id := ⟨trivial, trivial⟩

theorem evioswap_numbersTree :
    evioswap numbersEnv true 8 { data := [7] ++ (numbersTree.foreign id .bank ++ [9]) } 1 =
        some { data := [7] ++ (numbersTree.encode .bank ++ [9]) } ∧
      evioswap numbersEnv true 8 { data := [7] ++ (numbersTree.foreign id .bank ++ [9])
                                   dest := some ([8] ++ ([0, 0, 0, 0, 0, 0] ++ [])) } 1 =
        some { data := [7] ++ (numbersTree.foreign id .bank ++ [9])
               dest := some ([8] ++ (numbersTree.encode .bank ++ [])) } :=
  evioswap_tree wf_numbersTree swaps_numbersTree (show numbersTree.calls ≤ 8 by decide) [7] [9] [8]
    [0, 0, 0, 0, 0, 0] [] rfl rfl true

def Tree.diskEvent {env : SwapEnv} {comp : List UInt32 → List UInt32} (t : Tree) (hw : t.WF .bank)
    (hs : t.Swaps env comp) (hfuel : t.calls ≤ env.fuel)
    (hfits : (t.encode .bank).length + 16 < 2 ^ 30) : DiskEvent env true where
  words := t.encode .bank
  size := by cases t <;> simp [encode, Kind.header]
  fits := hfits
  disk := t.foreign comp .bank
  length := t.length_foreign comp hs .bank
  plain h := absurd h.symm Bool.false_ne_true
  foreign _ := by
    refine ⟨by cases t <;> simp [encode, foreign, Kind.header], fun p s q old u hq hold => ⟨?_, ?_⟩⟩
    · exact evioswap_eq hw hs hfuel rfl rfl rfl (t.length_foreign comp hs .bank)
    · exact evioswap_eq hw hs hfuel rfl rfl hq hold

def numbersRead : ReadEnv := { garbage := fun _ => 0, swap := numbersEnv }

def numbersEvent : DiskEvent numbersEnv true :=
  numbersTree.diskEvent wf_numbersTree swaps_numbersTree (by decide) (by decide)

end EvioTool
