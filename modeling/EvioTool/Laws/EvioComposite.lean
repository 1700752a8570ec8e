import EvioTool.Laws.EvioFmt
import EvioTool.Laws.EvioSwap

namespace EvioTool

open Lib

theorem bytesToWords_wordBytes (ws : List UInt32) : bytesToWords (Mem.wordBytes ws) = ws := by
  have := elements_pack 4 (ws.map UInt32.toBitVec) []
  rw [List.append_nil, ← Mem.wordBytes_eq_pack, List.length_map] at this
  rw [bytesToWords, Mem.length_wordBytes, Nat.mul_div_cancel_left _ (by decide), this, List.map_map]
  exact List.map_id _

theorem wordBytes_append (xs ys : List UInt32) :
    Mem.wordBytes (xs ++ ys) = Mem.wordBytes xs ++ Mem.wordBytes ys := List.flatMap_append

theorem takeWhile_append_of_mem {bs : List UInt8} (cs : List UInt8) (h : 0 ∈ bs) :
    (bs ++ cs).takeWhile (· ≠ 0) = bs.takeWhile (· ≠ 0) := by
  induction bs with
  | nil => simp at h
  | cons b bs ih =>
    by_cases hb : b = 0
    · simp [hb]
    · have := ih ((List.mem_cons.mp h).resolve_left (Ne.symm hb))
      simpa [List.takeWhile_cons, hb] using this

theorem cString_append {bs str : List UInt8} (cs : List UInt8) (h : cString bs = some str) :
    cString (bs ++ cs) = some str := by
  unfold cString at h
  split at h
  case isTrue hmem =>
    rw [cString, if_pos (List.mem_append_left _ hmem), takeWhile_append_of_mem cs hmem]
    exact h
  case isFalse => simp at h

namespace Swapped

variable {m : Swapped} {i n : Nat} {xs ys ws : List UInt32}

theorem setOut_splice_splice (h : i + xs.length ≤ m.out.length) :
    (m.setOut (splice m.out i xs)).setOut
        (splice (m.setOut (splice m.out i xs)).out (i + xs.length) ys) =
      m.setOut (splice m.out i (xs ++ ys)) := by
  rw [out_setOut, setOut_setOut, splice_splice h]

theorem Holds.swap_behind (h : m.Holds (i + xs.length) ws) (hout : i + xs.length + ws.length ≤ m.out.length) :
    swap_int32_t (m.setOut (splice m.out i xs)) (i + xs.length) ws.length =
      some (m.setOut (splice m.out i (xs ++ ws.map EVIO_SWAP32))) := by
  have hheld : (m.setOut (splice m.out i xs)).Holds (i + xs.length) ws := h.setOut le_rfl
  have hroom : i + xs.length + ws.length ≤ (m.setOut (splice m.out i xs)).out.length := by
    rw [out_setOut, length_splice_of_le (by omega)]
    exact hout
  rw [swap_int32_t, hheld.through (by simp) hroom, setOut_splice_splice (by omega)]

theorem Holds.copy_behind (h : m.Holds (i + xs.length) ws) (hout : i + xs.length + ws.length ≤ m.out.length) :
    EvioTool.copy_data (m.setOut (splice m.out i xs)) (i + xs.length) ws.length =
      some (m.setOut (splice m.out i (xs ++ ws))) := by
  have hheld : (m.setOut (splice m.out i xs)).Holds (i + xs.length) ws := h.setOut le_rfl
  have hroom : i + xs.length + ws.length ≤ (m.setOut (splice m.out i xs)).out.length := by
    rw [out_setOut, length_splice_of_le (by omega)]
    exact hout
  rw [hheld.copy_data hroom, setOut_splice_splice (by omega)]

theorem setOut_splice_nil : m.setOut (splice m.out i []) = m := by
  rw [splice, List.append_nil, List.length_nil, Nat.add_zero, List.take_append_drop, setOut_out]

theorem Holds.drop_eq (h : m.Holds i ws) : m.data.drop i = ws ++ m.data.drop (i + ws.length) := by
  obtain ⟨-, htake⟩ := holds_iff.mp h
  conv => rhs; arg 1; rw [← htake]
  rw [← List.drop_drop, List.take_append_drop]

theorem Holds.read_local (tolocal : Bool) (h : m.Holds (i + xs.length) ws)
    (hout : i + xs.length + ws.length ≤ m.out.length) {j : Nat} (hj : j < ws.length) :
    (if tolocal then (m.setOut (splice m.out i (xs ++ ws.map EVIO_SWAP32))).out
      else (m.setOut (splice m.out i xs)).data)[i + xs.length + j]? =
        (side tolocal ws (ws.map EVIO_SWAP32))[j]? := by
  cases tolocal
  · exact Holds.getElem? (h.setOut le_rfl) hj
  · have hdrop := congrArg (fun l => l[j]?) (drop_splice_append xs (ws.map EVIO_SWAP32)
      (show i ≤ m.out.length by omega))
    simp only [List.getElem?_drop] at hdrop
    rw [if_pos rfl, out_setOut, hdrop, List.getElem?_append_left (by simpa using hj)]
    rfl

end Swapped

section Element

variable {env : SwapEnv} {tolocal : Bool} {m : Swapped} {i fuel : Nat} {head size bankHead : UInt32}
  {format data data' : List UInt32} {codes str : List UInt8}

theorem swapCompositeElement_eq
    (hhead : (side tolocal head (EVIO_SWAP32 head) &&& 0xffff).toNat = format.length)
    (hsize : (side tolocal size (EVIO_SWAP32 size) - 1).toNat = data.length)
    (htext : cString (Mem.wordBytes format) = some str) (hcodes : eviofmt env.atoi 1024 str = .ok codes)
    (hne : codes ≠ [])
    (hdata : ∀ q, eviofmtswap (Mem.wordBytes data ++ q) (toInt32 data.length) codes tolocal env.fuel env.fuel =
      some (0, Mem.wordBytes data' ++ q))
    (hlen : data'.length = data.length)
    (hm : m.Holds i ([head] ++ (format ++ ([size, bankHead] ++ data))))
    (hout : i + (1 + (format.length + (2 + data.length))) ≤ m.out.length) :
    swapCompositeElement env tolocal m i = some (1 + format.length + 2 + data.length, true,
      m.setOut (splice m.out i ([EVIO_SWAP32 head] ++ (format ++
        ([EVIO_SWAP32 size, EVIO_SWAP32 bankHead] ++ data'))))) := by
  obtain ⟨hm₁, hm'⟩ := hm.append
  obtain ⟨hm₂, hm''⟩ := hm'.append
  obtain ⟨hm₃, hm₄⟩ := hm''.append
  -- the words in front of the data, as they are written
  let xs₁ := [EVIO_SWAP32 head]
  let xs₂ := xs₁ ++ format
  let xs₃ := xs₂ ++ [EVIO_SWAP32 size, EVIO_SWAP32 bankHead]
  let written (xs : List UInt32) := m.setOut (splice m.out i xs)
  have hlen₂ : xs₂.length = 1 + format.length := List.length_append
  have hlen₃ : xs₃.length = 1 + format.length + 2 := by
    rw [List.length_append, hlen₂]
    rfl
  replace hm₂ : m.Holds (i + xs₁.length) format := hm₂
  replace hm₃ : m.Holds (i + xs₂.length) [size, bankHead] := by
    rw [hlen₂, ← Nat.add_assoc]
    exact hm₃
  replace hm₄ : m.Holds (i + xs₃.length) data := by
    rw [hlen₃, ← Nat.add_assoc, ← Nat.add_assoc]
    exact hm₄
  have hm₀ : m.Holds (i + ([] : List UInt32).length) [head] := hm₁
  have hswap₁ : swap_int32_t m i 1 = some (written xs₁) := by
    have := hm₀.swap_behind (show i + 0 + 1 ≤ _ by omega)
    rwa [Swapped.setOut_splice_nil] at this
  have hread₁ : (if tolocal then (written xs₁).out else m.data)[i]? =
      some (side tolocal head (EVIO_SWAP32 head)) := by
    have := hm₀.read_local tolocal (show i + 0 + 1 ≤ _ by omega) (j := 0) (by simp)
    rw [Swapped.setOut_splice_nil] at this
    refine this.trans ?_
    cases tolocal <;> rfl
  have hcopy₂ : copy_data (written xs₁) (i + 1) format.length = some (written xs₂) :=
    hm₂.copy_behind (show i + 1 + format.length ≤ _ by omega)
  have hswap₃ : swap_int32_t (written xs₂) (i + format.length + 1) 2 = some (written xs₃) := by
    rw [show i + format.length + 1 = i + xs₂.length by omega]
    exact hm₃.swap_behind (show i + xs₂.length + 2 ≤ _ by omega)
  have hread₃ : (if tolocal then (written xs₃).out else (written xs₂).data)[i + format.length + 1]? =
      some (side tolocal size (EVIO_SWAP32 size)) := by
    rw [show i + format.length + 1 = i + xs₂.length + 0 by omega]
    refine (hm₃.read_local tolocal (show i + xs₂.length + 2 ≤ _ by omega) (j := 0) (by simp)).trans ?_
    cases tolocal <;> rfl
  have hcopy₄ : copy_data (written xs₃) (i + format.length + 3) data.length = some (written (xs₃ ++ data)) := by
    rw [show i + format.length + 3 = i + xs₃.length by omega]
    exact hm₄.copy_behind (by omega)
  have hstring : cString (Mem.wordBytes ((if tolocal then (written (xs₃ ++ data)).out
      else (written (xs₃ ++ data)).data).drop (i + 1))) = some str := by
    obtain ⟨rest, hrest⟩ : ∃ rest, (if tolocal then (written (xs₃ ++ data)).out
        else (written (xs₃ ++ data)).data).drop (i + 1) = format ++ rest := by
      have hout' : ∃ rest, (written (xs₃ ++ data)).out.drop (i + 1) = format ++ rest := by
        have hsplit : xs₃ ++ data =
            xs₁ ++ (format ++ ([EVIO_SWAP32 size, EVIO_SWAP32 bankHead] ++ data)) := by simp [xs₃, xs₂]
        rw [Swapped.out_setOut, hsplit]
        refine ⟨_, (drop_splice_append xs₁ _ (by omega)).trans (List.append_assoc ..)⟩
      cases tolocal
      · cases hdest : m.dest with
        | none =>
          have hdata : (written (xs₃ ++ data)).data = (written (xs₃ ++ data)).out := by
            simp [written, Swapped.setOut, Swapped.out, hdest]
          rw [if_neg Bool.false_ne_true, hdata]
          exact hout'
        | some dest =>
          have hdata : (written (xs₃ ++ data)).data = m.data := by
            simp [written, Swapped.setOut, hdest]
          rw [if_neg Bool.false_ne_true, hdata]
          exact ⟨_, hm₂.drop_eq⟩
      · exact hout'
    rw [hrest, wordBytes_append]
    exact cString_append _ htext
  have hbytes : (written (xs₃ ++ data)).out.drop (i + format.length + 3) =
      data ++ m.out.drop (i + (xs₃ ++ data).length) := by
    rw [show i + format.length + 3 = i + xs₃.length by omega, Swapped.out_setOut]
    exact drop_splice_append _ _ (by omega)
  have hresult : (written (xs₃ ++ data)).setOut ((written (xs₃ ++ data)).out.take (i + format.length + 3) ++
      (data' ++ m.out.drop (i + (xs₃ ++ data).length))) = written (xs₃ ++ data') := by
    rw [show i + format.length + 3 = i + xs₃.length by omega, Swapped.out_setOut,
      take_splice_append (by omega), Swapped.setOut_setOut]
    have htail : (xs₃ ++ data).length = (xs₃ ++ data').length := by
      have hdata : (xs₃ ++ data).length = xs₃.length + data.length := List.length_append
      have hdata' : (xs₃ ++ data').length = xs₃.length + data'.length := List.length_append
      omega
    show _ = m.setOut (splice m.out i (xs₃ ++ data'))
    rw [htail, splice]
    simp only [List.append_assoc]
  unfold swapCompositeElement
  simp only [Option.bind_eq_bind, hswap₁, Option.bind_some, hread₁, hhead, hcopy₂, hswap₃, hread₃, hsize, hcopy₄,
    hstring, hcodes, hne, if_false, hbytes, wordBytes_append, hdata]
  rw [← wordBytes_append, bytesToWords_wordBytes, hresult]
  have hall : xs₃ ++ data' = [EVIO_SWAP32 head] ++ (format ++
      ([EVIO_SWAP32 size, EVIO_SWAP32 bankHead] ++ data')) := by simp [xs₃, xs₂, xs₁]
  simp only [written, hall]
  simp

end Element

namespace Composite

variable {env : SwapEnv} {m : Swapped} {i fuel : Nat}

theorem length_words (c : Composite env) : c.words.length = 1 + c.format.length + 2 + c.data.length := by
  simp [words, bank]
  omega

theorem length_foreign (c : Composite env) : c.foreign.length = c.words.length := by
  simp [foreign, words, c.length]

theorem format_lt (c : Composite env) : c.format.length < 2 ^ 16 := by
  rw [← c.formatLength, UInt32.toNat_and_of (n := 16) rfl]
  exact Nat.mod_lt _ (by decide)

theorem toInt32_length (c : Composite env) : toInt32 c.data.length = c.data.length := by
  have := c.fits
  exact toInt32_eq (by omega) (by omega)

theorem size_sub_one (c : Composite env) : (UInt32.ofNat (c.data.length + 1) - 1).toNat = c.data.length := by
  have := c.fits
  exact toNat_length_word (by omega)

theorem element_eq (c : Composite env) (tolocal : Bool) (hm : m.Holds i (side tolocal c.words c.foreign))
    (hout : i + c.words.length ≤ m.out.length) :
    swapCompositeElement env tolocal m i =
      some (c.words.length, true, m.setOut (splice m.out i (side tolocal c.foreign c.words))) := by
  have hlen := c.length_words
  cases tolocal
  · have hdata (q : List UInt8) : eviofmtswap (Mem.wordBytes c.data ++ q) (toInt32 c.data.length) c.codes false
        env.fuel env.fuel = some (0, Mem.wordBytes c.disk ++ q) := by
      rw [c.toInt32_length]
      exact eviofmtswap_back_append c.counts c.swaps q
    rw [hlen]
    show swapCompositeElement env false m i = some (_, true, m.setOut (splice m.out i ([EVIO_SWAP32 c.head] ++
      (c.format ++ ([EVIO_SWAP32 (.ofNat (c.data.length + 1)), EVIO_SWAP32 c.bankHead] ++ c.disk)))))
    exact swapCompositeElement_eq c.formatLength c.size_sub_one c.string c.parsed c.codes_ne hdata c.length hm
      (by omega)
  · have hdata (q : List UInt8) : eviofmtswap (Mem.wordBytes c.disk ++ q) (toInt32 c.disk.length) c.codes true
        env.fuel env.fuel = some (0, Mem.wordBytes c.data ++ q) := by
      rw [c.length, c.toInt32_length]
      exact eviofmtswap_append c.counts c.swaps q
    have hhead : (side true (EVIO_SWAP32 c.head) (EVIO_SWAP32 (EVIO_SWAP32 c.head)) &&& 0xffff).toNat =
        c.format.length := by
      simpa [side] using c.formatLength
    have hsize : (side true (EVIO_SWAP32 (.ofNat (c.data.length + 1)))
        (EVIO_SWAP32 (EVIO_SWAP32 (.ofNat (c.data.length + 1)))) - 1).toNat = c.disk.length := by
      simpa [side, c.length] using c.size_sub_one
    have hdst : side true c.foreign c.words = [EVIO_SWAP32 (EVIO_SWAP32 c.head)] ++ (c.format ++
        ([EVIO_SWAP32 (EVIO_SWAP32 (.ofNat (c.data.length + 1))), EVIO_SWAP32 (EVIO_SWAP32 c.bankHead)] ++
          c.data)) := by
      simp [side, words, bank]
    have hlen' : c.words.length = 1 + c.format.length + 2 + c.disk.length := by
      rw [hlen, c.length]
    rw [hdst, hlen']
    exact swapCompositeElement_eq hhead hsize c.string c.parsed c.codes_ne hdata c.length.symm hm
      (by rw [c.length]; omega)

theorem nothing_left {n : Nat} (h : n < 4294967296) : (n + 4294967296 - n % 4294967296) % 4294967296 = 0 := by
  rw [Nat.mod_eq_of_lt h, Nat.add_sub_cancel_left, Nat.mod_self]

theorem swap_composite_t_zero (env : SwapEnv) (tolocal : Bool) (fuel : Nat) (first : Bool) (m : Swapped)
    (i : Nat) : swap_composite_t env tolocal (fuel + 1) first m i 0 = some m := by
  rw [swap_composite_t, if_pos rfl]

theorem swap_composite_t_once {tolocal : Bool} {m' : Swapped} {n : Nat} (fuel : Nat) (hpos : n ≠ 0)
    (hn : n < 4294967296) (h : swapCompositeElement env tolocal m i = some (n, true, m')) :
    swap_composite_t env tolocal (fuel + 2) true m i n = some m' := by
  rw [swap_composite_t, if_neg hpos, if_neg (fun hdest => absurd hdest.2 (by decide)), h]
  refine Option.bind_eq_some_iff.mpr ⟨(n, true, m'), rfl, ?_⟩
  refine (if_pos rfl).trans ?_
  have hrest := nothing_left hn
  generalize (n + 4294967296 - n % 4294967296) % 4294967296 = r at hrest ⊢
  rw [hrest]
  exact swap_composite_t_zero env tolocal fuel false m' (i + n)

theorem swap_eq (c : Composite env) (tolocal : Bool) (hfuel : 2 ≤ fuel)
    (hm : m.Holds i (side tolocal c.words c.foreign)) (hout : i + c.words.length ≤ m.out.length) :
    swap_composite_t env tolocal fuel true m i c.words.length =
      some (m.setOut (splice m.out i (side tolocal c.foreign c.words))) := by
  obtain ⟨fuel, rfl⟩ := Nat.exists_eq_add_of_le' hfuel
  have hlen := c.length_words
  have hformat := c.format_lt
  have hfits := c.fits
  exact swap_composite_t_once fuel (by omega) (by omega) (c.element_eq tolocal hm hout)

end Composite

/-- What the swap of event trees asks of composite data holds for those of one element. -/
theorem compositeSwaps_words {env : SwapEnv} (c : Composite env) {comp : List UInt32 → List UInt32}
    (hcomp : comp c.words = c.foreign) : CompositeSwaps env comp c.words := by
  refine ⟨by rw [hcomp, c.length_foreign], fun tolocal fuel m i hfuel hm hout => ?_⟩
  rw [hcomp] at hm ⊢
  exact c.swap_eq tolocal hfuel hm hout

theorem countsNoText_number : CountsNoText [27] := by
  intro code h
  rw [List.mem_singleton.mp h]
  decide

def numbersComposite : Composite numbersEnv where
  head := 1
  format := [73]
  bankHead := 0
  data := [1, 2]
  disk := [0x01000000, 0x02000000]
  text := [73]
  codes := [27]
  formatLength := rfl
  string := by decide
  parsed := by decide
  codes_ne := List.cons_ne_nil _ _
  counts := countsNoText_number
  fits := by decide
  length := rfl
  swaps := by decide

theorem compositeSwaps_numbers :
    CompositeSwaps numbersEnv (fun _ => numbersComposite.foreign) numbersComposite.words :=
  compositeSwaps_words numbersComposite rfl

end EvioTool
