import EvioTool.Defs.EvioBlocks
import EvioTool.Laws.EvioNumbers
import EvioTool.Laws.EvioSwap

namespace EvioTool

open Lib

@[simp] theorem length_blockHeader (size num count : Nat) (ver : UInt32) :
    (blockHeader size num count ver).length = 8 := rfl

@[simp] theorem length_order (sw : Bool) (ws : List UInt32) : (order sw ws).length = ws.length := by
  cases sw <;> simp [order]

@[simp] theorem length_malloc (garbage : Nat → UInt32) (n : Nat) : (malloc garbage n).length = n := by
  simp [malloc]

theorem u32_eq {n : Nat} (h : n < 2 ^ 32) : u32 n = n := Nat.mod_eq_of_lt h

theorem sub32_eq {m n : Nat} (h : n ≤ m) (hm : m < 2 ^ 32) : sub32 m n = m - n := by
  unfold sub32
  omega

theorem sub32_add {n : Nat} (h : 8 + n < 2 ^ 30) : sub32 (8 + n) 8 = n := by
  rw [sub32_eq (by omega) (by omega), Nat.add_sub_cancel_left]

theorem bytes_of_words {n : Nat} (h : n < 2 ^ 30) : u32 (4 * n) / 4 = n := by
  rw [u32_eq (by omega)]
  omega

theorem EvioEvent.words_eq (e : EvioEvent) :
    ∃ w rest, e.words = w :: rest ∧ (w + 1).toNat = e.words.length := by
  obtain ⟨w, rest, hwords⟩ : ∃ w rest, e.words = w :: rest := by
    cases hw : e.words with
    | nil => simpa [hw] using e.size
    | cons w rest => exact ⟨w, rest, rfl⟩
  have hw : w = UInt32.ofNat (e.words.length - 1) := by simpa [hwords] using e.size
  refine ⟨w, rest, hwords, ?_⟩
  have hpos : 0 < e.words.length := by simp [hwords]
  have := e.fits
  rw [hw, UInt32.toNat_add, UInt32.toNat_ofNat_of_lt' (by simp [UInt32.size]; omega)]
  simp
  omega

theorem DiskEvent.disk_ne_nil {env : SwapEnv} {sw : Bool} (e : DiskEvent env sw) : e.disk ≠ [] := by
  intro h
  have hlen := e.length
  rw [h] at hlen
  have := e.size
  rw [List.length_eq_zero_iff.mp hlen.symm] at this
  simp at this

namespace EvReader

variable {env : ReadEnv} {sw : Bool} {a : EvReader} {p m t xs rest hdr payload : List UInt32}
  {i size num count : Nat} {ver : UInt32}

structure AtRest (f : Stream) (rest : List UInt32) : Prop where
  words : f.words.drop f.pos = rest
  feof : f.feof = false

theorem AtRest.ahead {f : Stream} (h : AtRest f (xs ++ rest)) : f.ahead xs.length = xs := by
  rw [Stream.ahead, h.words, List.take_left]

theorem AtRest.fread {f : Stream} (h : AtRest f (xs ++ rest)) : AtRest (f.fread xs.length) rest where
  words := by
    rw [Stream.fread, h.ahead, ← List.drop_drop, h.words, List.drop_left]
  feof := by simp [Stream.fread, h.ahead, h.feof]

theorem readInto_eq (h : AtRest a.file (xs ++ rest)) (hbuf : a.buf = p ++ (m ++ t))
    (hm : m.length = xs.length) :
    a.readInto p.length xs.length =
      some { a with buf := p ++ (xs ++ t), file := a.file.fread xs.length } := by
  have hpoke : poke a.buf p.length xs = some (p ++ (xs ++ t)) := by
    rw [hbuf, poke_eq (by simp; omega), splice_append rfl hm]
  simp [readInto, h.ahead, hpoke]

theorem swapIf_eq (hsw : a.byte_swapped = sw) (hbuf : a.buf = p ++ (order sw xs ++ t)) :
    a.swapIf p.length xs.length = some { a with buf := p ++ (xs ++ t) } := by
  unfold swapIf
  cases sw with
  | false =>
    have hself : { a with buf := p ++ (xs ++ t) } = a := by rw [show p ++ (xs ++ t) = a.buf from hbuf.symm]
    rw [if_neg (by simp [hsw]), hself]
    rfl
  | true =>
    have hholds : Swapped.Holds { data := a.buf } p.length (order true xs) := by
      refine Swapped.holds_iff.mpr ⟨?_, ?_⟩
      · simp [hbuf]
      · rw [hbuf, List.drop_left, List.take_left]
    have hswap := hholds.through (f := List.map EVIO_SWAP32) (by simp) (by simp [Swapped.out, hbuf])
    rw [length_order] at hswap
    simp only [hsw, if_true, swap_int32_t, hswap, Option.bind_eq_bind, Option.bind_some,
      Option.pure_def, Swapped.setOut, Swapped.out, Option.getD_none]
    rw [hbuf, splice_append rfl (by simp), order, if_pos rfl, map_swap32_map_swap32]

theorem growBuffer_eq (env : ReadEnv) {a : EvReader} (hdr : List UInt32) (hbuf : a.buf = hdr ++ t) (n : Nat) :
    ∃ t', (hdr.length < n → n ≤ hdr.length + t'.length) ∧
      a.growBuffer env hdr.length n = some { a with buf := hdr ++ t' } := by
  unfold growBuffer
  by_cases h : a.buf.length < n
  · have htake : a.buf.take hdr.length = hdr := by rw [hbuf, List.take_left]
    have hle : hdr.length ≤ a.buf.length := by simp [hbuf]
    have hpoke : poke (malloc env.garbage n) 0 hdr = some (hdr ++ (malloc env.garbage n).drop hdr.length) := by
      rw [poke_eq (by simp; omega), splice, List.take_zero, List.nil_append, Nat.zero_add]
    refine ⟨(malloc env.garbage n).drop hdr.length, fun hn => ?_, ?_⟩
    · simp
      omega
    · rw [if_pos h, if_pos hle, htake, hpoke]
      rfl
  · refine ⟨t, fun _ => ?_, ?_⟩
    · simp [hbuf] at h
      exact h
    · rw [if_neg h, ← hbuf]
      rfl

theorem evGetNewBuffer_eq (env : ReadEnv) {bsize bnum w3 w4 w5 w6 w7 : UInt32} {body : List UInt32}
    (h : AtRest a.file (order sw [bsize, bnum, 8, w3, w4, w5, w6, w7] ++ (body ++ rest)))
    (hsw : a.byte_swapped = sw) (hbuf : 8 ≤ a.buf.length) (hlast : a.isLastBlock = false)
    (hsize : bsize.toNat = 8 + body.length) (hlen : 8 + body.length < 2 ^ 30) :
    ∃ t, a.evGetNewBuffer env =
      startBlock { a with
        buf := [bsize, bnum, 8, w3, w4, w5, w6, w7] ++ (body ++ t)
        file := (a.file.fread 8).fread body.length } 8 (8 + body.length) := by
  obtain ⟨m, t, hmt, hm⟩ : ∃ m t, a.buf = m ++ t ∧ m.length = 8 :=
    ⟨a.buf.take 8, a.buf.drop 8, (List.take_append_drop ..).symm, List.length_take_of_le hbuf⟩
  have hread := readInto_eq (p := []) h hmt (by simpa using hm)
  have hrest := h.fread
  simp only [length_order, List.length_cons, List.length_nil, Nat.reduceAdd, List.nil_append] at hread hrest
  have hswap := swapIf_eq (a := { a with
    buf := order sw [bsize, bnum, 8, w3, w4, w5, w6, w7] ++ t, file := a.file.fread 8 }) (p := []) hsw rfl
  simp only [List.length_cons, List.length_nil, Nat.reduceAdd, List.nil_append] at hswap
  obtain ⟨t', ht', hgrow⟩ := growBuffer_eq env [bsize, bnum, 8, w3, w4, w5, w6, w7]
    (a := { a with buf := [bsize, bnum, 8, w3, w4, w5, w6, w7] ++ t, file := a.file.fread 8 }) rfl
    (8 + body.length)
  simp only [List.length_cons, List.length_nil, Nat.reduceAdd] at hgrow ht'
  obtain ⟨m', t'', hmt', hm'⟩ : ∃ m' t'', t' = m' ++ t'' ∧ m'.length = body.length := by
    refine ⟨t'.take body.length, t'.drop body.length, (List.take_append_drop ..).symm,
      List.length_take_of_le ?_⟩
    by_cases hb : body.length = 0
    · omega
    · have := ht' (by omega)
      omega
  have hbody := readInto_eq (a := { a with
    buf := [bsize, bnum, 8, w3, w4, w5, w6, w7] ++ t', file := a.file.fread 8 })
    (p := [bsize, bnum, 8, w3, w4, w5, w6, w7]) hrest (by rw [hmt']) hm'
  simp only [List.length_cons, List.length_nil, Nat.reduceAdd] at hbody
  refine ⟨t'', ?_⟩
  have hn : u32 (4 * sub32 (8 + body.length) 8) / 4 = body.length := by
    rw [sub32_add hlen, bytes_of_words (by omega)]
  unfold evGetNewBuffer
  rw [if_neg (by simp [hlast]), if_neg (by simp [h.feof])]
  simp only [EV_HDSIZ, hread, Option.bind_eq_bind, Option.bind_some, hrest.feof, Bool.false_eq_true,
    if_false, hswap]
  simp only [word, EV_HD_HDSIZ, EV_HD_BLKSIZ, readRestOfHeader, List.cons_append, List.nil_append] at *
  simp [hrest.feof, hgrow, hsize, hn, hbody, hrest.fread.feof, EV_HDSIZ]

structure Like (a b : EvReader) : Prop where
  file : a.file = b.file
  byte_swapped : a.byte_swapped = b.byte_swapped
  version : a.version = b.version
  isLastBlock : a.isLastBlock = b.isLastBlock
  length : a.buf.length = b.buf.length

structure At (a : EvReader) (ws : List UInt32) : Prop where
  buf : ∃ p t, a.buf = p ++ (ws ++ t) ∧ a.next = p.length
  left : a.left = ws.length
  fits : ws.length < 2 ^ 30

/-- The file supplies the given words, block by block, and comes to its end behind them. -/
def Supplies (env : ReadEnv) : List (List UInt32) → EvReader → Prop
  | [], a => ∀ b, Like b a → ∃ b', b.evGetNewBuffer env = some (EV_EOF, b')
  | c :: cs, a => c ≠ [] ∧ ∀ b, Like b a → ∃ b', b.evGetNewBuffer env = some (0, b') ∧
      b'.byte_swapped = a.byte_swapped ∧ b'.version = a.version ∧ b'.At c ∧ Supplies env cs b'

structure Reading (env : ReadEnv) (a : EvReader) (ws : List UInt32) (cs : List (List UInt32)) :
    Prop where
  here : a.At ws
  behind : Supplies env cs a

variable {b : EvReader} {ws : List UInt32} {cs : List (List UInt32)}

theorem Supplies.like (h : Supplies env cs a) (hb : Like b a) : Supplies env cs b := by
  have htrans {c : EvReader} (hc : Like c b) : Like c a :=
    ⟨hc.file.trans hb.file, hc.byte_swapped.trans hb.byte_swapped, hc.version.trans hb.version,
      hc.isLastBlock.trans hb.isLastBlock, hc.length.trans hb.length⟩
  cases cs with
  | nil => exact fun c hc => h c (htrans hc)
  | cons d ds =>
    refine ⟨h.1, fun c hc => ?_⟩
    rw [hb.byte_swapped, hb.version]
    exact h.2 c (htrans hc)

theorem Reading.needBlock_of_ne_nil (h : Reading env a ws cs) (hws : ws ≠ []) :
    a.needBlock env = some (0, a) := by
  have := List.length_pos_iff.mpr hws
  rw [needBlock, if_neg (by rw [h.here.left]; omega)]

theorem Reading.needBlock_nil (h : Reading env a [] []) :
    ∃ a', a.needBlock env = some (EV_EOF, a') := by
  obtain ⟨a', ha⟩ := h.behind a ⟨rfl, rfl, rfl, rfl, rfl⟩
  refine ⟨a', ?_⟩
  rw [needBlock, if_pos (by rw [h.here.left]; decide), ha]

theorem Reading.needBlock_cons {c : List UInt32} (h : Reading env a [] (c :: cs)) :
    ∃ a', a.needBlock env = some (0, a') ∧ Reading env a' c cs ∧ c ≠ [] ∧
      a'.byte_swapped = a.byte_swapped ∧ a'.version = a.version := by
  obtain ⟨hc, hnext⟩ := h.behind
  obtain ⟨a', ha, hswapped, hversion, hat, hrest⟩ := hnext a ⟨rfl, rfl, rfl, rfl, rfl⟩
  refine ⟨a', ?_, ⟨hat, hrest⟩, hc, hswapped, hversion⟩
  rw [needBlock, if_pos (by rw [h.here.left]; decide), ha]

theorem Reading.needBlock (h : Reading env a ws cs) (hne : ws ++ cs.flatten ≠ []) :
    ∃ a' ws' cs', a.needBlock env = some (0, a') ∧ Reading env a' ws' cs' ∧ ws' ≠ [] ∧
      ws' ++ cs'.flatten = ws ++ cs.flatten ∧
      a'.byte_swapped = a.byte_swapped ∧ a'.version = a.version := by
  by_cases hws : ws = []
  · subst hws
    cases cs with
    | nil => simp at hne
    | cons c cs =>
      obtain ⟨a', ha, hr, hc, hswapped, hversion⟩ := h.needBlock_cons
      exact ⟨a', c, cs, ha, hr, hc, rfl, hswapped, hversion⟩
  · exact ⟨a, ws, cs, h.needBlock_of_ne_nil hws, h, hws, rfl, rfl, rfl⟩

theorem Reading.skip (h : Reading env a (xs ++ ws) cs) (left : Nat) (hleft : left = ws.length) :
    Reading env { a with next := a.next + xs.length, left } ws cs := by
  obtain ⟨p, t, hbuf, hnext⟩ := h.here.buf
  have hfits := h.here.fits
  refine ⟨⟨⟨p ++ xs, t, ?_, ?_⟩, hleft, ?_⟩, ?_⟩
  · simp [hbuf]
  · simp [hnext]
  · simp at hfits
    omega
  · exact h.behind.like ⟨rfl, rfl, rfl, rfl, rfl⟩

theorem At.take (h : a.At (xs ++ ws)) : (a.buf.drop a.next).take xs.length = xs := by
  obtain ⟨p, t, hbuf, hnext⟩ := h.buf
  rw [hbuf, hnext, List.drop_left, List.append_assoc, List.take_left]

theorem At.le (h : a.At (xs ++ ws)) : a.next + xs.length ≤ a.buf.length := by
  obtain ⟨p, t, hbuf, hnext⟩ := h.buf
  simp [hbuf, hnext]

theorem eventLength_eq (e : DiskEvent env.swap sw) (hsw : a.byte_swapped = sw) (h : a.At ws)
    (hhead : ws.head? = e.disk.head?) : a.eventLength = some e.words.length := by
  obtain ⟨p, t, hbuf, hnext⟩ := h.buf
  obtain ⟨w, rest, hwords, hlen⟩ := e.words_eq
  have hdisk : e.disk.head? = some (if sw then EVIO_SWAP32 w else w) := by
    cases sw with
    | false => rw [e.plain rfl, hwords]; rfl
    | true => rw [(e.foreign rfl).1, hwords]; rfl
  obtain ⟨rest', hws⟩ : ∃ rest', ws = (if sw then EVIO_SWAP32 w else w) :: rest' := by
    rw [hdisk] at hhead
    exact ⟨ws.tail, (List.cons_head?_tail hhead).symm⟩
  have hat : a.buf[a.next]? = some (if sw then EVIO_SWAP32 w else w) := by
    rw [hbuf, hnext, hws, List.getElem?_append_right (le_refl _), Nat.sub_self]
    rfl
  rw [eventLength, hat]
  cases sw <;> simpa [hsw] using hlen

theorem Reading.evReadNoCopy {e : DiskEvent env.swap sw} (hsw : a.byte_swapped = sw)
    (hversion : a.version = 4) (h : Reading env a (e.disk ++ ws) cs) :
    ∃ a', a.evReadNoCopy env = some (0, e.words, a') ∧ Reading env a' ws cs ∧
      a'.byte_swapped = a.byte_swapped ∧ a'.version = a.version := by
  obtain ⟨p, t, hbuf, hnext⟩ := h.here.buf
  have hne : e.disk ++ ws ≠ [] := by simp [e.disk_ne_nil]
  have hnleft := eventLength_eq e hsw h.here (List.head?_append_of_ne_nil _ e.disk_ne_nil)
  have hfits := h.here.fits
  have hleft : sub32 a.left e.words.length = ws.length := by
    rw [h.here.left, sub32_eq (by simp [e.length]) (by omega)]
    simp [e.length]
  -- the event is swapped in place
  have hswap : a.swapEvent env = some (p ++ (e.words ++ (ws ++ t))) := by
    unfold swapEvent
    cases sw with
    | false => simp [hsw, hbuf, ← e.plain rfl]
    | true =>
      obtain ⟨-, hto⟩ := e.foreign rfl
      have := (hto p (ws ++ t) p e.words [] rfl rfl).1
      rw [hsw, if_pos rfl, hbuf, hnext, List.append_assoc, this]
      rfl
  have hread : a.evReadNoCopy env = some (0, e.words, { a with
      buf := p ++ (e.words ++ (ws ++ t))
      next := a.next + e.words.length
      left := ws.length }) := by
    unfold EvReader.evReadNoCopy
    rw [if_neg (by omega), h.needBlock_of_ne_nil hne]
    simp only [Option.bind_eq_bind, Option.bind_some, ne_eq, not_true_eq_false, if_false, hnleft,
      Option.pure_def, hswap, hleft]
    rw [if_pos (by simp [hnext]), hnext, List.drop_left, List.take_left]
  refine ⟨_, hread, ⟨⟨⟨p ++ e.words, t, by simp, by simp [hnext]⟩, rfl, ?_⟩, ?_⟩, rfl, rfl⟩
  · simp at hfits
    omega
  · exact h.behind.like ⟨rfl, rfl, rfl, rfl, by simp [hbuf, e.length]⟩

theorem Reading.collect (h : Reading env a ws cs) (hws : ws ++ cs.flatten = xs ++ rest)
    {fuel : Nat} (hfuel : xs.length < fuel) (got : List UInt32) :
    ∃ a' ws' cs', a.collect env fuel xs.length got = some (0, got ++ xs, a') ∧
      Reading env a' ws' cs' ∧ ws' ++ cs'.flatten = rest ∧ a'.byte_swapped = a.byte_swapped ∧
      a'.version = a.version := by
  induction fuel generalizing a ws cs xs got with
  | zero => omega
  | succ fuel ih =>
    by_cases hnil : xs = []
    · subst hnil
      exact ⟨a, ws, cs, by simp [EvReader.collect], h, hws, rfl, rfl⟩
    · obtain ⟨b, ws', cs', hblock, hb, hne, hcat, hswapped, hversion⟩ :=
        h.needBlock (by rw [hws]; simp [hnil])
      rw [hws] at hcat
      have hpos := List.length_pos_iff.mpr hne
      have hxs := List.length_pos_iff.mpr hnil
      -- the words that this block has of the event
      obtain ⟨ys, zs, vs, hys, hxs', hvs⟩ : ∃ ys zs vs, ws' = ys ++ vs ∧ xs = ys ++ zs ∧
          ys.length = min xs.length ws'.length := by
        refine ⟨ws'.take xs.length, xs.drop ws'.length, ws'.drop xs.length,
          (List.take_append_drop ..).symm, ?_, by simp⟩
        rcases List.append_eq_append_iff.mp hcat with ⟨l, rfl, -⟩ | ⟨l, rfl, -⟩ <;> simp
      have hle := (hys ▸ hb.here).le
      have htake := (hys ▸ hb.here).take
      have hskip := (hys ▸ hb).skip (b.left - ys.length) (by
        rw [hb.here.left, hys]
        simp)
      have hcat' : vs ++ cs'.flatten = zs ++ rest := by
        rw [hys, hxs'] at hcat
        simpa using hcat
      have hfuel' : zs.length < fuel := by
        have := congrArg List.length hxs'
        simp at this
        omega
      obtain ⟨c, us, ds, hcol, hc, hrest, hcs, hcv⟩ := ih hskip hcat' hfuel' (got ++ ys)
      refine ⟨c, us, ds, ?_, hc, hrest, hcs.trans hswapped, hcv.trans hversion⟩
      have hz : xs.length - ys.length = zs.length := by simp [hxs']
      rw [EvReader.collect, if_neg (by omega), hblock]
      simp only [Option.bind_eq_bind, Option.bind_some, ne_eq, not_true_eq_false, if_false]
      rw [hb.here.left, ← hvs, if_pos hle, htake, hz, ← hb.here.left, hcol]
      simp [hxs']

theorem Reading.evReadAlloc {e : DiskEvent env.swap sw} (hsw : a.byte_swapped = sw)
    (h : Reading env a ws cs) (hws : ws ++ cs.flatten = e.disk ++ rest) {fuel : Nat}
    (hfuel : e.words.length < fuel) :
    ∃ a' ws' cs', a.evReadAlloc env fuel = some (0, e.words, a') ∧ Reading env a' ws' cs' ∧
      ws' ++ cs'.flatten = rest ∧ a'.byte_swapped = a.byte_swapped ∧ a'.version = a.version := by
  obtain ⟨b, ws', cs', hblock, hb, hne, hcat, hswapped, hversion⟩ :=
    h.needBlock (by rw [hws]; simp [e.disk_ne_nil])
  rw [hws] at hcat
  have hhead : ws'.head? = e.disk.head? := by
    have := congrArg List.head? hcat
    rwa [List.head?_append_of_ne_nil _ hne, List.head?_append_of_ne_nil _ e.disk_ne_nil] at this
  have hnleft := eventLength_eq e (hswapped.trans hsw) hb.here hhead
  rw [← e.length] at hnleft hfuel
  obtain ⟨c, us, ds, hcol, hc, hrest, hcs, hcv⟩ := hb.collect hcat hfuel []
  refine ⟨c, us, ds, ?_, hc, hrest, hcs.trans hswapped, hcv.trans hversion⟩
  have hc' : c.byte_swapped = sw := (hcs.trans hswapped).trans hsw
  rw [EvReader.evReadAlloc, hblock]
  simp only [Option.bind_eq_bind, Option.bind_some, ne_eq, not_true_eq_false, if_false, hnleft, hcol,
    List.nil_append]
  cases sw with
  | false => rw [if_neg (by simp [hc']), e.plain rfl]; rfl
  | true =>
    obtain ⟨-, hto⟩ := e.foreign rfl
    have := (hto [] [] [] e.words [] rfl rfl).1
    simp only [List.nil_append, List.append_nil, List.length_nil] at this
    rw [if_pos hc', this]
    rfl

theorem Reading.evRead {e : DiskEvent env.swap sw} (hsw : a.byte_swapped = sw)
    (h : Reading env a ws cs) (hws : ws ++ cs.flatten = e.disk ++ rest) {fuel : Nat}
    (hfuel : e.words.length < fuel) {buffer : List UInt32} (hbuf : 3 ≤ buffer.length)
    (hlen : e.words.length ≤ buffer.length) :
    ∃ a' ws' cs', a.evReadBuffer env fuel buffer = some (0, e.words, a') ∧
      Reading env a' ws' cs' ∧ ws' ++ cs'.flatten = rest ∧ a'.byte_swapped = a.byte_swapped ∧
      a'.version = a.version := by
  obtain ⟨b, ws', cs', hblock, hb, hne, hcat, hswapped, hversion⟩ :=
    h.needBlock (by rw [hws]; simp [e.disk_ne_nil])
  rw [hws] at hcat
  have hhead : ws'.head? = e.disk.head? := by
    have := congrArg List.head? hcat
    rwa [List.head?_append_of_ne_nil _ hne, List.head?_append_of_ne_nil _ e.disk_ne_nil] at this
  have hnleft := eventLength_eq e (hswapped.trans hsw) hb.here hhead
  rw [← e.length] at hnleft hfuel hlen
  obtain ⟨c, us, ds, hcol, hc, hrest, hcs, hcv⟩ := hb.collect hcat hfuel []
  refine ⟨c, us, ds, ?_, hc, hrest, hcs.trans hswapped, hcv.trans hversion⟩
  have hc' : c.byte_swapped = sw := (hcs.trans hswapped).trans hsw
  have hout : a.evRead env fuel buffer = some (0, e.words ++ buffer.drop e.words.length, c) := by
    rw [EvReader.evRead, if_neg (by omega), hblock]
    simp only [Option.bind_eq_bind, Option.bind_some, ne_eq, not_true_eq_false, if_false, hnleft, hcol,
      List.nil_append]
    rw [if_neg (by omega)]
    cases sw with
    | false =>
      rw [if_pos (by simp [hc']), poke_eq (by omega), splice, e.plain rfl]
      simp
    | true =>
      have hswap := (e.foreign rfl).2 [] ((malloc env.garbage buffer.length).drop e.disk.length) []
        (buffer.take e.words.length) (buffer.drop e.words.length) rfl
        (List.length_take_of_le (by rw [← e.length]; exact hlen))
      have htmp : poke (malloc env.garbage buffer.length) 0 e.disk =
          some (e.disk ++ (malloc env.garbage buffer.length).drop e.disk.length) := by
        rw [poke_eq (by simpa using hlen), splice]
        simp
      simp only [List.nil_append, List.length_nil, List.take_append_drop] at hswap
      rw [if_neg (by simp [hc']), htmp]
      simp only [Option.bind_some, hswap.2]
      rfl
  obtain ⟨w, ws, hwords, hw⟩ := e.words_eq
  have htake : (e.words ++ buffer.drop e.words.length).take (w + 1).toNat = e.words := by
    rw [hw, List.take_left]
  have hget : (e.words ++ buffer.drop e.words.length)[0]? = some w := by simp [hwords]
  simp only [evReadBuffer, hout, Option.bind_eq_bind, Option.bind_some, hget, htake, Option.pure_def]

theorem Reading.atEnd (h : Reading env a [] []) (fuel : Nat) {buffer : List UInt32}
    (hbuf : 3 ≤ buffer.length) :
    (∃ ev a', a.evReadAlloc env fuel = some (EV_EOF, ev, a')) ∧
      (∃ ev a', a.evReadBuffer env fuel buffer = some (EV_EOF, ev, a')) ∧
      (a.version = 4 → ∃ ev a', a.evReadNoCopy env = some (EV_EOF, ev, a')) := by
  obtain ⟨a', ha⟩ := h.needBlock_nil
  have hne : EV_EOF ≠ 0 := by decide
  have hpos : 0 < buffer.length := by omega
  have hread : a.evRead env fuel buffer = some (EV_EOF, buffer, a') := by
    rw [EvReader.evRead, if_neg (by omega), ha]
    simp [hne]
  refine ⟨⟨[], a', ?_⟩, ⟨buffer.take (buffer[0] + 1).toNat, a', ?_⟩, fun hversion => ⟨[], a', ?_⟩⟩
  · rw [EvReader.evReadAlloc, ha]
    simp [hne]
  · rw [evReadBuffer, hread]
    simp only [Option.bind_eq_bind, Option.bind_some, List.getElem?_eq_getElem hpos]
    rfl
  · rw [EvReader.evReadNoCopy, if_neg (by omega), ha]
    simp [hne]

theorem checkHeader_eq {w0 w1 w2 w3 w4 w5 w6 : UInt32} {v : Nat}
    (hver : (w5 &&& EV_VERSION_MASK).toNat = v) (h1 : 1 ≤ v) (h4 : v ≤ 4) :
    checkHeader (order sw [w0, w1, w2, w3, w4, w5, w6, EV_MAGIC]) = some (sw, v) := by
  have hv : ¬v = 0 ∧ v ≤ 4 := by omega
  cases sw with
  | false => simpa [checkHeader, order, EV_HD_MAGIC, EV_HD_VER, -UInt32.toNat_and, hver] using hv
  | true =>
    have hmagic : EVIO_SWAP32 EV_MAGIC ≠ EV_MAGIC := by decide
    simpa [checkHeader, order, EV_HD_MAGIC, EV_HD_VER, -UInt32.toNat_and, hver, hmagic] using hv

theorem evOpen_eq (env : ReadEnv) (sw : Bool) (bsize bnum w3 w4 w5 w6 : UInt32) (body rest : List UInt32) {v : Nat}
    (hver : (w5 &&& EV_VERSION_MASK).toNat = v) (h1 : 1 ≤ v) (h4 : v ≤ 4)
    (hsize : bsize.toNat = 8 + body.length) (hlen : 8 + body.length < 2 ^ 30) (fuel : Nat) :
    ∃ file t, AtRest file rest ∧
      evOpen env fuel (order sw [bsize, bnum, 8, w3, w4, w5, w6, EV_MAGIC] ++ (body ++ rest)) =
        (startFirstBlock env fuel
          { file, byte_swapped := sw, version := v
            buf := [bsize, bnum, 8, w3, w4, w5, w6, EV_MAGIC] ++ (body ++ t), next := 0, left := 0
            isLastBlock := false } 8 (8 + body.length)).map .inr := by
  have hfile : AtRest { words := order sw [bsize, bnum, 8, w3, w4, w5, w6, EV_MAGIC] ++ (body ++ rest) }
      (order sw [bsize, bnum, 8, w3, w4, w5, w6, EV_MAGIC] ++ (body ++ rest)) := ⟨rfl, rfl⟩
  have hahead := hfile.ahead
  have hrest := hfile.fread
  simp only [length_order, List.length_cons, List.length_nil, Nat.reduceAdd] at hahead hrest
  have hback : (if sw then (order sw [bsize, bnum, 8, w3, w4, w5, w6, EV_MAGIC]).map EVIO_SWAP32
      else order sw [bsize, bnum, 8, w3, w4, w5, w6, EV_MAGIC]) =
      [bsize, bnum, 8, w3, w4, w5, w6, EV_MAGIC] := by
    cases sw <;> simp [order]
  obtain ⟨m, t, hmt, hm⟩ : ∃ m t, (malloc env.garbage (max (8 + body.length) 256)).drop 8 = m ++ t ∧
      m.length = body.length := by
    refine ⟨_, _, (List.take_append_drop body.length _).symm, List.length_take_of_le ?_⟩
    simp
    omega
  have hpoke : poke (malloc env.garbage (max (8 + body.length) 256)) 0
      [bsize, bnum, 8, w3, w4, w5, w6, EV_MAGIC] =
      some ([bsize, bnum, 8, w3, w4, w5, w6, EV_MAGIC] ++ (m ++ t)) := by
    rw [poke_eq (by simp), splice, List.take_zero, List.nil_append, ← hmt]
    rfl
  have hread := readInto_eq (a := {
      file := Stream.fread { words := order sw [bsize, bnum, 8, w3, w4, w5, w6, EV_MAGIC] ++ (body ++ rest) } 8
      byte_swapped := sw, version := v
      buf := [bsize, bnum, 8, w3, w4, w5, w6, EV_MAGIC] ++ (m ++ t), next := 0, left := 0
      isLastBlock := false }) hrest rfl hm
  simp only [List.length_cons, List.length_nil, Nat.reduceAdd, List.cons_append, List.nil_append] at hread
  refine ⟨_, t, hrest.fread, ?_⟩
  have hn : u32 (4 * sub32 (8 + body.length) 8) / 4 = body.length := by
    rw [sub32_add hlen, bytes_of_words (by omega)]
  unfold evOpen
  simp only [EV_HDSIZ, hahead, length_order, List.length_cons, List.length_nil, Nat.reduceAdd,
    lt_self_iff_false, if_false, checkHeader_eq hver h1 h4, hback]
  simp [EV_HD_HDSIZ, EV_HD_BLKSIZ, EV_BLOCKSIZE_MIN, toInt32, hsize, hpoke, hn, hread, hrest.fread.feof,
    Option.map_eq_bind]

theorem startBlock_eq {w0 w1 w2 w3 w4 w5 w6 w7 : UInt32} {n : Nat} (hversion : a.version = 4)
    (hbuf : a.buf = [w0, w1, w2, w3, w4, w5, w6, w7] ++ t) (hlast : a.isLastBlock = false)
    (hn : sub32 n 8 = i) :
    let b := { a with isLastBlock := w5 &&& EV_LASTBLOCK_MASK != 0, next := 8, left := i }
    a.startBlock 8 n = some (b.blockStatus, b) := by
  have hflag : a.lastBlock = some (w5 &&& EV_LASTBLOCK_MASK != 0) := by
    rw [lastBlock, if_pos (by omega), flag, hbuf, hlast]
    simp [EV_HD_VER]
  have hused : a.used n = some n := if_neg (by omega)
  simp only [startBlock, hflag, hused, Option.bind_eq_bind, Option.bind_some, Option.pure_def, hn]

theorem evGetNewBuffer_v4 (env : ReadEnv) {bsize bnum w3 w4 w5 w6 w7 : UInt32} {body : List UInt32}
    (h : AtRest a.file (order sw [bsize, bnum, 8, w3, w4, w5, w6, w7] ++ (body ++ rest)))
    (hsw : a.byte_swapped = sw) (hversion : a.version = 4) (hbuf : 8 ≤ a.buf.length)
    (hlast : a.isLastBlock = false) (hsize : bsize.toNat = 8 + body.length)
    (hlen : 8 + body.length < 2 ^ 30) :
    ∃ b t, a.evGetNewBuffer env = some (b.blockStatus, b) ∧ AtRest b.file rest ∧
      b.byte_swapped = sw ∧ b.version = 4 ∧ b.isLastBlock = (w5 &&& EV_LASTBLOCK_MASK != 0) ∧
      b.buf = [bsize, bnum, 8, w3, w4, w5, w6, w7] ++ (body ++ t) ∧ b.next = 8 ∧
      b.left = body.length := by
  obtain ⟨t, ht⟩ := evGetNewBuffer_eq env h hsw hbuf hlast hsize hlen
  have hrest := h.fread.fread
  rw [length_order] at hrest
  let c : EvReader := { a with
    buf := [bsize, bnum, 8, w3, w4, w5, w6, w7] ++ (body ++ t)
    file := (a.file.fread 8).fread body.length }
  exact ⟨_, t, ht.trans (startBlock_eq (a := c) hversion rfl hlast (sub32_add hlen)), hrest, hsw,
    hversion, rfl, rfl, rfl, rfl⟩

theorem supplies_diskFile (bs : List (DiskBlock env.swap sw)) (last : Nat)
    (h : AtRest a.file (diskFile bs last)) (hsw : a.byte_swapped = sw) (hversion : a.version = 4)
    (hlast : a.isLastBlock = false) (hbuf : 8 ≤ a.buf.length) :
    Supplies env (bs.map DiskBlock.payload) a := by
  induction bs generalizing a with
  | nil =>
    intro b hb
    have hat : AtRest b.file (order sw (lastBlockHeader last) ++ ([] ++ [])) := by
      simpa [diskFile, hb.file] using h
    obtain ⟨d, t, hd, -, -, -, hdlast, -, -, hdleft⟩ := evGetNewBuffer_v4 env hat
      (hb.byte_swapped.trans hsw) (hb.version.trans hversion) (by rw [hb.length]; exact hbuf)
      (hb.isLastBlock.trans hlast) (by decide) (by decide)
    have hflag : (EV_VERSION ||| EV_LASTBLOCK_MASK) &&& EV_LASTBLOCK_MASK != 0 := by decide
    have hstatus : d.blockStatus = EV_EOF := by
      rw [blockStatus, if_pos (by rw [hdleft]; decide), if_pos (by rw [hdlast, hflag])]
    exact ⟨d, by rw [hd, hstatus]⟩
  | cons c bs ih =>
    have hne : c.payload ≠ [] := by
      obtain ⟨e, es, he⟩ := List.exists_cons_of_ne_nil c.some
      simp [DiskBlock.payload, he, e.disk_ne_nil]
    have hpos := List.length_pos_iff.mpr hne
    have hfits : 8 + c.payload.length < 2 ^ 30 := c.fits
    refine ⟨hne, fun b hb => ?_⟩
    have hat : AtRest b.file (order sw (blockHeader c.size c.num c.events.length EV_VERSION) ++
        (c.payload ++ diskFile bs last)) := by
      simpa [diskFile, DiskBlock.words, hb.file] using h
    have hsize : (UInt32.ofNat c.size).toNat = 8 + c.payload.length :=
      UInt32.toNat_ofNat_of_lt' (by simp [DiskBlock.size, UInt32.size]; omega)
    obtain ⟨d, t, hd, hdfile, hdsw, hdversion, hdlast, hdbuf, hdnext, hdleft⟩ := evGetNewBuffer_v4 env hat
      (hb.byte_swapped.trans hsw) (hb.version.trans hversion) (by rw [hb.length]; exact hbuf)
      (hb.isLastBlock.trans hlast) hsize hfits
    have hflag : (EV_VERSION &&& EV_LASTBLOCK_MASK != 0) = false := by decide
    have hstatus : d.blockStatus = 0 := if_neg (by omega)
    refine ⟨d, by rw [hd, hstatus], by rw [hdsw, hsw], by rw [hdversion, hversion],
      ⟨⟨_, t, hdbuf, hdnext⟩, hdleft, by omega⟩, ?_⟩
    exact ih hdfile hdsw hdversion (hdlast.trans hflag) (by simp [hdbuf])

theorem readAll_eq {ι : Type} {read : EvReader → Option (Int × List UInt32 × EvReader)}
    {I : List ι → EvReader → Prop} (words : ι → List UInt32)
    (hstep : ∀ e es a, I (e :: es) a → ∃ a', read a = some (0, words e, a') ∧ I es a')
    (hend : ∀ a, I [] a → ∃ ev a', read a = some (EV_EOF, ev, a'))
    {es : List ι} (h : I es a) {fuel : Nat} (hfuel : es.length < fuel) :
    a.readAll read fuel = some (es.map words, EV_EOF) := by
  induction es generalizing a fuel with
  | nil =>
    obtain ⟨fuel, rfl⟩ := Nat.exists_eq_add_of_le' (show 1 ≤ fuel by omega)
    obtain ⟨ev, a', ha⟩ := hend a h
    have hne : EV_EOF ≠ 0 := by decide
    simp [readAll, ha, hne]
  | cons e es ih =>
    simp only [List.length_cons] at hfuel
    obtain ⟨fuel, rfl⟩ := Nat.exists_eq_add_of_le' (show 1 ≤ fuel by omega)
    obtain ⟨a', ha, hrest⟩ := hstep e es a h
    simp [readAll, ha, ih hrest (show es.length < fuel by omega)]

def Ahead (env : ReadEnv) (sw : Bool) (es : List (DiskEvent env.swap sw)) (a : EvReader) : Prop :=
  ∃ ws cs, Reading env a ws cs ∧ a.byte_swapped = sw ∧ ws ++ cs.flatten = es.flatMap (·.disk)

def AheadInBlocks (env : ReadEnv) (sw : Bool) (es : List (DiskEvent env.swap sw)) (a : EvReader) :
    Prop :=
  ∃ (now : List (DiskEvent env.swap sw)) (later : List (List (DiskEvent env.swap sw))),
    es = now ++ later.flatten ∧ a.byte_swapped = sw ∧ a.version = 4 ∧
      Reading env a (now.flatMap (·.disk)) (later.map fun es => es.flatMap (·.disk))

variable {es : List (DiskEvent env.swap sw)} {fuel : Nat}

theorem AheadInBlocks.ahead (h : AheadInBlocks env sw es a) : Ahead env sw es a := by
  obtain ⟨now, later, rfl, hsw, -, hr⟩ := h
  have hlater : (later.map fun es => es.flatMap (·.disk)).flatten = later.flatten.flatMap (·.disk) := by
    clear hr
    induction later with
    | nil => rfl
    | cons es later ih => simp [ih]
  exact ⟨_, _, hr, hsw, by rw [hlater, List.flatMap_append]⟩

theorem Ahead.nil (h : Ahead env sw [] a) : Reading env a [] [] := by
  obtain ⟨ws, cs, hr, -, hws⟩ := h
  obtain ⟨rfl, hcs⟩ : ws = [] ∧ cs.flatten = [] := by simpa using hws
  cases cs with
  | nil => exact hr
  | cons c cs =>
    have := hr.behind.1
    simp_all

theorem Ahead.readAlloc (h : Ahead env sw es a) (hfuel : es.length < fuel)
    (hwords : ∀ e : DiskEvent env.swap sw, e ∈ es → e.words.length < fuel) :
    a.readAll (EvReader.evReadAlloc env fuel) fuel = some (es.map (·.words), EV_EOF) := by
  refine readAll_eq (I := fun es a => Ahead env sw es a ∧ ∀ e ∈ es, e.words.length < fuel)
    (fun e => e.words) ?_ ?_ ⟨h, hwords⟩ hfuel
  · rintro e es a ⟨⟨ws, cs, hr, hsw, hws⟩, hfuel⟩
    rw [List.flatMap_cons] at hws
    obtain ⟨a', ws', cs', ha, hr', hcat, hsw', -⟩ := hr.evReadAlloc hsw hws (hfuel e (.head _))
    exact ⟨a', ha, ⟨ws', cs', hr', hsw'.trans hsw, hcat⟩, fun e he => hfuel e (.tail _ he)⟩
  · rintro a ⟨h, -⟩
    exact (h.nil.atEnd fuel (show 3 ≤ [(0 : UInt32), 0, 0].length by decide)).1

theorem Ahead.readBuffer (h : Ahead env sw es a) (hfuel : es.length < fuel) {buffer : List UInt32}
    (hbuf : 3 ≤ buffer.length)
    (hwords : ∀ e ∈ es, e.words.length < fuel ∧ e.words.length ≤ buffer.length) :
    a.readAll (evReadBuffer env fuel buffer) fuel = some (es.map (·.words), EV_EOF) := by
  refine readAll_eq (I := fun es a => Ahead env sw es a ∧
      ∀ e ∈ es, e.words.length < fuel ∧ e.words.length ≤ buffer.length)
    (fun e => e.words) ?_ ?_ ⟨h, hwords⟩ hfuel
  · rintro e es a ⟨⟨ws, cs, hr, hsw, hws⟩, hwords⟩
    rw [List.flatMap_cons] at hws
    obtain ⟨a', ws', cs', ha, hr', hcat, hsw', -⟩ :=
      hr.evRead hsw hws (hwords e (.head _)).1 hbuf (hwords e (.head _)).2
    exact ⟨a', ha, ⟨ws', cs', hr', hsw'.trans hsw, hcat⟩, fun e he => hwords e (.tail _ he)⟩
  · rintro a ⟨h, -⟩
    exact (h.nil.atEnd fuel hbuf).2.1

theorem evReadNoCopy_of_needBlock (hversion : a.version = 4) (hb4 : b.version = 4)
    (ha : a.needBlock env = some (0, b)) (hb : b.needBlock env = some (0, b)) :
    a.evReadNoCopy env = b.evReadNoCopy env := by
  rw [evReadNoCopy, evReadNoCopy, if_neg (by omega), if_neg (by omega), ha, hb]

theorem AheadInBlocks.evReadNoCopy {e : DiskEvent env.swap sw} (h : AheadInBlocks env sw (e :: es) a) :
    ∃ a', a.evReadNoCopy env = some (0, e.words, a') ∧ AheadInBlocks env sw es a' := by
  -- the event is the first one of the block in the buffer
  have hfirst {now : List (DiskEvent env.swap sw)} {later : List (List (DiskEvent env.swap sw))}
      {b : EvReader} (hes : e :: es = now ++ later.flatten) (hnow : now ≠ []) (hsw : b.byte_swapped = sw)
      (hversion : b.version = 4)
      (hr : Reading env b (now.flatMap (·.disk)) (later.map fun es => es.flatMap (·.disk))) :
      ∃ b', b.evReadNoCopy env = some (0, e.words, b') ∧ AheadInBlocks env sw es b' := by
    obtain ⟨d, now, rfl⟩ := List.exists_cons_of_ne_nil hnow
    obtain ⟨rfl, rfl⟩ : e = d ∧ es = now ++ later.flatten := by simpa using hes
    rw [List.flatMap_cons] at hr
    obtain ⟨b', hb, hr', hsw', hversion'⟩ := hr.evReadNoCopy hsw hversion
    exact ⟨b', hb, now, later, rfl, hsw'.trans hsw, hversion'.trans hversion, hr'⟩
  obtain ⟨now, later, hes, hsw, hversion, hr⟩ := h
  cases now with
  | cons d now => exact hfirst hes (by simp) hsw hversion hr
  | nil =>
    cases later with
    | nil => simp at hes
    | cons block later =>
      obtain ⟨b, hb, hrb, hne, hbsw, hbversion⟩ := hr.needBlock_cons
      rw [evReadNoCopy_of_needBlock hversion (hbversion.trans hversion) hb (hrb.needBlock_of_ne_nil hne)]
      refine hfirst (by simpa using hes) ?_ (hbsw.trans hsw) (hbversion.trans hversion) hrb
      rintro rfl
      exact hne rfl

theorem AheadInBlocks.evReadNoCopy_nil (h : AheadInBlocks env sw [] a) :
    ∃ ev a', a.evReadNoCopy env = some (EV_EOF, ev, a') := by
  have hversion : a.version = 4 := by
    obtain ⟨-, -, -, -, hversion, -⟩ := h
    exact hversion
  exact (h.ahead.nil.atEnd 0 (show 3 ≤ [(0 : UInt32), 0, 0].length by decide)).2.2 hversion

theorem AheadInBlocks.readNoCopy (h : AheadInBlocks env sw es a) (hfuel : es.length < fuel) :
    a.readAll (EvReader.evReadNoCopy env) fuel = some (es.map (·.words), EV_EOF) :=
  readAll_eq (I := AheadInBlocks env sw) (fun e => e.words) (fun _ _ _ h => h.evReadNoCopy)
    (fun _ h => h.evReadNoCopy_nil) h hfuel

theorem startFirstBlock_v4 {w0 w1 w2 w3 w4 w5 w6 w7 : UInt32} {n : Nat} (hversion : a.version = 4)
    (hbuf : a.buf = [w0, w1, w2, w3, w4, w5, w6, w7] ++ t) (hn : sub32 n 8 = i)
    (hdict : w5 &&& EV_DICTIONARY_MASK = 0) :
    a.startFirstBlock env fuel 8 n =
      some { a with next := 8, left := i, isLastBlock := w5 &&& EV_LASTBLOCK_MASK != 0 } := by
  have hflag {b : EvReader} (hb : b.buf = a.buf) (mask : UInt32) : b.flag mask = some (w5 &&& mask != 0) := by
    rw [flag, hb, hbuf]
    rfl
  have hnone {b : EvReader} (hb : b.buf = a.buf) : b.readDictionary env fuel = some b := by
    simp [readDictionary, hflag hb, hdict]
  rw [startFirstBlock, if_neg (by omega), hflag rfl, hn, Option.bind_eq_bind, Option.bind_some]
  exact hnone rfl

theorem evOpen_lastBlock (env : ReadEnv) (sw : Bool) (last : Nat) (rest : List UInt32) (fuel : Nat) :
    ∃ a, evOpen env fuel (order sw (lastBlockHeader last) ++ rest) = some (.inr a) ∧
      AheadInBlocks env sw [] a := by
  obtain ⟨file, t, -, ht⟩ := evOpen_eq env sw 8 (.ofNat last) 0 0
    (EV_VERSION ||| EV_LASTBLOCK_MASK) 0 [] rest (v := 4) (by decide) (by decide) (by decide) (by decide) (by decide) fuel
  have hfile : order sw (lastBlockHeader last) ++ rest =
      order sw [8, .ofNat last, 8, 0, 0, EV_VERSION ||| EV_LASTBLOCK_MASK, 0, EV_MAGIC] ++ ([] ++ rest) := rfl
  rw [hfile, ht, startFirstBlock_v4 rfl rfl (sub32_add (by decide)) (by decide)]
  refine ⟨_, rfl, [], [], rfl, rfl, rfl, ⟨⟨_, t, rfl, rfl⟩, rfl, Nat.two_pow_pos 30⟩, fun b hb => ⟨b, ?_⟩⟩
  have hflag : ((EV_VERSION ||| EV_LASTBLOCK_MASK) &&& EV_LASTBLOCK_MASK != 0) = true := by decide
  have hlast : b.isLastBlock = true := hb.isLastBlock.trans hflag
  have h3 : 3 < b.version := hb.version.symm ▸ (by decide : 3 < 4)
  rw [evGetNewBuffer, if_pos ⟨h3, hlast⟩]
  rfl

theorem evOpen_diskFile (bs : List (DiskBlock env.swap sw)) (last : Nat) (fuel : Nat) :
    ∃ a, evOpen env fuel (diskFile bs last) = some (.inr a) ∧
      AheadInBlocks env sw (bs.flatMap (·.events)) a := by
  cases bs with
  | nil =>
    have := evOpen_lastBlock env sw last [] fuel
    rwa [List.append_nil] at this
  | cons c bs =>
    have hfits : 8 + c.payload.length < 2 ^ 30 := c.fits
    have hsize : (UInt32.ofNat c.size).toNat = 8 + c.payload.length :=
      UInt32.toNat_ofNat_of_lt' (by simp [DiskBlock.size, UInt32.size]; omega)
    obtain ⟨file, t, hrest, ht⟩ := evOpen_eq env sw (.ofNat c.size) (.ofNat c.num)
      (.ofNat c.events.length) 0 EV_VERSION 0 c.payload (diskFile bs last) (v := 4) (by decide) (by decide)
      (by decide) hsize hfits fuel
    have hfile : diskFile (c :: bs) last =
        order sw (blockHeader c.size c.num c.events.length EV_VERSION) ++ (c.payload ++ diskFile bs last) := by
      simp [diskFile, DiskBlock.words]
    rw [hfile]
    refine ⟨_, ht.trans (by rw [startFirstBlock_v4 rfl rfl (sub32_add hfits) (by decide)]; rfl), c.events,
      bs.map (·.events), by simp [List.flatMap_def], rfl, rfl, ⟨⟨_, t, rfl, rfl⟩, rfl, ?_⟩, ?_⟩
    · exact Nat.lt_of_le_of_lt (Nat.le_add_left ..) hfits
    · rw [List.map_map]
      have hflag : (EV_VERSION &&& EV_LASTBLOCK_MASK != 0) = false := by decide
      exact supplies_diskFile bs last hrest rfl rfl hflag (by simp)

/-- A file of the local byte order or of the other one gives the events of its blocks, in their
order, and then an end of file: by `evReadNoCopy`, `evReadAlloc`, and `evRead` into a buffer that
is large enough. -/
theorem readFile_diskFile (bs : List (DiskBlock env.swap sw)) (last : Nat) {fuel : Nat}
    (buffer : List UInt32) (hbuf : 3 ≤ buffer.length) (hfuel : (bs.flatMap (·.events)).length < fuel)
    (hwords : ∀ e ∈ bs.flatMap (·.events), e.words.length < fuel ∧ e.words.length ≤ buffer.length) :
    ∀ read ∈ [EvReader.evReadNoCopy env, EvReader.evReadAlloc env fuel, evReadBuffer env fuel buffer],
      readFile env read fuel (diskFile bs last) =
        some ((bs.flatMap (·.events)).map (·.words), EV_EOF) := by
  obtain ⟨a, ha, hahead⟩ := evOpen_diskFile bs last fuel
  have hread {read : EvReader → Option (Int × List UInt32 × EvReader)} :
      readFile env read fuel (diskFile bs last) = a.readAll read fuel := by
    simp [readFile, ha]
  intro read hmem
  rw [hread]
  simp only [List.mem_cons, List.not_mem_nil, or_false] at hmem
  rcases hmem with rfl | rfl | rfl
  · exact hahead.readNoCopy hfuel
  · exact hahead.ahead.readAlloc hfuel fun e he => (hwords e he).1
  · exact hahead.ahead.readBuffer hfuel hbuf hwords

def numbersBlock : DiskBlock numbersRead.swap true where
  num := 1
  events := [numbersEvent, numbersEvent]
  some := List.cons_ne_nil _ _
  fits := by decide

theorem readFile_numbersFile :
    let ws := numbersTree.encode .bank
    ∀ read ∈ [EvReader.evReadNoCopy numbersRead, EvReader.evReadAlloc numbersRead 8,
        evReadBuffer numbersRead 8 (List.replicate 8 0)],
      readFile numbersRead read 8 (diskFile [numbersBlock] 2) = some ([ws, ws], EV_EOF) :=
  readFile_diskFile [numbersBlock] 2 (List.replicate 8 0) (by decide) (by decide) (by decide)

theorem evGetNewBuffer_atEnd (h : AtRest a.file []) (hversion : a.version < 4) :
    ∃ b, a.evGetNewBuffer env = some (EV_EOF, b) := by
  have hahead (n : Nat) : a.file.ahead n = [] := by simp [Stream.ahead, h.words]
  have hread : a.readInto 0 8 = some { a with file := a.file.fread 8 } := by
    simp [readInto, hahead, poke_eq, splice]
  have hfeof : (a.file.fread 8).feof = true := by simp [Stream.fread, hahead]
  rw [evGetNewBuffer, if_neg (by omega), if_neg (by simp [h.feof])]
  simp [EV_HDSIZ, hread, hfeof]

theorem evGetNewBuffer_old (env : ReadEnv) {b : OldBlock} {ver : UInt32} (h : AtRest a.file (b.words sw ver ++ rest))
    (hsw : a.byte_swapped = sw) (hversion : a.version < 4) (hlast : a.isLastBlock = false)
    (hbuf : 8 ≤ a.buf.length) :
    ∃ c, a.evGetNewBuffer env = some (0, c) ∧ AtRest c.file rest ∧ c.byte_swapped = sw ∧
      c.version = a.version ∧ c.isLastBlock = false ∧ 8 ≤ c.buf.length ∧ c.At b.payload := by
  have hfits := b.fits
  have hpos := List.length_pos_iff.mpr b.some
  have hsize : (UInt32.ofNat (8 + (b.payload ++ b.unused).length)).toNat =
      8 + (b.payload ++ b.unused).length :=
    UInt32.toNat_ofNat_of_lt' (by simp only [UInt32.size]; omega)
  rw [OldBlock.words, List.append_assoc] at h
  obtain ⟨t, ht⟩ := evGetNewBuffer_eq env h hsw hbuf hlast hsize hfits
  have hrest := h.fread.fread
  rw [length_order] at hrest
  rw [List.length_append] at hfits
  have hfit : b.payload.length < 2 ^ 30 := by omega
  have husedSize : (UInt32.ofNat (8 + b.payload.length)).toNat = 8 + b.payload.length :=
    UInt32.toNat_ofNat_of_lt' (by simp only [UInt32.size]; omega)
  -- the block is there, and its used words are counted
  have hstart (c : EvReader) (hc : c.buf = b.header ver ++ ((b.payload ++ b.unused) ++ t))
      (hversion : c.version < 4) (hlast : c.isLastBlock = false) (n : Nat) :
      c.startBlock 8 n =
        some (0, { c with next := 8, left := b.payload.length, isLastBlock := false }) := by
    have hused : c.used n = some (8 + b.payload.length) := by
      rw [used, if_pos hversion, word, hc, ← husedSize]
      rfl
    have hlastBlock : c.lastBlock = some false := by
      rw [lastBlock, if_neg (by omega), hlast]
    have hstatus {d : EvReader} (hd : d.left = b.payload.length) : d.blockStatus = 0 :=
      if_neg (by omega)
    rw [startBlock, hused, hlastBlock]
    simp only [Option.bind_eq_bind, Option.bind_some, sub32_add (show 8 + b.payload.length < 2 ^ 30 by omega),
      Option.pure_def]
    rw [hstatus rfl]
  let c : EvReader := { a with
    buf := b.header ver ++ ((b.payload ++ b.unused) ++ t)
    file := (a.file.fread 8).fread (b.payload ++ b.unused).length }
  refine ⟨_, ht.trans (hstart c rfl hversion hlast _), hrest, hsw, rfl, rfl, by simp [c, OldBlock.header],
    ⟨⟨b.header ver, b.unused ++ t, ?_, rfl⟩, rfl, hfit⟩⟩
  rw [← List.append_assoc b.payload]

theorem supplies_oldFile (bs : List OldBlock) (ver : UInt32) (h : AtRest a.file (oldFile sw ver bs))
    (hsw : a.byte_swapped = sw) (hversion : a.version < 4) (hlast : a.isLastBlock = false)
    (hbuf : 8 ≤ a.buf.length) : Supplies env (bs.map (·.payload)) a := by
  induction bs generalizing a with
  | nil =>
    intro b hb
    exact evGetNewBuffer_atEnd (by rw [hb.file]; exact h) (by rw [hb.version]; exact hversion)
  | cons c bs ih =>
    refine ⟨c.some, fun b hb => ?_⟩
    obtain ⟨d, hd, hfile, hdsw, hdversion, hdlast, hdbuf, hat⟩ := evGetNewBuffer_old env
      (a := b) (b := c) (show AtRest b.file (c.words sw ver ++ oldFile sw ver bs) by rw [hb.file]; exact h)
      (hb.byte_swapped.trans hsw) (by rw [hb.version]; exact hversion) (hb.isLastBlock.trans hlast)
      (by rw [hb.length]; exact hbuf)
    exact ⟨d, hd, hdsw.trans hsw.symm, hdversion.trans hb.version, hat,
      ih hfile hdsw (by rw [hdversion, hb.version]; exact hversion) hdlast hdbuf⟩

/-- Events of a file of an earlier version go on in the next block where a block ends; they are
collected, whatever the blocks are. -/
theorem readFile_oldFile (b : OldBlock) (bs : List OldBlock) (ver : UInt32) {v : Nat}
    (hver : (ver &&& EV_VERSION_MASK).toNat = v) (h1 : 1 ≤ v) (h3 : v ≤ 3) (hstart : b.start = 8)
    (es : List (DiskEvent env.swap sw))
    (hes : (b :: bs).flatMap (·.payload) = es.flatMap (·.disk)) {fuel : Nat} (buffer : List UInt32)
    (hbuf : 3 ≤ buffer.length) (hfuel : es.length < fuel)
    (hwords : ∀ e ∈ es, e.words.length < fuel ∧ e.words.length ≤ buffer.length) :
    readFile env (EvReader.evReadAlloc env fuel) fuel (oldFile sw ver (b :: bs)) =
        some (es.map (·.words), EV_EOF) ∧
      readFile env (evReadBuffer env fuel buffer) fuel (oldFile sw ver (b :: bs)) =
        some (es.map (·.words), EV_EOF) ∧
      readFile env (EvReader.evReadNoCopy env) fuel (oldFile sw ver (b :: bs)) =
        some ([], S_EVFILE_BADFILE) := by
  have hfits := b.fits
  have hsize : (UInt32.ofNat (8 + (b.payload ++ b.unused).length)).toNat =
      8 + (b.payload ++ b.unused).length :=
    UInt32.toNat_ofNat_of_lt' (by simp only [UInt32.size]; omega)
  obtain ⟨file, t, hrest, ht⟩ := evOpen_eq env sw (.ofNat (8 + (b.payload ++ b.unused).length))
    (.ofNat b.num) b.start (.ofNat (8 + b.payload.length)) ver 0 (b.payload ++ b.unused) (oldFile sw ver bs)
    hver h1 (by omega) hsize hfits fuel
  have hfile : oldFile sw ver (b :: bs) =
      order sw (b.header ver) ++ ((b.payload ++ b.unused) ++ oldFile sw ver bs) := by
    simp [oldFile, OldBlock.words]
  rw [List.length_append] at hfits
  have husedSize : (UInt32.ofNat (8 + b.payload.length)).toNat = 8 + b.payload.length :=
    UInt32.toNat_ofNat_of_lt' (by simp only [UInt32.size]; omega)
  -- the file is open, and the first event is ahead
  let a : EvReader :=
    { file, byte_swapped := sw, version := v, buf := b.header ver ++ ((b.payload ++ b.unused) ++ t)
      next := 8, left := b.payload.length, isLastBlock := false }
  have hopen : evOpen env fuel (oldFile sw ver (b :: bs)) = some (.inr a) := by
    have hfirst (c : EvReader) (hc : c.buf = b.header ver ++ ((b.payload ++ b.unused) ++ t))
        (hversion : c.version < 4) (n : Nat) :
        c.startFirstBlock env fuel 8 n = some { c with next := 8, left := b.payload.length } := by
      have hword : c.word EV_HD_START = some 8 ∧ c.word EV_HD_USED = some (8 + b.payload.length) := by
        rw [word, word, hc, ← husedSize]
        exact ⟨congrArg (fun w : UInt32 => some w.toNat) hstart, rfl⟩
      rw [startFirstBlock, if_pos hversion, hword.1, hword.2]
      simp only [Option.bind_eq_bind, Option.bind_some, sub32_add (show 8 + b.payload.length < 2 ^ 30 by omega)]
      rfl
    rw [hfile]
    exact ht.trans (congrArg (Option.map Sum.inr)
      (hfirst { a with next := 0, left := 0 } rfl (by simp only [a]; omega) _))
  have hahead : Ahead env sw es a := by
    refine ⟨b.payload, bs.map (·.payload), ⟨⟨⟨b.header ver, b.unused ++ t, ?_, rfl⟩, rfl, by omega⟩, ?_⟩,
      rfl, ?_⟩
    · rw [← List.append_assoc b.payload]
    · exact supplies_oldFile bs ver hrest rfl (by simp only [a]; omega) rfl (by simp [a, OldBlock.header])
    · rw [← hes, List.flatMap_cons, List.flatMap_def]
  have hread {read : EvReader → Option (Int × List UInt32 × EvReader)} :
      readFile env read fuel (oldFile sw ver (b :: bs)) = a.readAll read fuel := by
    simp [readFile, hopen]
  refine ⟨?_, ?_, ?_⟩
  · rw [hread]
    exact hahead.readAlloc hfuel fun e he => (hwords e he).1
  · rw [hread]
    exact hahead.readBuffer hfuel hbuf hwords
  · obtain ⟨fuel, rfl⟩ := Nat.exists_eq_add_of_le' (show 1 ≤ fuel by omega)
    have hnone : a.evReadNoCopy env = some (S_EVFILE_BADFILE, [], a) := if_pos (by simp only [a]; omega)
    have hbad : S_EVFILE_BADFILE ≠ 0 := by decide
    rw [hread, readAll, hnone]
    simp [hbad]

def oldBlock (num : Nat) : OldBlock where
  num
  start := 8
  payload := if num = 1 then numbersEvent.disk.take 4 else numbersEvent.disk.drop 4
  unused := [0, 0]
  some := by split <;> decide
  fits := by split <;> decide

theorem readFile_oldBlock :
    let read := [numbersTree.encode .bank]
    let file := oldFile true 3 [oldBlock 1, oldBlock 2]
    readFile numbersRead (EvReader.evReadAlloc numbersRead 8) 8 file = some (read, EV_EOF) ∧
      readFile numbersRead (evReadBuffer numbersRead 8 (List.replicate 8 0)) 8 file =
        some (read, EV_EOF) ∧
      readFile numbersRead (EvReader.evReadNoCopy numbersRead) 8 file = some ([], S_EVFILE_BADFILE) :=
  readFile_oldFile (oldBlock 1) [oldBlock 2] 3 rfl (by decide) (by decide) rfl
    ([numbersEvent] : List (DiskEvent numbersRead.swap true)) (by decide) (List.replicate 8 0) (by decide)
    (by decide) (by decide)

end EvReader

end EvioTool
