import EvioTool.Defs.WrittenFile
import EvioTool.Laws.EvioRead

namespace EvioTool

open Lib

section

variable {pre s : List UInt32} {size num count : Nat} {ver : UInt32}

theorem poke_size (size' : Nat) :
    poke (pre ++ (blockHeader size num count ver ++ s)) (pre.length + EV_HD_BLKSIZ) [.ofNat size'] =
      some (pre ++ (blockHeader size' num count ver ++ s)) :=
  poke_append (p := pre) (m := [.ofNat size]) (s := (blockHeader size num count ver).tail ++ s) rfl rfl

theorem poke_count (count' : Nat) :
    poke (pre ++ (blockHeader size num count ver ++ s)) (pre.length + EV_HD_COUNT) [.ofNat count'] =
      some (pre ++ (blockHeader size num count' ver ++ s)) := by
  have hi : pre.length + EV_HD_COUNT = (pre ++ [UInt32.ofNat size, .ofNat num, .ofNat EV_HDSIZ]).length := by
    simp [EV_HD_COUNT]
  have hlen : [UInt32.ofNat count].length = [UInt32.ofNat count'].length := rfl
  simpa [blockHeader] using poke_append (s := [0, ver, 0, EV_MAGIC] ++ s) hi hlen

theorem poke_ver (ver' : UInt32) :
    poke (pre ++ (blockHeader size num count ver ++ s)) (pre.length + EV_HD_VER) [ver'] =
      some (pre ++ (blockHeader size num count ver' ++ s)) := by
  have hi : pre.length + EV_HD_VER =
      (pre ++ [UInt32.ofNat size, .ofNat num, .ofNat EV_HDSIZ, .ofNat count, 0]).length := by
    simp [EV_HD_VER]
  have hlen : [ver].length = [ver'].length := rfl
  simpa [blockHeader] using poke_append (s := [0, EV_MAGIC] ++ s) hi hlen

theorem getElem?_ver :
    (pre ++ (blockHeader size num count ver ++ s))[pre.length + EV_HD_VER]? = some ver := by
  rw [List.getElem?_append_right (by omega), Nat.add_sub_cancel_left]
  rfl

end

theorem LocalBlock.count_le (b : LocalBlock) : b.events.length ≤ b.payload.length := by
  unfold LocalBlock.payload
  induction b.events with
  | nil => exact Nat.zero_le _
  | cons e es ih =>
    obtain ⟨w, ws, hwords, -⟩ := e.words_eq
    rw [List.flatMap_cons, List.length_append, hwords, List.length_cons, List.length_cons]
    omega

theorem LocalBlock.length_words (b : LocalBlock) : b.words.length = b.size := by
  rw [LocalBlock.words, List.length_append, length_blockHeader, LocalBlock.size]

theorem blockEvents_le (bs : List LocalBlock) : (blockEvents bs).length ≤ (blockWords bs).length := by
  unfold blockEvents blockWords
  induction bs with
  | nil => exact Nat.le_refl _
  | cons b bs ih =>
    have := b.count_le
    rw [List.flatMap_cons, List.flatMap_cons, List.length_append, List.length_append, LocalBlock.words,
      List.length_append]
    omega

namespace EvWriter

variable {a : EvWriter} {pre : List UInt32} {bs : List LocalBlock} {num : Nat} {es : List EvioEvent}
  {isLast : Bool}

section

variable {s p m : List UInt32} {size count : Nat} {ver : UInt32}

theorem updateHeader_eq (hbuf : a.buf = pre ++ (blockHeader size num count ver ++ s))
    (hcurrent : a.currentHeader = pre.length) :
    a.updateHeader = some { a with
      buf := pre ++ (blockHeader a.blksiz num a.blkEvCount ver ++ s)
      eventCount := u32 (a.eventCount + 1) } := by
  simp [updateHeader, hbuf, hcurrent, poke_size, poke_count]

theorem isLastBlock_eq
    (hbuf : a.buf = pre ++ (blockHeader size num count (generateSixthWord isLast) ++ s)) :
    a.isLastBlock pre.length = some isLast := by
  have hflag : (generateSixthWord isLast &&& EV_LASTBLOCK_MASK != 0) = isLast := by
    cases isLast <;> decide
  simp only [isLastBlock, hbuf, getElem?_ver, Option.bind_eq_bind, Option.bind_some, hflag]
  rfl

theorem clearLastBlockBit_eq
    (hbuf : a.buf = pre ++ (blockHeader size num count (generateSixthWord isLast) ++ s))
    (hcurrent : a.currentHeader = pre.length) :
    a.clearLastBlockBit = some { a with
      buf := pre ++ (blockHeader size num count EV_VERSION ++ s)
      blknum := if isLast then u32 (a.blknum + 1) else a.blknum } := by
  have hlast : a.isLastBlock a.currentHeader = some isLast := by
    rw [hcurrent, isLastBlock_eq hbuf]
  cases isLast with
  | false =>
    have hself : { a with buf := pre ++ (blockHeader size num count EV_VERSION ++ s) } = a := by
      rw [show EV_VERSION = generateSixthWord false from rfl, ← hbuf]
    rw [clearLastBlockBit, hlast, if_neg Bool.false_ne_true, hself]
    rfl
  | true =>
    have hclear : generateSixthWord true &&& ~~~EV_LASTBLOCK_MASK = EV_VERSION := by decide
    rw [clearLastBlockBit, hlast]
    simp only [Option.bind_eq_bind, Option.bind_some, if_true, hbuf, hcurrent, getElem?_ver, hclear, poke_ver]
    rfl

theorem roomForHeader (hroom : a.bytesToBuf + 32 ≤ 4 * a.bufSize) (hmax : a.bufSize < 2 ^ 30) :
    ¬ sub32 a.bufSize (a.bytesToBuf / 4) < 8 := by
  rw [sub32_eq (by omega) (by omega)]
  omega

theorem writeEmptyLastBlockHeader_eq (hbuf : a.buf = p ++ (m ++ s)) (hnext : a.next = p.length)
    (hm : m.length = 8) (hroom : a.bytesToBuf + 32 ≤ 4 * a.bufSize) (hmax : a.bufSize < 2 ^ 30)
    (n : Nat) :
    a.writeEmptyLastBlockHeader n = some (0, { a with
      buf := p ++ (lastBlockHeader n ++ s), bytesToBuf := a.bytesToBuf + 32 }) := by
  have hpoke : poke a.buf a.next (blockHeader 8 n 0 (generateSixthWord true)) =
      some (p ++ (lastBlockHeader n ++ s)) := by
    rw [hbuf]
    exact poke_append hnext hm
  have hu : u32 (a.bytesToBuf + 4 * EV_HDSIZ) = a.bytesToBuf + 32 := u32_eq (by simp [EV_HDSIZ]; omega)
  rw [writeEmptyLastBlockHeader, writeNewHeader, if_neg (roomForHeader hroom hmax)]
  simp [hpoke, hu]

theorem writeNewHeader_eq (hbuf : a.buf = p ++ (m ++ s)) (hnext : a.next = p.length)
    (hm : m.length = 8) (hroom : a.bytesToBuf + 32 ≤ 4 * a.bufSize) (hmax : a.bufSize < 2 ^ 30)
    (n : Nat) :
    a.writeNewHeader 8 1 n false true false = some (0, { a with
      buf := p ++ (blockHeader 8 n 1 (generateSixthWord false) ++ s)
      currentHeader := p.length
      next := p.length + 8
      blksiz := 8
      blkEvCount := 0
      bytesToBuf := a.bytesToBuf + 32 }) := by
  have hpoke : poke (p ++ (m ++ s)) p.length (blockHeader 8 n 1 (generateSixthWord false)) =
      some (p ++ (blockHeader 8 n 1 (generateSixthWord false) ++ s)) := poke_append rfl hm
  have hu : u32 (a.bytesToBuf + 4 * EV_HDSIZ) = a.bytesToBuf + 32 := u32_eq (by simp [EV_HDSIZ]; omega)
  rw [writeNewHeader, if_neg (roomForHeader hroom hmax)]
  simp [hbuf, hnext, hpoke, hu]

end

theorem writeEventToBuffer_eq {event : List UInt32} {a1 a2 a3 : EvWriter}
    (h1 : a.putEvent event = some a1) (h2 : a1.updateHeader = some a2)
    (h3 : a2.clearLastBlockBit = some a3) :
    a.writeEventToBuffer event = (a3.writeEmptyLastBlockHeader a3.blknum).map Prod.snd := by
  unfold writeEventToBuffer
  rw [h1, Option.bind_eq_bind, Option.bind_some, h2, Option.bind_eq_bind, Option.bind_some, h3,
    Option.bind_some]
  cases a3.writeEmptyLastBlockHeader a3.blknum <;> rfl

/-- What an event is written to stays as it is: only the buffer and what is counted change. -/
structure Keeps (a a' : EvWriter) : Prop where
  length : a'.buf.length = a.buf.length
  bufSize : a'.bufSize = a.bufSize
  blkSizeTarget : a'.blkSizeTarget = a.blkSizeTarget
  blkEvMax : a'.blkEvMax = a.blkEvMax
  bytesToFile : a'.bytesToFile = a.bytesToFile
  file : a'.file = a.file

theorem Keeps.trans {a b c : EvWriter} (h : Keeps a b) (h' : Keeps b c) : Keeps a c where
  length := h'.length.trans h.length
  bufSize := h'.bufSize.trans h.bufSize
  blkSizeTarget := h'.blkSizeTarget.trans h.blkSizeTarget
  blkEvMax := h'.blkEvMax.trans h.blkEvMax
  bytesToFile := h'.bytesToFile.trans h.bytesToFile
  file := h'.file.trans h.file

theorem Keeps.room {a' : EvWriter} (h : Keeps a a') (hroom : a.Room) : a'.Room where
  length := by rw [h.bufSize, h.length]; exact hroom.length
  fits := by rw [h.length]; exact hroom.fits
  targetMin := by rw [h.blkSizeTarget]; exact hroom.targetMin
  targetMax := by rw [h.blkSizeTarget]; exact hroom.targetMax
  target := by rw [h.blkSizeTarget, h.bufSize]; exact hroom.target
  countMin := by rw [h.blkEvMax]; exact hroom.countMin
  countMax := by rw [h.blkEvMax]; exact hroom.countMax

structure Filled (a : EvWriter) (pre : List UInt32) (bs : List LocalBlock) (b : LocalBlock) : Prop where
  buf : ∃ t, a.buf = (pre ++ blockWords bs) ++ (b.words ++ t)
  currentHeader : a.currentHeader = (pre ++ blockWords bs).length
  blksiz : a.blksiz = b.size
  blkEvCount : a.blkEvCount = b.events.length
  next : a.next = (pre ++ blockWords bs).length + b.size
  bytesToBuf : a.bytesToBuf = 4 * ((blockWords bs).length + b.size)
  eventsToBuf : a.eventsToBuf = (blockEvents bs).length + b.events.length

theorem size_snoc (num : Nat) (es : List EvioEvent) (e : EvioEvent) :
    LocalBlock.size ⟨num, es ++ [e]⟩ = LocalBlock.size ⟨num, es⟩ + e.words.length := by
  simp [LocalBlock.size, LocalBlock.payload, Nat.add_assoc]

theorem Ready.putEvent (h : a.Ready pre bs num es isLast) (hroom : a.Room) (e : EvioEvent)
    (hfits : a.bytesToBuf + 4 * e.words.length + 32 ≤ 4 * a.bufSize)
    (hmem : a.next + e.words.length ≤ a.buf.length) :
    ∃ a3, a.writeEventToBuffer e.words = (a3.writeEmptyLastBlockHeader a3.blknum).map Prod.snd ∧
      a3.Filled pre bs ⟨num, es ++ [e]⟩ ∧ Keeps a a3 := by
  obtain ⟨size, count, t, hbuf⟩ := h.buf
  have hmax := Nat.lt_of_le_of_lt hroom.length hroom.fits
  have hnext := h.next
  have hlength : a.buf.length = (pre ++ blockWords bs).length +
      (8 + ((LocalBlock.payload ⟨num, es⟩).length + t.length)) := by
    rw [hbuf]
    simp [Nat.add_assoc]
  have hbytes := h.bytesToBuf
  obtain ⟨m, t, rfl, hm⟩ : ∃ m t', t = m ++ t' ∧ m.length = e.words.length := by
    refine ⟨_, _, (List.take_append_drop e.words.length t).symm, List.length_take_of_le ?_⟩
    rw [LocalBlock.size] at hnext
    omega
  have hpay : LocalBlock.payload ⟨num, es ++ [e]⟩ = LocalBlock.payload ⟨num, es⟩ ++ e.words := by
    simp [LocalBlock.payload]
  have hsize := size_snoc num es e
  have hcount : (blockEvents bs).length + es.length < 2 ^ 30 := by
    have := blockEvents_le bs
    have hle : es.length ≤ (LocalBlock.payload ⟨num, es⟩).length := LocalBlock.count_le ⟨num, es⟩
    rw [LocalBlock.size] at hbytes
    omega
  have hpoke : poke a.buf a.next e.words = some ((pre ++ blockWords bs) ++
      (blockHeader size num count (generateSixthWord isLast) ++
        (LocalBlock.payload ⟨num, es ++ [e]⟩ ++ t))) := by
    have hi : a.next = ((pre ++ blockWords bs) ++ (blockHeader size num count (generateSixthWord isLast) ++
        LocalBlock.payload ⟨num, es⟩)).length := by
      simp only [List.length_append] at hnext ⊢
      rw [hnext, length_blockHeader, LocalBlock.size]
    simpa [hbuf, hpay] using poke_append (s := t) hi hm
  let a1 : EvWriter := { a with
    buf := (pre ++ blockWords bs) ++ (blockHeader size num count (generateSixthWord isLast) ++
      (LocalBlock.payload ⟨num, es ++ [e]⟩ ++ t))
    blksiz := LocalBlock.size ⟨num, es ++ [e]⟩
    bytesToBuf := a.bytesToBuf + 4 * e.words.length
    next := a.next + e.words.length
    blkEvCount := (es ++ [e]).length
    eventsToBuf := (blockEvents bs).length + (es ++ [e]).length }
  have hput : a.putEvent e.words = some a1 := by
    have h1 : u32 (a.blksiz + e.words.length) = LocalBlock.size ⟨num, es ++ [e]⟩ := by
      rw [hsize, h.blksiz, u32_eq (by omega)]
    have h2 : u32 (a.bytesToBuf + 4 * e.words.length) = a.bytesToBuf + 4 * e.words.length :=
      u32_eq (by omega)
    have h3 : u32 (a.blkEvCount + 1) = (es ++ [e]).length := by
      rw [h.blkEvCount, u32_eq (by omega)]
      simp
    have h4 : u32 (a.eventsToBuf + 1) = (blockEvents bs).length + (es ++ [e]).length := by
      rw [h.eventsToBuf, u32_eq (by omega)]
      simp
      omega
    simp [EvWriter.putEvent, hpoke, h1, h2, h3, h4, a1]
  let a2 : EvWriter := { a1 with
    buf := (pre ++ blockWords bs) ++ (blockHeader a1.blksiz num a1.blkEvCount (generateSixthWord isLast) ++
      (LocalBlock.payload ⟨num, es ++ [e]⟩ ++ t))
    eventCount := u32 (a1.eventCount + 1) }
  have hupdate : a1.updateHeader = some a2 := updateHeader_eq rfl h.currentHeader
  let a3 : EvWriter := { a2 with
    buf := (pre ++ blockWords bs) ++ (LocalBlock.words ⟨num, es ++ [e]⟩ ++ t)
    blknum := if isLast then u32 (a2.blknum + 1) else a2.blknum }
  have hclear : a2.clearLastBlockBit = some a3 := by
    rw [clearLastBlockBit_eq (a := a2) rfl h.currentHeader, ← List.append_assoc (blockHeader ..)]
    rfl
  refine ⟨a3, writeEventToBuffer_eq hput hupdate hclear,
    ⟨⟨t, rfl⟩, h.currentHeader, rfl, rfl, ?_, ?_, rfl⟩, ⟨?_, rfl, rfl, rfl, rfl, rfl⟩⟩
  · show a.next + e.words.length = _
    rw [hnext, hsize, Nat.add_assoc]
  · show a.bytesToBuf + 4 * e.words.length = _
    rw [hbytes, hsize]
    omega
  · show ((pre ++ blockWords bs) ++ (LocalBlock.words ⟨num, es ++ [e]⟩ ++ t)).length = a.buf.length
    simp only [List.length_append] at hlength ⊢
    rw [hlength, LocalBlock.length_words, hsize, LocalBlock.size, hm]
    omega

theorem Ready.putEvent_none (hmem : a.buf.length < a.next + e.length) : a.writeEventToBuffer e = none := by
  have hpoke : poke a.buf a.next e = none := if_neg (by omega)
  simp [EvWriter.writeEventToBuffer, EvWriter.putEvent, hpoke]

theorem Filled.writeEmptyLastBlockHeader {b : LocalBlock} (h : a.Filled pre bs b) (hroom : a.Room)
    (hfits : (blockWords bs).length + b.size + 8 ≤ a.bufSize) (hmem : a.next + 8 ≤ a.buf.length) :
    ∃ a', a.writeEmptyLastBlockHeader a.blknum = some (0, a') ∧ a'.Open pre bs b ∧ Keeps a a' := by
  obtain ⟨t, hbuf⟩ := h.buf
  have hnext : a.next = ((pre ++ blockWords bs) ++ b.words).length := by
    rw [h.next, ← b.length_words, ← List.length_append]
  have hlength := congrArg List.length hbuf
  rw [← List.append_assoc, List.length_append, ← hnext] at hlength
  obtain ⟨m, t, rfl, hm⟩ : ∃ m t', t = m ++ t' ∧ m.length = 8 :=
    ⟨_, _, (List.take_append_drop 8 t).symm, List.length_take_of_le (by omega)⟩
  have hbytes := h.bytesToBuf
  have hmax := Nat.lt_of_le_of_lt hroom.length hroom.fits
  have hlast := writeEmptyLastBlockHeader_eq (a := a) (p := (pre ++ blockWords bs) ++ b.words) (m := m) (s := t)
    (by rw [hbuf, List.append_assoc (pre ++ _)]) hnext hm (by omega) hmax a.blknum
  refine ⟨_, hlast, ⟨⟨t, ?_⟩, h.currentHeader, h.blksiz, h.blkEvCount, h.next, ?_, h.eventsToBuf, hfits⟩,
    ⟨?_, rfl, rfl, rfl, rfl, rfl⟩⟩
  · rw [List.append_assoc (pre ++ _)]
  · show a.bytesToBuf + 32 = _
    omega
  · show (((pre ++ blockWords bs) ++ b.words) ++ (lastBlockHeader a.blknum ++ t)).length = a.buf.length
    simp only [hbuf, List.length_append, hm, lastBlockHeader, length_blockHeader]
    omega

theorem Filled.writeEmptyLastBlockHeader_none {b : LocalBlock} (h : a.Filled pre bs b) (hroom : a.Room)
    (hfits : (blockWords bs).length + b.size + 8 ≤ a.bufSize) (hmem : a.buf.length < a.next + 8) :
    a.writeEmptyLastBlockHeader a.blknum = none := by
  have hbytes := h.bytesToBuf
  have hmax := Nat.lt_of_le_of_lt hroom.length hroom.fits
  have hpoke : poke a.buf a.next (blockHeader 8 a.blknum 0 (generateSixthWord true)) = none :=
    if_neg (by rw [length_blockHeader]; omega)
  rw [EvWriter.writeEmptyLastBlockHeader, writeNewHeader, if_neg (roomForHeader (by omega) hmax)]
  simp [hpoke]

theorem Ready.writeEventToBuffer (h : a.Ready pre bs num es isLast) (hroom : a.Room) (e : EvioEvent)
    (hfits : a.bytesToBuf + 4 * e.words.length + 32 ≤ 4 * a.bufSize) :
    (∃ a', a.writeEventToBuffer e.words = some a' ∧ a'.Open pre bs ⟨num, es ++ [e]⟩ ∧ Keeps a a') ∨
      (pre ≠ [] ∧ a.writeEventToBuffer e.words = none) := by
  have hbytes := h.bytesToBuf
  have hnext := h.next
  have hlen := hroom.length
  have hsize := size_snoc num es e
  have hpre : pre ≠ [] ∨ a.next + e.words.length + 8 ≤ a.buf.length := by
    by_cases hnil : pre = []
    · subst hnil
      right
      rw [List.nil_append] at hnext
      omega
    · exact .inl hnil
  by_cases hmem : a.next + e.words.length ≤ a.buf.length
  · obtain ⟨a3, hwrite, hfilled, hkeeps⟩ := h.putEvent hroom e hfits hmem
    have hnext3 := hfilled.next
    rw [hsize] at hnext3
    have hfits3 : (blockWords bs).length + LocalBlock.size ⟨num, es ++ [e]⟩ + 8 ≤ a3.bufSize := by
      rw [hkeeps.bufSize, hsize]
      omega
    rw [hwrite]
    by_cases hmem3 : a3.next + 8 ≤ a3.buf.length
    · obtain ⟨a', hlast, hopen, hkeeps'⟩ :=
        hfilled.writeEmptyLastBlockHeader (hkeeps.room hroom) hfits3 hmem3
      exact .inl ⟨a', by rw [hlast]; rfl, hopen, hkeeps.trans hkeeps'⟩
    · rw [hfilled.writeEmptyLastBlockHeader_none (hkeeps.room hroom) hfits3 (by omega)]
      rw [hkeeps.length] at hmem3
      exact .inr ⟨hpre.resolve_right (by omega), rfl⟩
  · exact .inr ⟨hpre.resolve_right (by omega), Ready.putEvent_none (by omega)⟩

variable {b : LocalBlock}

@[simp] theorem blockWords_append (bs cs : List LocalBlock) :
    blockWords (bs ++ cs) = blockWords bs ++ blockWords cs := List.flatMap_append

@[simp] theorem blockWords_singleton (b : LocalBlock) : blockWords [b] = b.words := by
  simp [blockWords]

theorem blockEvents_append (bs cs : List LocalBlock) :
    blockEvents (bs ++ cs) = blockEvents bs ++ blockEvents cs := List.flatMap_append

theorem Open.take (h : a.Open pre bs b) :
    a.buf.take (a.bytesToBuf / 4) =
      (pre ++ localFile (bs ++ [b]) a.blknum).take ((blockWords (bs ++ [b])).length + 8) := by
  obtain ⟨t, hbuf⟩ := h.buf
  have hlen : a.bytesToBuf / 4 = (blockWords (bs ++ [b])).length + 8 := by
    rw [h.bytesToBuf, blockWords_append, blockWords_singleton, List.length_append, b.length_words]
    omega
  have hfile : a.buf = (pre ++ localFile (bs ++ [b]) a.blknum) ++ t := by
    simp [hbuf, localFile]
  have hle : (blockWords (bs ++ [b])).length + 8 ≤ (pre ++ localFile (bs ++ [b]) a.blknum).length := by
    simp [localFile, lastBlockHeader]
    omega
  rw [hlen, hfile, List.take_append_of_le_length hle]

theorem Holds.evFlush (h : a.Holds pre bs) (hroom : a.Room) :
    ∃ file n, a.evFlush = some { a with file, bytesToFile := n } ∧
      ((bs = [] ∧ file = a.file ∧ n = a.bytesToFile) ∨
        (bs ≠ [] ∧ n = a.bytesToFile + 4 * ((blockWords bs).length + 8) ∧
          file = some ((if a.bytesToFile < 1 then a.file.getD {} else (a.file.getD {}).seekBack EV_HDSIZ).fwrite
            ((pre ++ localFile bs a.blknum).take ((blockWords bs).length + 8))))) := by
  rcases h with ⟨rfl, rfl, h⟩ | ⟨cs, b, rfl, hsome, h⟩
  · exact ⟨a.file, a.bytesToFile, if_pos (by rw [h.eventsToBuf]; decide), .inl ⟨rfl, rfl, rfl⟩⟩
  · have hbytes := h.bytesToBuf
    have hlen := hroom.length
    have hfits := h.fits
    have hpos := List.length_pos_iff.mpr hsome
    refine ⟨_, a.bytesToFile + a.bytesToBuf, ?_, .inr ⟨by simp, ?_, rfl⟩⟩
    · rw [EvWriter.evFlush, if_neg (by rw [h.eventsToBuf]; omega), if_pos (by omega), h.take]
    · rw [hbytes, blockWords_append, blockWords_singleton, List.length_append, b.length_words]

theorem Holds.bytesToBuf_le (h : a.Holds pre bs) (hroom : a.Room) :
    32 ≤ a.bytesToBuf ∧ a.bytesToBuf ≤ 4 * a.bufSize := by
  have hmin := hroom.targetMin
  have htarget := hroom.target
  simp only [EV_BLOCKSIZE_MIN] at hmin
  rcases h with ⟨rfl, rfl, h⟩ | ⟨cs, b, rfl, hsome, h⟩
  · have h1 : a.bytesToBuf = 32 := h.bytesToBuf
    omega
  · have h1 := h.bytesToBuf
    have h2 := h.fits
    omega

theorem resetBuffer_eq (hlen : 8 ≤ a.buf.length) :
    ∃ a', a.resetBuffer = some a' ∧ a'.Empty ∧ Keeps a a' ∧ a'.blknum = a.blknum := by
  have hpoke : poke a.buf 0 (lastBlockHeader a.blknum) =
      some (lastBlockHeader a.blknum ++ a.buf.drop 8) := by
    rw [poke_eq (by simp [lastBlockHeader]; omega), splice, List.take_zero, List.nil_append]
    rfl
  let a' : EvWriter := { a with
    buf := lastBlockHeader a.blknum ++ a.buf.drop 8
    currentHeader := 0, next := 8, blksiz := 8, blkEvCount := 0, bytesToBuf := 32, eventsToBuf := 0 }
  have hreset : a.resetBuffer = some a' := by
    rw [resetBuffer, hpoke]
    rfl
  refine ⟨a', hreset, ⟨⟨8, 0, a.buf.drop 8, rfl⟩, rfl, rfl, rfl, rfl, rfl, rfl⟩,
    ⟨?_, rfl, rfl, rfl, rfl, rfl⟩, rfl⟩
  simp [a', lastBlockHeader]
  omega

variable {garbage : Nat → UInt32} {w : Nat}

theorem expandBuffer_eq (garbage : Nat → UInt32) (hlen : a.buf.length < 2 ^ 30) (hbuf : a.bufSize ≤ a.buf.length)
    (hw : a.bufSize < w) (hmax : w < 2 ^ 30) :
    ∃ buf next currentHeader, a.expandBuffer garbage (4 * w) =
        { a with buf, next, currentHeader, bufSize := w } ∧
      w ≤ buf.length ∧ buf.length < 2 ^ 30 := by
  have h1 : u32 (4 * a.bufSize) = 4 * a.bufSize := u32_eq (by omega)
  have h2 : u32 (4 * a.bufRealSize) = 4 * a.buf.length := u32_eq (by simp only [bufRealSize]; omega)
  have h3 : 4 * w / 4 = w := by omega
  unfold expandBuffer
  rw [if_neg (by omega), h2, h3]
  by_cases h : 4 * w ≤ 4 * a.buf.length
  · exact ⟨a.buf, a.next, a.currentHeader, if_pos h, by omega, hlen⟩
  · exact ⟨_, _, _, if_neg h, by simp, by simpa using hmax⟩

theorem Holds.makeRoom (garbage : Nat → UInt32) (h : a.Holds pre bs) (hroom : a.Room) (hw : w + 16 < 2 ^ 30) :
    (a.makeRoom garbage w = some (false, a) ∧ w + 16 ≤ a.bufSize ∧
        a.bytesToBuf + 4 * w + (if a.needsNewBlock w then 32 else 0) ≤ 4 * a.bufSize) ∨
      ∃ a1 a', a.evFlush = some a1 ∧ a.makeRoom garbage w = some (true, a') ∧ a'.Empty ∧ a'.Room ∧
        w + 16 ≤ a'.bufSize ∧ a'.blkSizeTarget = a.blkSizeTarget ∧ a'.file = a1.file ∧
        a'.bytesToFile = a1.bytesToFile ∧
        (a.bufSize < w + 16 ∨
          4 * a.bufSize < a.bytesToBuf + 4 * w + (if a.needsNewBlock w then 32 else 0)) := by
  obtain ⟨hle, hge⟩ := h.bytesToBuf_le hroom
  have hlen := hroom.length
  have hfits := hroom.fits
  have hmin := hroom.targetMin
  have htarget := hroom.target
  simp only [EV_BLOCKSIZE_MIN] at hmin
  have h1 : u32 (4 * w) = 4 * w := u32_eq (by omega)
  have h2 : u32 (4 * a.bufSize) = 4 * a.bufSize := u32_eq (by omega)
  have h3 : u32 (4 * w + 2 * (4 * EV_HDSIZ)) = 4 * (w + 16) := by
    rw [EV_HDSIZ, u32_eq (by omega)]
    omega
  have h4 : sub32 (4 * a.bufSize) a.bytesToBuf = 4 * a.bufSize - a.bytesToBuf := sub32_eq hge (by omega)
  have h5 : u32 (4 * w + 4 * EV_HDSIZ) = 4 * w + 32 := by
    rw [EV_HDSIZ, u32_eq (by omega)]
  have h6 : u32 (4 * u32 (w + 2 * EV_HDSIZ)) = 4 * (w + 16) := by
    rw [EV_HDSIZ, u32_eq (n := w + 2 * 8) (by omega), u32_eq (by omega)]
  have hbig : a.needBiggerBuffer (4 * w) = decide (a.bufSize < w + 16) := by
    rw [needBiggerBuffer, h2, h3]
    exact decide_eq_decide.mpr (by omega)
  obtain ⟨file, n, hflush, -⟩ := h.evFlush hroom
  unfold EvWriter.makeRoom
  dsimp only
  rw [h1, h6, hbig]
  by_cases hsize : a.bufSize < w + 16
  · right
    obtain ⟨buf, next, currentHeader, hexpand, hbuf, hbuf'⟩ := expandBuffer_eq garbage
      (a := { a with file, bytesToFile := n }) hfits hlen hsize hw
    obtain ⟨a', hreset, hempty, hkeeps, -⟩ := resetBuffer_eq
      (a := { a with file, bytesToFile := n, buf, next, currentHeader, bufSize := w + 16 }) (by show 8 ≤ buf.length; omega)
    refine ⟨_, a', hflush, ?_, hempty, hkeeps.room ?_, ?_, hkeeps.blkSizeTarget, hkeeps.file,
      hkeeps.bytesToFile, .inl hsize⟩
    · rw [if_pos (by simpa using hsize), hflush, Option.bind_eq_bind, Option.bind_some, hexpand, hreset]
      rfl
    · exact ⟨hbuf, hbuf', hroom.targetMin, hroom.targetMax, by show a.blkSizeTarget ≤ w + 16; omega,
        hroom.countMin, hroom.countMax⟩
    · rw [hkeeps.bufSize]
  · rw [if_neg (by simpa using hsize)]
    by_cases hfull : a.bufferFull (a.needsNewBlock w) (4 * w) = true
    · right
      obtain ⟨a', hreset, hempty, hkeeps, -⟩ := resetBuffer_eq (a := { a with file, bytesToFile := n })
        (by show 8 ≤ a.buf.length; omega)
      refine ⟨_, a', hflush, ?_, hempty, hkeeps.room ?_, ?_, hkeeps.blkSizeTarget, hkeeps.file,
        hkeeps.bytesToFile, .inr ?_⟩
      · rw [if_pos hfull, hflush, Option.bind_eq_bind, Option.bind_some, hreset]
        rfl
      · exact ⟨hlen, hfits, hroom.targetMin, hroom.targetMax, htarget, hroom.countMin, hroom.countMax⟩
      · rw [hkeeps.bufSize]
        show w + 16 ≤ a.bufSize
        omega
      · rw [bufferFull, h2, h4, h5, decide_eq_true_iff] at hfull
        by_cases hnew : a.needsNewBlock w = true
        · rw [if_pos hnew] at hfull ⊢
          omega
        · rw [if_neg hnew] at hfull ⊢
          omega
    · left
      refine ⟨by rw [if_neg hfull]; rfl, by omega, ?_⟩
      rw [bufferFull, h2, h4, h5, decide_eq_true_iff] at hfull
      by_cases hnew : a.needsNewBlock w = true
      · rw [if_pos hnew] at hfull ⊢
        omega
      · rw [if_neg hnew] at hfull ⊢
        omega

theorem evWrite_eq {e : EvioEvent} {behind : List UInt32} {flushed : Bool} {a1 a2 : EvWriter}
    (h1 : a.makeRoom garbage e.words.length = some (flushed, a1))
    (h2 : a1.overwriteLast (a.needsNewBlock e.words.length && !flushed) = some (0, a2)) :
    a.evWrite garbage (e.words ++ behind) = (a2.writeEventToBuffer e.words).map (Prod.mk 0) := by
  obtain ⟨w, ws, hwords, hlen⟩ := e.words_eq
  have hhead : (e.words ++ behind)[0]? = some w := by rw [hwords]; rfl
  have hu : u32 (w.toNat + 1) = e.words.length := by
    rw [← hlen, UInt32.toNat_add]
    rfl
  unfold EvWriter.evWrite
  rw [hhead, Option.bind_eq_bind, Option.bind_some]
  dsimp only
  rw [hu, h1, Option.bind_eq_bind, Option.bind_some]
  dsimp only
  rw [h2, Option.bind_eq_bind, Option.bind_some]
  dsimp only
  rw [if_neg (by simp), if_pos (by simp), List.take_left]
  cases a2.writeEventToBuffer e.words <;> rfl

theorem Empty.overwriteLast (h : a.Empty) : a.overwriteLast false = some (0, a) := by
  obtain ⟨size, count, t, hbuf⟩ := h.buf
  have hlast : a.isLastBlock a.currentHeader = some true := by
    rw [h.currentHeader]
    exact isLastBlock_eq hbuf
  unfold EvWriter.overwriteLast
  rw [if_neg Bool.false_ne_true, hlast]
  rfl

theorem Open.overwriteLast (h : a.Open pre bs b) (hroom : a.Room) :
    ∃ a', a.overwriteLast false = some (0, a') ∧ a'.Ready pre bs b.num b.events false ∧ Keeps a a' ∧
      a'.bytesToBuf + 32 = a.bytesToBuf := by
  obtain ⟨t, hbuf⟩ := h.buf
  have hbytes := h.bytesToBuf
  have hfits := h.fits
  have hlen := hroom.length
  have hmax := hroom.fits
  have hlast : a.isLastBlock a.currentHeader = some false := by
    rw [h.currentHeader]
    rw [LocalBlock.words, List.append_assoc (blockHeader ..)] at hbuf
    exact isLastBlock_eq hbuf
  have hsub : sub32 a.bytesToBuf (4 * EV_HDSIZ) = 4 * ((blockWords bs).length + b.size) := by
    rw [hbytes, EV_HDSIZ, sub32_eq (by omega) (by omega)]
    omega
  refine ⟨{ a with bytesToBuf := 4 * ((blockWords bs).length + b.size) }, ?_,
    ⟨⟨b.size, b.events.length, lastBlockHeader a.blknum ++ t, ?_⟩, h.currentHeader, h.blksiz, h.blkEvCount,
      h.next, rfl, h.eventsToBuf⟩, ⟨rfl, rfl, rfl, rfl, rfl, rfl⟩, ?_⟩
  · unfold EvWriter.overwriteLast
    rw [if_neg Bool.false_ne_true, hlast, hsub]
    rfl
  · show a.buf = _
    rw [hbuf, LocalBlock.words, List.append_assoc (blockHeader ..)]
    rfl
  · show 4 * ((blockWords bs).length + b.size) + 32 = a.bytesToBuf
    omega

theorem overwriteLast_new {m t : List UInt32} (hroom : a.Room) (hm : m.length = 8)
    (hbuf : a.buf = (pre ++ blockWords bs) ++ (m ++ t))
    (hnext : a.next = (pre ++ blockWords bs).length)
    (hbytes : a.bytesToBuf = 4 * ((blockWords bs).length + 8))
    (hevents : a.eventsToBuf = (blockEvents bs).length) (hspace : a.bytesToBuf + 32 ≤ 4 * a.bufSize) :
    ∃ a', a.overwriteLast true = some (0, a') ∧ a'.Ready pre bs a.blknum [] false ∧ Keeps a a' ∧
      a'.bytesToBuf = a.bytesToBuf := by
  have hmax := Nat.lt_of_le_of_lt hroom.length hroom.fits
  have hheader := writeNewHeader_eq (a := { a with blknum := u32 (a.blknum + 1) })
    (p := pre ++ blockWords bs) (m := m) (s := t) hbuf hnext hm hspace hmax a.blknum
  have hsub : sub32 (a.bytesToBuf + 32) (4 * EV_HDSIZ) = a.bytesToBuf := by
    rw [EV_HDSIZ, sub32_eq (by omega) (by omega), Nat.add_sub_cancel]
  let a' : EvWriter := { a with
    blknum := u32 (a.blknum + 1)
    buf := (pre ++ blockWords bs) ++ (blockHeader 8 a.blknum 1 (generateSixthWord false) ++ t)
    currentHeader := (pre ++ blockWords bs).length
    next := (pre ++ blockWords bs).length + 8
    blksiz := 8
    blkEvCount := 0
    bytesToBuf := a.bytesToBuf }
  have hover : a.overwriteLast true = some (0, a') := by
    unfold EvWriter.overwriteLast
    rw [if_pos rfl]
    dsimp only
    rw [hheader, Option.bind_eq_bind, Option.bind_some]
    dsimp only
    rw [if_pos rfl, hsub]
    rfl
  refine ⟨a', hover, ⟨⟨8, 1, t, rfl⟩, rfl, rfl, rfl, rfl, hbytes, hevents⟩,
    ⟨?_, rfl, rfl, rfl, rfl, rfl⟩, rfl⟩
  show ((pre ++ blockWords bs) ++ (blockHeader 8 a.blknum 1 (generateSixthWord false) ++ t)).length = a.buf.length
  rw [hbuf]
  simp [hm]

theorem Open.overwriteLast_new (h : a.Open pre bs b) (hroom : a.Room)
    (hspace : a.bytesToBuf + 32 ≤ 4 * a.bufSize) :
    ∃ a', a.overwriteLast true = some (0, a') ∧ a'.Ready pre (bs ++ [b]) a.blknum [] false ∧ Keeps a a' ∧
      a'.bytesToBuf = a.bytesToBuf := by
  obtain ⟨t, hbuf⟩ := h.buf
  refine EvWriter.overwriteLast_new hroom (m := lastBlockHeader a.blknum) (t := t) rfl ?_ ?_ ?_ ?_ hspace
  · simp [hbuf]
  · rw [h.next]
    simp [b.length_words, Nat.add_assoc]
  · rw [h.bytesToBuf]
    simp [b.length_words]
  · rw [h.eventsToBuf]
    simp [blockEvents]

theorem Empty.overwriteLast_new (h : a.Empty) {t : List UInt32} (hbuf : a.buf = lastBlockHeader 1 ++ t)
    (hroom : a.Room) :
    ∃ a', a.overwriteLast true = some (0, a') ∧ a'.Ready (lastBlockHeader 1) [] a.blknum [] false ∧
      Keeps a a' ∧ a'.bytesToBuf = a.bytesToBuf := by
  have hlen := hroom.length
  have hmin := hroom.targetMin
  have htarget := hroom.target
  have hbytes : a.bytesToBuf = 32 := h.bytesToBuf
  have hlength : a.buf.length = 8 + t.length := by simp [hbuf, lastBlockHeader]
  simp only [EV_BLOCKSIZE_MIN] at hmin
  refine EvWriter.overwriteLast_new hroom (m := t.take 8) (t := t.drop 8) (List.length_take_of_le (by omega)) ?_
    h.next h.bytesToBuf h.eventsToBuf (by omega)
  rw [List.take_append_drop, hbuf]
  simp [blockWords]

theorem needsNewBlock_iff (hblksiz : w + a.blksiz < 2 ^ 32) :
    a.needsNewBlock w = false ↔ w + a.blksiz ≤ a.blkSizeTarget ∧ a.blkEvCount < a.blkEvMax := by
  rw [needsNewBlock, u32_eq hblksiz]
  simp

theorem fits_singleton (num : Nat) (e : EvioEvent) (target : Nat) :
    LocalBlock.Fits ⟨num, [e]⟩ target :=
  ⟨by simp, by simp [EV_EVENTS_MAX], .inr rfl⟩

/-- The event is written to the buffer behind the blocks `bs`, which become `bs'`. -/
structure Extends (a : EvWriter) (pre : List UInt32) (bs : List LocalBlock) (e : EvioEvent) (a' : EvWriter)
    (bs' : List LocalBlock) : Prop where
  holds : a'.Holds pre bs'
  some : bs' ≠ []
  events : blockEvents bs' = blockEvents bs ++ [e]
  fits : ∀ c ∈ bs', c ∈ bs ∨ c.Fits a.blkSizeTarget
  keeps : Keeps a a'

structure Flushes (a : EvWriter) (e : EvioEvent) (a' : EvWriter) (num : Nat) : Prop where
  holds : a'.Holds [] [⟨num, [e]⟩]
  room : a'.Room
  blkSizeTarget : a'.blkSizeTarget = a.blkSizeTarget
  flush : ∃ a1, a.evFlush = some a1 ∧ a'.file = a1.file ∧ a'.bytesToFile = a1.bytesToFile

theorem Open.evWrite_new {e : EvioEvent} {behind : List UInt32} (h : a.Open pre bs b) (hroom : a.Room)
    (hmake : a.makeRoom garbage e.words.length = some (false, a))
    (hnew : a.needsNewBlock e.words.length = true)
    (hspace : a.bytesToBuf + 4 * e.words.length + 32 ≤ 4 * a.bufSize) :
    (∃ a' bs', a.evWrite garbage (e.words ++ behind) = some (0, a') ∧ a.Extends pre (bs ++ [b]) e a' bs') ∨
      (pre ≠ [] ∧ a.evWrite garbage (e.words ++ behind) = none) := by
  obtain ⟨a2, hover, hready, hkeeps, hbytes⟩ := h.overwriteLast_new hroom (by omega)
  rw [evWrite_eq hmake (by rw [hnew]; exact hover)]
  rcases hready.writeEventToBuffer (hkeeps.room hroom) e (by rw [hkeeps.bufSize, hbytes]; exact hspace) with
    ⟨a', hwrite, hopen, hkeeps'⟩ | ⟨hpre, hnone⟩
  · refine .inl ⟨a', (bs ++ [b]) ++ [⟨a.blknum, [e]⟩], by rw [hwrite]; rfl, .inr ⟨_, _, rfl, by simp, hopen⟩,
      by simp, by rw [blockEvents_append]; rfl, ?_, hkeeps.trans hkeeps'⟩
    intro c hc
    rcases List.mem_append.mp hc with hc | hc
    · exact .inl hc
    · rw [List.mem_singleton.mp hc]
      exact .inr (fits_singleton ..)
  · exact .inr ⟨hpre, by rw [hnone]; rfl⟩

theorem Open.evWrite_old {e : EvioEvent} {behind : List UInt32} (h : a.Open pre bs b) (hroom : a.Room)
    (hmake : a.makeRoom garbage e.words.length = some (false, a))
    (hnew : a.needsNewBlock e.words.length = false)
    (hspace : a.bytesToBuf + 4 * e.words.length ≤ 4 * a.bufSize) :
    (∃ a' bs', a.evWrite garbage (e.words ++ behind) = some (0, a') ∧ a.Extends pre (bs ++ [b]) e a' bs') ∨
      (pre ≠ [] ∧ a.evWrite garbage (e.words ++ behind) = none) := by
  have hfits := e.fits
  have hlen := hroom.length
  have hmax := hroom.fits
  have hblksiz := h.blksiz
  have hcount := h.blkEvCount
  have hsize := h.fits
  have hcountMax := hroom.countMax
  obtain ⟨hle, hlt⟩ := (needsNewBlock_iff (by omega)).mp hnew
  obtain ⟨a2, hover, hready, hkeeps, hbytes⟩ := h.overwriteLast hroom
  rw [evWrite_eq hmake (by rw [hnew]; exact hover)]
  rcases hready.writeEventToBuffer (hkeeps.room hroom) e (by rw [hkeeps.bufSize]; omega) with
    ⟨a', hwrite, hopen, hkeeps'⟩ | ⟨hpre, hnone⟩
  · refine .inl ⟨a', bs ++ [⟨b.num, b.events ++ [e]⟩], by rw [hwrite]; rfl, .inr ⟨_, _, rfl, by simp, hopen⟩,
      by simp, by simp [blockEvents], ?_, hkeeps.trans hkeeps'⟩
    intro c hc
    rcases List.mem_append.mp hc with hc | hc
    · exact .inl (List.mem_append_left _ hc)
    · rw [List.mem_singleton.mp hc]
      refine .inr ⟨by simp, ?_, .inl ?_⟩
      · simp
        omega
      · rw [size_snoc]
        show b.size + e.words.length ≤ _
        omega
  · exact .inr ⟨hpre, by rw [hnone]; rfl⟩

theorem Empty.evWrite {a1 : EvWriter} {flushed : Bool} {e : EvioEvent} (behind : List UInt32) (h : a1.Empty)
    (hroom : a1.Room) (hmake : a.makeRoom garbage e.words.length = some (flushed, a1))
    (hnew : (a.needsNewBlock e.words.length && !flushed) = false)
    (hspace : e.words.length + 16 ≤ a1.bufSize) :
    ∃ a', a.evWrite garbage (e.words ++ behind) = some (0, a') ∧ a'.Holds [] [⟨a1.blknum, [e]⟩] ∧
      Keeps a1 a' := by
  have hbytes : a1.bytesToBuf = 32 := h.bytesToBuf
  rw [evWrite_eq hmake (by rw [hnew]; exact h.overwriteLast)]
  rcases Ready.writeEventToBuffer h hroom e (by omega) with ⟨a', hwrite, hopen, hkeeps⟩ | ⟨hpre, -⟩
  · exact ⟨a', by rw [hwrite]; rfl, .inr ⟨[], _, rfl, by simp, hopen⟩, hkeeps⟩
  · exact absurd rfl hpre

theorem Holds.evWrite (garbage : Nat → UInt32) (h : a.Holds pre bs) (hroom : a.Room) (e : EvioEvent) (behind : List UInt32)
    (hstart : bs = [] → e.words.length + 8 ≤ a.blkSizeTarget ∨ a.bufSize < e.words.length + 16) :
    (∃ a' bs', a.evWrite garbage (e.words ++ behind) = some (0, a') ∧ a.Extends pre bs e a' bs') ∨
      (∃ a' num, a.evWrite garbage (e.words ++ behind) = some (0, a') ∧ a.Flushes e a' num) ∨
      (pre ≠ [] ∧ a.evWrite garbage (e.words ++ behind) = none) := by
  rcases h.makeRoom garbage hroom e.fits with
    ⟨hmake, hsize, hspace⟩ | ⟨a1, a2, hflush, hmake, hempty, hr, hsize, htarget, hfile, hbytes, -⟩
  · rcases h with ⟨rfl, rfl, hempty⟩ | ⟨cs, b, rfl, hsome, hopen⟩
    · -- the first event of all, which fits the block size
      have hblksiz : a.blksiz = 8 := hempty.blksiz
      have hcount : a.blkEvCount = 0 := hempty.blkEvCount
      have hmax := hroom.countMin
      have hfits := e.fits
      have hle : e.words.length + 8 ≤ a.blkSizeTarget := (hstart rfl).resolve_right (by omega)
      have hnew : a.needsNewBlock e.words.length = false :=
        (needsNewBlock_iff (by omega)).mpr (by omega)
      obtain ⟨a', hwrite, hholds, hkeeps⟩ := hempty.evWrite behind hroom hmake (by rw [hnew]; rfl) hsize
      refine .inl ⟨a', _, hwrite, hholds, by simp, rfl, ?_, hkeeps⟩
      intro c hc
      rw [List.mem_singleton.mp hc]
      exact .inr (fits_singleton ..)
    · cases hnew : a.needsNewBlock e.words.length with
      | true =>
        rw [hnew, if_pos rfl] at hspace
        exact (hopen.evWrite_new hroom hmake hnew hspace).imp id .inr
      | false =>
        rw [hnew, if_neg Bool.false_ne_true] at hspace
        exact (hopen.evWrite_old hroom hmake hnew (by omega)).imp id .inr
  · -- the buffer was flushed
    obtain ⟨a', hwrite, hholds, hkeeps⟩ := hempty.evWrite behind hr hmake (by simp) hsize
    exact .inr (.inl ⟨a', _, hwrite, hholds, hkeeps.room hr, hkeeps.blkSizeTarget.trans htarget, a1, hflush,
      hkeeps.file.trans hfile, hkeeps.bytesToFile.trans hbytes⟩)

theorem Empty.evWrite_bad (garbage : Nat → UInt32) {e : EvioEvent} {t : List UInt32} (behind : List UInt32)
    (h : a.Empty)
    (hbuf : a.buf = lastBlockHeader 1 ++ t) (hroom : a.Room)
    (hbad : ¬(e.words.length + 8 ≤ a.blkSizeTarget ∨ a.bufSize < e.words.length + 16)) :
    (∃ a', a.evWrite garbage (e.words ++ behind) = some (0, a') ∧
        a'.Holds (lastBlockHeader 1) [⟨a.blknum, [e]⟩] ∧ Keeps a a') ∨
      a.evWrite garbage (e.words ++ behind) = none := by
  have hholds : a.Holds [] [] := .inl ⟨rfl, rfl, h⟩
  have hblksiz : a.blksiz = 8 := h.blksiz
  have hbytes : a.bytesToBuf = 32 := h.bytesToBuf
  have hfits := e.fits
  have hnew : a.needsNewBlock e.words.length = true := by
    rw [← Bool.not_eq_false, needsNewBlock_iff (by omega)]
    omega
  rcases hholds.makeRoom garbage hroom e.fits with
    ⟨hmake, hsize, hspace⟩ | ⟨a1, a2, -, -, -, -, -, -, -, -, hfull⟩
  · rw [hnew, if_pos rfl] at hspace
    obtain ⟨a2, hover, hready, hkeeps, hbytes2⟩ := h.overwriteLast_new hbuf hroom
    rw [evWrite_eq hmake (by rw [hnew]; exact hover)]
    rcases hready.writeEventToBuffer (hkeeps.room hroom) e (by rw [hkeeps.bufSize, hbytes2]; exact hspace) with
      ⟨a', hwrite, hopen, hkeeps'⟩ | ⟨-, hnone⟩
    · exact .inl ⟨a', by rw [hwrite]; rfl, .inr ⟨[], _, rfl, by simp, hopen⟩, hkeeps.trans hkeeps'⟩
    · exact .inr (by rw [hnone]; rfl)
  · rw [hnew, if_pos rfl] at hfull
    omega

end EvWriter

end EvioTool
