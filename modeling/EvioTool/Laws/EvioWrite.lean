import EvioTool.Laws.EvioBuffer

namespace EvioTool

open Lib

namespace EvWriter

variable {a : EvWriter} {fs bs : List LocalBlock} {es : List EvioEvent} {garbage : Nat → UInt32}

theorem OnDisk.fwrite (h : a.OnDisk fs) (hbs : bs ≠ []) {n last : Nat} (hn : 0 < n) :
    OnDisk { a with
      file := some (((if a.bytesToFile < 1 then a.file.getD {} else (a.file.getD {}).seekBack EV_HDSIZ)).fwrite
        (localFile bs last))
      bytesToFile := a.bytesToFile + n } (fs ++ bs) := by
  refine .inr ⟨by simp [hbs], by simp; omega, last, ?_⟩
  rcases h with ⟨rfl, hfile, hbytes⟩ | ⟨-, hbytes, last', hfile⟩
  · simp [hfile, hbytes, Disk.fwrite, splice]
  · have hlen : (localFile fs last').length = (blockWords fs).length + 8 := by
      simp [localFile, lastBlockHeader]
    have hseek : (Disk.seekBack ⟨localFile fs last', (localFile fs last').length⟩ EV_HDSIZ) =
        ⟨localFile fs last', (blockWords fs).length⟩ := by
      have hle : EV_HDSIZ ≤ (localFile fs last').length := by
        rw [hlen, EV_HDSIZ]
        omega
      rw [Disk.seekBack, if_pos hle, hlen, EV_HDSIZ, Nat.add_sub_cancel]
    have hsplice : splice (localFile fs last') (blockWords fs).length (localFile bs last) =
        localFile (fs ++ bs) last := by
      rw [localFile, splice_of_length_le rfl (by simp [localFile, lastBlockHeader]), localFile, localFile,
        blockWords_append, List.append_assoc]
    rw [if_neg (by omega), hfile, Option.getD_some, hseek, Disk.fwrite, hsplice]
    simp [localFile]

theorem OnDisk.of_eq {a' : EvWriter} (h : a.OnDisk fs) (hfile : a'.file = a.file)
    (hbytes : a'.bytesToFile = a.bytesToFile) : a'.OnDisk fs := by
  unfold OnDisk
  rwa [hfile, hbytes]

theorem Holds.evFlush_onDisk (h : a.Holds [] bs) (hroom : a.Room) (hdisk : a.OnDisk fs) :
    ∃ a1, a.evFlush = some a1 ∧ a1.OnDisk (fs ++ bs) := by
  obtain ⟨file, n, hflush, ⟨rfl, rfl, rfl⟩ | ⟨hbs, rfl, rfl⟩⟩ := h.evFlush hroom
  · exact ⟨_, hflush, by rw [List.append_nil]; exact hdisk⟩
  · have htake : (([] : List UInt32) ++ localFile bs a.blknum).take ((blockWords bs).length + 8) =
        localFile bs a.blknum := List.take_of_length_le (by simp [localFile, lastBlockHeader])
    refine ⟨_, hflush, ?_⟩
    rw [htake]
    exact hdisk.fwrite hbs (by omega)

theorem Writing.evWrite (garbage : Nat → UInt32) (h : a.Writing es fs bs) (e : EvioEvent) (behind : List UInt32)
    (hstart : bs = [] → e.words.length + 8 ≤ a.blkSizeTarget ∨ a.bufSize < e.words.length + 16) :
    ∃ a' fs' bs', a.evWrite garbage (e.words ++ behind) = some (0, a') ∧
      a'.Writing (es ++ [e]) fs' bs' ∧ bs' ≠ [] := by
  have hevents := h.events
  rcases h.holds.evWrite garbage h.room e behind hstart with
    ⟨a', bs', hwrite, hx⟩ | ⟨a', num, hwrite, hx⟩ | ⟨hpre, -⟩
  · refine ⟨a', fs, bs', hwrite, ⟨hx.holds, h.disk.of_eq hx.keeps.file hx.keeps.bytesToFile,
      hx.keeps.room h.room, ?_, ?_⟩, hx.some⟩
    · rw [blockEvents_append, hx.events, ← List.append_assoc, ← blockEvents_append, hevents]
    · intro c hc
      rw [hx.keeps.blkSizeTarget]
      rcases List.mem_append.mp hc with hc | hc
      · exact h.fits c (List.mem_append_left _ hc)
      · rcases hx.fits c hc with hc | hc
        · exact h.fits c (List.mem_append_right _ hc)
        · exact hc
  · obtain ⟨a1, hflush, hfile, hbytes⟩ := hx.flush
    obtain ⟨a2, hflush', hdisk⟩ := h.holds.evFlush_onDisk h.room h.disk
    obtain rfl : a1 = a2 := Option.some.inj (hflush.symm.trans hflush')
    refine ⟨a', fs ++ bs, _, hwrite, ⟨hx.holds, hdisk.of_eq hfile hbytes, hx.room, ?_, ?_⟩, by simp⟩
    · rw [blockEvents_append, hevents]
      rfl
    · intro c hc
      rw [hx.blkSizeTarget]
      rcases List.mem_append.mp hc with hc | hc
      · exact h.fits c hc
      · rw [List.mem_singleton.mp hc]
        exact fits_singleton ..
  · exact absurd rfl hpre

theorem newBuffer_eq (a : EvWriter) (garbage : Nat → UInt32) {size : Nat} (hsize : 8 ≤ size) :
    ∃ t, a.newBuffer garbage size =
      some { a with buf := lastBlockHeader 1 ++ t, currentHeader := 0, bufSize := size } ∧
        (lastBlockHeader 1 ++ t).length = size := by
  have hpoke : poke (malloc garbage size) 0 (lastBlockHeader 1) =
      some (lastBlockHeader 1 ++ (malloc garbage size).drop 8) := by
    rw [poke_eq (by simp [lastBlockHeader]; omega), splice, List.take_zero, List.nil_append]
    rfl
  refine ⟨(malloc garbage size).drop 8, ?_, by simp [lastBlockHeader]; omega⟩
  rw [newBuffer, hpoke]
  rfl

theorem Fresh.empty (h : a.Fresh) : a.Empty := by
  obtain ⟨-, -, hempty⟩ | ⟨cs, b, hnil, -⟩ := h.writing.holds
  · exact hempty
  · simp at hnil

theorem Fresh.not_started (h : a.Fresh) : a.started = false := by
  have hcount : a.blkEvCount = 0 := h.empty.blkEvCount
  simp [started, h.blknum, hcount]

theorem Fresh.change (h : a.Fresh) (buf : List UInt32) (bufSize blkSizeTarget : Nat)
    (hbuf : ∃ t, buf = lastBlockHeader 1 ++ t) (hlen : bufSize ≤ buf.length) (hfits : buf.length < 2 ^ 30)
    (hmin : EV_BLOCKSIZE_MIN ≤ blkSizeTarget) (hmax : blkSizeTarget ≤ EV_BLOCKSIZE_MAX)
    (htarget : blkSizeTarget ≤ bufSize) :
    Fresh { a with buf, currentHeader := 0, bufSize, blkSizeTarget, next := EV_HDSIZ } := by
  have hroom := h.writing.room
  obtain ⟨t, ht⟩ := hbuf
  refine ⟨⟨.inl ⟨rfl, rfl, ⟨8, 0, t, ?_⟩, rfl, h.empty.blksiz, h.empty.blkEvCount, rfl, h.empty.bytesToBuf,
    h.empty.eventsToBuf⟩,
    h.writing.disk.of_eq rfl rfl, ⟨hlen, hfits, hmin, hmax, htarget, hroom.countMin, hroom.countMax⟩, rfl,
    by simp⟩, h.blknum, t, ht⟩
  rw [h.blknum]
  exact ht

theorem Fresh.resize (h : a.Fresh) (bufSize blkSizeTarget : Nat) (hlen : bufSize ≤ a.buf.length)
    (hmin : EV_BLOCKSIZE_MIN ≤ blkSizeTarget) (hmax : blkSizeTarget ≤ EV_BLOCKSIZE_MAX)
    (htarget : blkSizeTarget ≤ bufSize) :
    Fresh { a with bufSize, blkSizeTarget, next := EV_HDSIZ } := by
  have hcurrent : a.currentHeader = 0 := h.empty.currentHeader
  have hchange := h.change a.buf bufSize blkSizeTarget h.buf hlen h.writing.room.fits hmin hmax htarget
  rwa [← hcurrent] at hchange

theorem Fresh.setBlockSize (h : a.Fresh) (n : Nat) :
    ∃ status a', a.setBlockSize garbage n = some (status, a') ∧ a'.Fresh := by
  have hroom := h.writing.room
  have hlen := hroom.length
  have hfits := hroom.fits
  unfold EvWriter.setBlockSize
  rw [if_neg (by rw [h.not_started]; exact Bool.false_ne_true)]
  by_cases hsame : n = a.blkSizeTarget
  · exact ⟨_, a, if_pos hsame, h⟩
  · rw [if_neg hsame]
    by_cases hrange : n < EV_BLOCKSIZE_MIN ∨ EV_BLOCKSIZE_MAX < n
    · exact ⟨_, a, if_pos hrange, h⟩
    · obtain ⟨hmin, hmax⟩ : EV_BLOCKSIZE_MIN ≤ n ∧ n ≤ EV_BLOCKSIZE_MAX := by omega
      rw [if_neg hrange]
      have hmax' : n ≤ 25600000 := hmax
      rw [EvWriter.roomForBlock]
      by_cases hreal : n + EV_HDSIZ > a.bufRealSize
      · obtain ⟨t, ht, hlen'⟩ := newBuffer_eq a garbage
          (show 8 ≤ n + EV_HDSIZ by simp only [EV_HDSIZ]; omega)
        rw [if_pos hreal, ht]
        exact ⟨0, _, rfl, h.change (lastBlockHeader 1 ++ t) (n + EV_HDSIZ) n ⟨t, rfl⟩ (by omega)
          (by simp only [EV_HDSIZ] at hlen' ⊢; omega) hmin hmax (by omega)⟩
      · rw [if_neg hreal]
        by_cases hbuf : n + EV_HDSIZ > a.bufSize
        · rw [if_pos hbuf]
          exact ⟨0, _, rfl, h.resize (n + EV_HDSIZ) n (by rw [bufRealSize] at hreal; omega) hmin hmax (by omega)⟩
        · rw [if_neg hbuf]
          exact ⟨0, _, rfl, h.resize a.bufSize n hlen hmin hmax (by omega)⟩

theorem Fresh.setBufferSize (h : a.Fresh) (n : Nat) :
    ∃ status a', a.setBufferSize garbage n = some (status, a') ∧ a'.Fresh := by
  have hroom := h.writing.room
  have hmin := hroom.targetMin
  have hmax := hroom.targetMax
  unfold EvWriter.setBufferSize
  rw [if_neg (by rw [h.not_started]; exact Bool.false_ne_true)]
  by_cases hsame : n = a.bufSize
  · exact ⟨_, a, if_pos hsame, h⟩
  · rw [if_neg hsame]
    by_cases hrange : n < a.blkSizeTarget + EV_HDSIZ ∨ EV_BLOCKSIZE_MAX + EV_HDSIZ < n
    · exact ⟨_, a, if_pos hrange, h⟩
    · obtain ⟨hle, hge⟩ : a.blkSizeTarget + EV_HDSIZ ≤ n ∧ n ≤ 25600000 + EV_HDSIZ := by
        simp only [EV_BLOCKSIZE_MAX] at hrange
        omega
      rw [if_neg hrange]
      by_cases hreal : n > a.bufRealSize
      · obtain ⟨t, ht, hlen'⟩ := newBuffer_eq a garbage
          (show 8 ≤ n by simp only [EV_HDSIZ] at hle; omega)
        rw [if_pos hreal, ht]
        exact ⟨0, _, rfl, h.change (lastBlockHeader 1 ++ t) n a.blkSizeTarget ⟨t, rfl⟩ (by omega)
          (by simp only [EV_HDSIZ] at hge; omega) hmin hmax (by omega)⟩
      · rw [if_neg hreal]
        exact ⟨0, _, rfl, h.resize n a.blkSizeTarget (by rw [bufRealSize] at hreal; omega) hmin hmax (by omega)⟩

theorem Holds.started {pre : List UInt32} (h : a.Holds pre bs) (hbs : bs ≠ []) : a.started = true := by
  obtain ⟨-, rfl, -⟩ | ⟨cs, b, rfl, hsome, hopen⟩ := h
  · exact absurd rfl hbs
  · have hcount := hopen.blkEvCount
    have hpos := List.length_pos_iff.mpr hsome
    simp only [EvWriter.started, Bool.or_eq_true, bne_iff_ne, ne_eq]
    exact .inr (by omega)

theorem setMaxEvents_eq (a : EvWriter) (n : Nat) :
    ∃ m, (a.setMaxEvents n).2 = { a with blkEvMax := m } ∧ (m = a.blkEvMax ∨ 1 ≤ m ∧ m ≤ EV_EVENTS_MAX) := by
  unfold EvWriter.setMaxEvents
  by_cases hn : n < 1
  · exact ⟨a.blkEvMax, by rw [if_pos hn], .inl rfl⟩
  · refine ⟨min n EV_EVENTS_MAX, by rw [if_neg hn], .inr ⟨?_, Nat.min_le_right ..⟩⟩
    simp only [EV_EVENTS_MAX]
    omega

theorem Room.setMaxEvents (h : a.Room) (n : Nat) : (a.setMaxEvents n).2.Room := by
  obtain ⟨m, hm, hcount⟩ := setMaxEvents_eq a n
  have hmin := h.countMin
  have hmax := h.countMax
  rw [hm]
  exact ⟨h.length, h.fits, h.targetMin, h.targetMax, h.target, by show 1 ≤ m; omega,
    by show m ≤ EV_EVENTS_MAX; omega⟩

theorem Holds.setMaxEvents {pre : List UInt32} (h : a.Holds pre bs) (n : Nat) :
    (a.setMaxEvents n).2.Holds pre bs := by
  obtain ⟨m, hm, -⟩ := setMaxEvents_eq a n
  rw [hm]
  obtain ⟨rfl, rfl, hempty⟩ | ⟨cs, b, rfl, hsome, hopen⟩ := h
  · exact .inl ⟨rfl, rfl, hempty.buf, hempty.currentHeader, hempty.blksiz, hempty.blkEvCount, hempty.next,
      hempty.bytesToBuf, hempty.eventsToBuf⟩
  · exact .inr ⟨cs, b, rfl, hsome, hopen.buf, hopen.currentHeader, hopen.blksiz, hopen.blkEvCount,
      hopen.next, hopen.bytesToBuf, hopen.eventsToBuf, hopen.fits⟩

theorem Writing.setMaxEvents (h : a.Writing es fs bs) (n : Nat) :
    (a.setMaxEvents n).2.Writing es fs bs := by
  obtain ⟨m, hm, -⟩ := setMaxEvents_eq a n
  refine ⟨h.holds.setMaxEvents n, h.disk.of_eq ?_ ?_, h.room.setMaxEvents n, h.events, ?_⟩
  · rw [hm]
  · rw [hm]
  · rw [hm]
    exact h.fits

theorem length_evOpen : (EvWriter.buf {}).length = 64000 := by
  show (lastBlockHeader 1 ++ List.replicate (EV_BLOCKSIZE_V4 - EV_HDSIZ) 0).length = 64000
  rw [List.length_append, List.length_replicate]
  rfl

theorem fresh_evOpen : Fresh {} where
  writing :=
    { holds := .inl ⟨rfl, rfl, ⟨8, 0, List.replicate (EV_BLOCKSIZE_V4 - EV_HDSIZ) 0, rfl⟩, rfl, rfl, rfl,
        rfl, rfl, rfl⟩
      disk := .inl ⟨rfl, rfl, rfl⟩
      room := ⟨Nat.le_of_eq length_evOpen.symm, Nat.lt_of_le_of_lt (Nat.le_of_eq length_evOpen) (by decide),
        by decide, by decide, by decide, by decide, by decide⟩
      events := rfl
      fits := by simp }
  blknum := rfl
  buf := ⟨_, rfl⟩

theorem Writing.run (garbage : Nat → UInt32) (h : a.Writing es fs bs) (hbs : bs ≠ []) (ops : List WriteOp) :
    ∃ statuses a' fs' bs', a.run garbage ops = some (statuses, a') ∧
      a'.Writing (es ++ writtenEvents ops) fs' bs' ∧ bs' ≠ [] ∧
      List.Forall₂ WriteOp.Succeeds ops statuses := by
  induction ops generalizing a es fs bs with
  | nil => exact ⟨[], a, fs, bs, rfl, by simpa [writtenEvents] using h, hbs, .nil⟩
  | cons op ops ih =>
    have hstart := h.holds.started hbs
    -- what a step preserves
    obtain ⟨status, a1, fs1, bs1, hperform, h1, hbs1, hstatus⟩ : ∃ status a1 fs1 bs1,
        a.perform garbage op = some (status, a1) ∧
        a1.Writing (es ++ writtenEvents [op]) fs1 bs1 ∧ bs1 ≠ [] ∧ op.Succeeds status := by
      cases op with
      | evWrite e behind =>
        obtain ⟨a1, fs1, bs1, hwrite, h1, hbs1⟩ := h.evWrite garbage e behind (fun hnil => absurd hnil hbs)
        exact ⟨0, a1, fs1, bs1, hwrite, h1, hbs1, rfl⟩
      | setBlockSize n =>
        refine ⟨_, a, fs, bs, if_pos hstart, ?_, hbs, trivial⟩
        simpa [writtenEvents] using h
      | setBufferSize n =>
        refine ⟨_, a, fs, bs, if_pos hstart, ?_, hbs, trivial⟩
        simpa [writtenEvents] using h
      | setMaxEvents n =>
        refine ⟨(a.setMaxEvents n).1, (a.setMaxEvents n).2, fs, bs, rfl, ?_, hbs, trivial⟩
        simpa [writtenEvents] using h.setMaxEvents n
    obtain ⟨statuses, a', fs', bs', hrun, h', hbs', hall⟩ := ih h1 hbs1
    have hwritten : writtenEvents (op :: ops) = writtenEvents [op] ++ writtenEvents ops := by
      cases op <;> rfl
    refine ⟨status :: statuses, a', fs', bs', ?_, ?_, hbs', .cons hstatus hall⟩
    · rw [EvWriter.run, hperform, Option.bind_eq_bind, Option.bind_some]
      dsimp only
      rw [hrun]
      rfl
    · rw [hwritten, ← List.append_assoc]
      exact h'

theorem Fresh.perform (garbage : Nat → UInt32) (h : a.Fresh) {op : WriteOp} (hop : writtenEvents [op] = []) :
    ∃ status a', a.perform garbage op = some (status, a') ∧ a'.Fresh := by
  cases op with
  | evWrite e behind => simp [writtenEvents] at hop
  | setBlockSize n => exact h.setBlockSize n
  | setBufferSize n => exact h.setBufferSize n
  | setMaxEvents n =>
    obtain ⟨m, hm, -⟩ := setMaxEvents_eq a n
    refine ⟨(a.setMaxEvents n).1, (a.setMaxEvents n).2, rfl, h.writing.setMaxEvents n, ?_, ?_⟩
    · rw [hm]
      exact h.blknum
    · rw [hm]
      exact h.buf

theorem Fresh.run (h : a.Fresh) {ops : List WriteOp} (hfirst : FirstFits garbage a ops) :
    ∃ statuses a' fs bs, a.run garbage ops = some (statuses, a') ∧
      a'.Writing (writtenEvents ops) fs bs ∧ List.Forall₂ WriteOp.Succeeds ops statuses := by
  induction ops generalizing a with
  | nil => exact ⟨[], a, [], [], rfl, h.writing, .nil⟩
  | cons op ops ih =>
    have hset (hop : writtenEvents [op] = []) (hsucceeds : ∀ status, op.Succeeds status)
        (hrest : ∀ status a', a.perform garbage op = some (status, a') → FirstFits garbage a' ops) :
        ∃ statuses a' fs bs, a.run garbage (op :: ops) = some (statuses, a') ∧
          a'.Writing (writtenEvents ops) fs bs ∧ List.Forall₂ WriteOp.Succeeds (op :: ops) statuses := by
      obtain ⟨status, a1, hperform, h1⟩ := h.perform garbage hop
      obtain ⟨statuses, a', fs, bs, hrun, h', hall⟩ := ih h1 (hrest _ _ hperform)
      refine ⟨status :: statuses, a', fs, bs, ?_, h', .cons (hsucceeds status) hall⟩
      rw [EvWriter.run, hperform, Option.bind_eq_bind, Option.bind_some]
      dsimp only
      rw [hrun]
      rfl
    cases op with
    | evWrite e behind =>
      obtain ⟨a1, fs, bs, hwrite, h1, hbs⟩ := h.writing.evWrite garbage e behind (fun _ => hfirst)
      obtain ⟨statuses, a', fs', bs', hrun, h', -, hall⟩ := h1.run garbage hbs ops
      refine ⟨0 :: statuses, a', fs', bs', ?_, h', .cons rfl hall⟩
      rw [EvWriter.run, EvWriter.perform, hwrite, Option.bind_eq_bind, Option.bind_some]
      dsimp only
      rw [hrun]
      rfl
    | setBlockSize n => exact hset rfl (fun _ => trivial) hfirst
    | setBufferSize n => exact hset rfl (fun _ => trivial) hfirst
    | setMaxEvents n => exact hset rfl (fun _ => trivial) hfirst

/-- The file begins with the header of a last block, or will begin with it. -/
structure Lost (a : EvWriter) : Prop where
  room : a.Room
  holds : ∃ pre bs, bs ≠ [] ∧ a.Holds pre bs ∧
    ((pre = lastBlockHeader 1 ∧ a.file = none ∧ a.bytesToFile = 0) ∨
      (pre = [] ∧ 0 < a.bytesToFile ∧ ∃ d, a.file = some d ∧ d.words.take 8 = lastBlockHeader 1 ∧
        16 ≤ d.pos ∧ d.pos ≤ d.words.length))

theorem blockWords_length (hbs : bs ≠ []) : 8 ≤ (blockWords bs).length := by
  obtain ⟨b, bs, rfl⟩ := List.exists_cons_of_ne_nil hbs
  simp [blockWords, LocalBlock.words]

theorem Lost.evFlush (h : a.Lost) : ∃ a1, a.evFlush = some a1 ∧ 0 < a1.bytesToFile ∧
    ∃ d, a1.file = some d ∧ d.words.take 8 = lastBlockHeader 1 ∧ 16 ≤ d.pos ∧ d.pos ≤ d.words.length := by
  obtain ⟨pre, bs, hbs, hholds, hdisk⟩ := h.holds
  have hlen := blockWords_length hbs
  obtain ⟨file, n, hflush, ⟨hnil, -⟩ | ⟨-, rfl, rfl⟩⟩ := hholds.evFlush h.room
  · exact absurd hnil hbs
  · refine ⟨_, hflush, by simp, _, rfl, ?_⟩
    rcases hdisk with ⟨rfl, hfile, hbytes⟩ | ⟨rfl, hbytes, d, hfile, htake, hpos, hle⟩
    · have hxs : ((lastBlockHeader 1 ++ localFile bs a.blknum).take ((blockWords bs).length + 8)).length =
          (blockWords bs).length + 8 := List.length_take_of_le (by simp [localFile, lastBlockHeader])
      rw [if_pos (by omega), hfile]
      simp only [Option.getD_none, Disk.fwrite, splice, List.take_nil, List.drop_nil, List.nil_append,
        List.append_nil, Nat.zero_add, hxs]
      refine ⟨?_, by omega, by omega⟩
      rw [List.take_take, Nat.min_eq_left (by omega)]
      exact List.take_left' rfl
    · have hxs : (([] : List UInt32) ++ localFile bs a.blknum).take ((blockWords bs).length + 8) =
          localFile bs a.blknum := List.take_of_length_le (by simp [localFile, lastBlockHeader])
      have hxlen : (localFile bs a.blknum).length = (blockWords bs).length + 8 := by
        simp [localFile, lastBlockHeader]
      have hseek : d.seekBack EV_HDSIZ = ⟨d.words, d.pos - 8⟩ := if_pos (Nat.le_trans (by decide) hpos)
      rw [if_neg (by omega), hfile, Option.getD_some, hseek, hxs, Disk.fwrite, hxlen]
      refine ⟨?_, by simp only; omega, ?_⟩
      · simp only
        rw [take_splice_before (by omega) (by omega), htake]
      · simp only [splice, List.length_append, hxlen]
        rw [List.length_take_of_le (by omega)]
        omega

theorem Lost.perform (h : a.Lost) {op : WriteOp} {status : Int} {a' : EvWriter}
    (hop : a.perform garbage op = some (status, a')) : a'.Lost := by
  obtain ⟨pre, bs, hbs, hholds, hdisk⟩ := h.holds
  have hstart := hholds.started hbs
  cases op with
  | evWrite e behind =>
    rcases hholds.evWrite garbage h.room e behind (fun hnil => absurd hnil hbs) with
      ⟨a1, bs', hwrite, hx⟩ | ⟨a1, num, hwrite, hx⟩ | ⟨-, hnone⟩
    · obtain ⟨-, rfl⟩ := Prod.mk.inj (Option.some.inj (hwrite.symm.trans hop))
      refine ⟨hx.keeps.room h.room, pre, bs', hx.some, hx.holds, ?_⟩
      rw [hx.keeps.file, hx.keeps.bytesToFile]
      exact hdisk
    · obtain ⟨-, rfl⟩ := Prod.mk.inj (Option.some.inj (hwrite.symm.trans hop))
      obtain ⟨a2, hflush, hbytes, d, hfile, hd⟩ := h.evFlush
      obtain ⟨a3, hflush', hfile', hbytes'⟩ := hx.flush
      obtain rfl : a3 = a2 := Option.some.inj (hflush'.symm.trans hflush)
      exact ⟨hx.room, [], _, by simp, hx.holds, .inr ⟨rfl, by omega, d, hfile'.trans hfile, hd⟩⟩
    · exact absurd (hnone.symm.trans hop) (by simp)
  | setBlockSize n =>
    obtain ⟨-, rfl⟩ := Prod.mk.inj (Option.some.inj ((if_pos hstart).symm.trans hop))
    exact h
  | setBufferSize n =>
    obtain ⟨-, rfl⟩ := Prod.mk.inj (Option.some.inj ((if_pos hstart).symm.trans hop))
    exact h
  | setMaxEvents n =>
    obtain rfl : (a.setMaxEvents n).2 = a' := congrArg Prod.snd (Option.some.inj hop)
    obtain ⟨m, hm, -⟩ := setMaxEvents_eq a n
    refine ⟨h.room.setMaxEvents n, pre, bs, hbs, hholds.setMaxEvents n, ?_⟩
    rw [hm]
    exact hdisk

theorem run_cons {op : WriteOp} {ops : List WriteOp} {statuses : List Int} {a' : EvWriter}
    (h : a.run garbage (op :: ops) = some (statuses, a')) :
    ∃ status a1 rest, a.perform garbage op = some (status, a1) ∧ a1.run garbage ops = some (rest, a') := by
  rw [EvWriter.run] at h
  obtain ⟨⟨status, a1⟩, hperform, h⟩ := Option.bind_eq_some_iff.mp h
  obtain ⟨⟨rest, a2⟩, hrun, h⟩ := Option.bind_eq_some_iff.mp h
  obtain ⟨-, rfl⟩ := Prod.mk.inj (Option.some.inj h)
  exact ⟨status, a1, rest, hperform, hrun⟩

theorem Lost.run (h : a.Lost) (ops : List WriteOp) {statuses : List Int} {a' : EvWriter}
    (hrun : a.run garbage ops = some (statuses, a')) : a'.Lost := by
  induction ops generalizing a statuses with
  | nil =>
    obtain ⟨-, rfl⟩ := Prod.mk.inj (Option.some.inj hrun)
    exact h
  | cons op ops ih =>
    obtain ⟨status, a1, rest, hperform, hrun⟩ := run_cons hrun
    exact ih (h.perform hperform) hrun

theorem Fresh.run_lost (h : a.Fresh) {ops : List WriteOp} (hbad : ¬FirstFits garbage a ops)
    {statuses : List Int} {a' : EvWriter} (hrun : a.run garbage ops = some (statuses, a')) : a'.Lost := by
  induction ops generalizing a statuses with
  | nil => exact absurd trivial hbad
  | cons op ops ih =>
    obtain ⟨status, a1, rest, hperform, hrun⟩ := run_cons hrun
    have hset (hop : writtenEvents [op] = [])
        (hbad : ¬∀ status a', a.perform garbage op = some (status, a') → FirstFits garbage a' ops) :
        a'.Lost := by
      obtain ⟨status', a2, hperform', hfresh⟩ := h.perform garbage hop
      obtain ⟨-, rfl⟩ := Prod.mk.inj (Option.some.inj (hperform'.symm.trans hperform))
      refine ih hfresh (fun hfits => hbad fun status' a' h' => ?_) hrun
      obtain ⟨-, rfl⟩ := Prod.mk.inj (Option.some.inj (hperform'.symm.trans h'))
      exact hfits
    cases op with
    | evWrite e behind =>
      obtain ⟨t, hbuf⟩ := h.buf
      rcases h.empty.evWrite_bad garbage behind hbuf h.writing.room hbad with
        ⟨a2, hwrite, hholds, hkeeps⟩ | hnone
      · obtain ⟨-, rfl⟩ := Prod.mk.inj (Option.some.inj (hwrite.symm.trans hperform))
        have hdisk : a.file = none ∧ a.bytesToFile = 0 := by
          rcases h.writing.disk with ⟨-, hdisk⟩ | ⟨hnil, -⟩
          · exact hdisk
          · exact absurd rfl hnil
        refine Lost.run ⟨hkeeps.room h.writing.room, _, _, by simp, hholds, .inl ⟨rfl, ?_, ?_⟩⟩ ops hrun
        · rw [hkeeps.file, hdisk.1]
        · rw [hkeeps.bytesToFile, hdisk.2]
      · exact absurd (hnone.symm.trans hperform) (by simp)
    | setBlockSize n => exact hset rfl hbad
    | setBufferSize n => exact hset rfl hbad
    | setMaxEvents n => exact hset rfl hbad

theorem Lost.evClose (h : a.Lost) :
    ∃ rest, a.evClose = some (some (lastBlockHeader 1 ++ rest)) := by
  obtain ⟨a1, hflush, -, d, hfile, htake, -⟩ := h.evFlush
  refine ⟨d.words.drop 8, ?_⟩
  rw [EvWriter.evClose, hflush, ← htake, List.take_append_drop, Option.bind_eq_bind, Option.bind_some, hfile]
  rfl

theorem exists_diskFile (env : SwapEnv) {target : Nat} (htarget : target ≤ EV_BLOCKSIZE_MAX)
    (hfits : ∀ b ∈ bs, b.Fits target) (last : Nat) :
    ∃ ds : List (DiskBlock env false), diskFile ds last = localFile bs last ∧
      (ds.flatMap (·.events)).map (·.toEvioEvent) = blockEvents bs := by
  have hblocks : ∃ ds : List (DiskBlock env false), ds.flatMap DiskBlock.words = blockWords bs ∧
      (ds.flatMap (·.events)).map (·.toEvioEvent) = blockEvents bs := by
    induction bs with
    | nil => exact ⟨[], rfl, rfl⟩
    | cons b bs ih =>
      obtain ⟨ds, hwords, hevents⟩ := ih fun c hc => hfits c (.tail _ hc)
      have hpay : ((b.events.map (EvioEvent.local env)).flatMap fun e => e.disk) = b.payload := by
        simp [LocalBlock.payload, List.flatMap_map, EvioEvent.local]
      have hb := hfits b (.head _)
      have hsize : 8 + b.payload.length < 2 ^ 30 := by
        rcases hb.size with hle | hone
        · have : target ≤ 25600000 := htarget
          rw [LocalBlock.size] at hle
          omega
        · obtain ⟨e, he⟩ := List.length_eq_one_iff.mp hone
          have := e.fits
          simp [LocalBlock.payload, he]
          omega
      let d : DiskBlock env false :=
        { num := b.num
          events := b.events.map (EvioEvent.local env)
          some := by simpa using hb.some
          fits := by rw [hpay]; exact hsize }
      refine ⟨d :: ds, ?_, ?_⟩
      · have hd : d.words = b.words := by
          show blockHeader (8 + ((b.events.map (EvioEvent.local env)).flatMap fun e => e.disk).length) b.num
              (b.events.map (EvioEvent.local env)).length EV_VERSION ++ ((b.events.map (EvioEvent.local env)).flatMap fun e => e.disk) = b.words
          rw [hpay, List.length_map]
          rfl
        rw [List.flatMap_cons, hwords, hd]
        rfl
      · rw [List.flatMap_cons, List.map_append, hevents]
        show (b.events.map (EvioEvent.local env)).map (·.toEvioEvent) ++ _ = _
        rw [List.map_map]
        simp [Function.comp_def, EvioEvent.local, blockEvents]
  obtain ⟨ds, hwords, hevents⟩ := hblocks
  exact ⟨ds, by rw [diskFile, hwords, localFile]; rfl, hevents⟩

variable {env : ReadEnv} {fuel : Nat} {buffer : List UInt32}

theorem reads_localFile (env : ReadEnv) {target : Nat} (htarget : target ≤ EV_BLOCKSIZE_MAX)
    (hfits : ∀ b ∈ bs, b.Fits target) (last : Nat) (hbuf : 3 ≤ buffer.length)
    (hfuel : (blockEvents bs).length < fuel)
    (hwords : ∀ e ∈ blockEvents bs, e.words.length < fuel ∧ e.words.length ≤ buffer.length) :
    Yields env fuel buffer (localFile bs last) ((blockEvents bs).map (·.words)) := by
  obtain ⟨ds, hfile, hevents⟩ := exists_diskFile env.swap htarget hfits last
  rw [← hevents] at hfuel hwords
  intro read hread
  have := EvReader.readFile_diskFile ds last buffer hbuf (by simpa using hfuel)
    (fun e he => hwords e.toEvioEvent (List.mem_map_of_mem he)) read hread
  rw [← hfile, this, ← hevents, List.map_map]
  rfl

theorem Writing.evClose (h : a.Writing es fs bs) :
    ∃ file, a.evClose = some file ∧
      ((fs ++ bs = [] ∧ file = none) ∨
        (fs ++ bs ≠ [] ∧ ∃ last, file = some (localFile (fs ++ bs) last))) := by
  obtain ⟨a1, hflush, hdisk⟩ := h.holds.evFlush_onDisk h.room h.disk
  refine ⟨a1.file.map Disk.words, ?_, ?_⟩
  · rw [EvWriter.evClose, hflush]
    rfl
  · rcases hdisk with ⟨hnil, hfile, -⟩ | ⟨hne, -, last, hfile⟩
    · exact .inl ⟨hnil, by rw [hfile]; rfl⟩
    · exact .inr ⟨hne, last, by rw [hfile]; rfl⟩

theorem reads_lost (rest : List UInt32) (hbuf : 3 ≤ buffer.length) (hfuel : 0 < fuel) :
    Yields env fuel buffer (lastBlockHeader 1 ++ rest) [] := by
  obtain ⟨r, hopen, hahead⟩ := EvReader.evOpen_lastBlock env false 1 rest fuel
  have hread (read : EvReader → Option (Int × List UInt32 × EvReader)) :
      EvReader.readFile env read fuel (lastBlockHeader 1 ++ rest) = r.readAll read fuel := by
    have : EvReader.evOpen env fuel (lastBlockHeader 1 ++ rest) = some (.inr r) := hopen
    simp [EvReader.readFile, this]
  intro read hmem
  rw [hread]
  simp only [List.mem_cons, List.not_mem_nil, or_false] at hmem
  rcases hmem with rfl | rfl | rfl
  · exact hahead.readNoCopy hfuel
  · exact hahead.ahead.readAlloc hfuel (by simp)
  · exact hahead.ahead.readBuffer hfuel hbuf (by simp)

variable {ops : List WriteOp}

theorem blocks_nil (hfits : ∀ b ∈ bs, ∃ target, b.Fits target) : blockEvents bs = [] ↔ bs = [] := by
  constructor
  · intro h
    cases bs with
    | nil => rfl
    | cons b bs =>
      obtain ⟨target, hb⟩ := hfits b (.head _)
      have := hb.some
      simp_all [blockEvents]
  · rintro rfl
    rfl

/-- Whatever is done with a file, it is left behind with blocks of whole events, which are those
that were written, and reading it gives these events in their order. -/
theorem written_read (garbage : Nat → UInt32) (ops : List WriteOp) (hfirst : FirstFits garbage {} ops)
    (env : ReadEnv) {fuel : Nat} {buffer : List UInt32} (hbuf : 3 ≤ buffer.length)
    (hfuel : (writtenEvents ops).length < fuel)
    (hwords : ∀ e ∈ writtenEvents ops, e.words.length < fuel ∧ e.words.length ≤ buffer.length) :
    ∃ statuses a bs last, EvWriter.run garbage {} ops = some (statuses, a) ∧
      List.Forall₂ WriteOp.Succeeds ops statuses ∧ blockEvents bs = writtenEvents ops ∧
      (∀ b ∈ bs, b.Fits a.blkSizeTarget) ∧
      a.evClose = some (if writtenEvents ops = [] then none else some (localFile bs last)) ∧
      Yields env fuel buffer (localFile bs last) ((writtenEvents ops).map (·.words)) := by
  obtain ⟨statuses, a, fs, bs, hrun, hw, hall⟩ := fresh_evOpen.run hfirst
  obtain ⟨file, hclose, hfile⟩ := hw.evClose
  have hevents := hw.events
  have hnil : writtenEvents ops = [] ↔ fs ++ bs = [] := by
    rw [← hevents]
    exact blocks_nil fun b hb => ⟨_, hw.fits b hb⟩
  have hreads (last : Nat) : Yields env fuel buffer (localFile (fs ++ bs) last)
      ((writtenEvents ops).map (·.words)) := by
    have := reads_localFile env hw.room.targetMax hw.fits last hbuf (by rwa [hevents])
      (by rwa [hevents])
    rwa [hevents] at this
  rcases hfile with ⟨hempty, rfl⟩ | ⟨hne, last, rfl⟩
  · exact ⟨statuses, a, fs ++ bs, 0, hrun, hall, hevents, hw.fits, by rw [hclose, if_pos (hnil.mpr hempty)],
      hreads 0⟩
  · exact ⟨statuses, a, fs ++ bs, last, hrun, hall, hevents, hw.fits,
      by rw [hclose, if_neg (fun h => hne (hnil.mp h))], hreads last⟩

def numbersOps : List WriteOp :=
  [.evWrite numbersEvent.toEvioEvent [], .setMaxEvents 1, .evWrite numbersEvent.toEvioEvent [9]]

theorem written_read_numbers :
    ∃ statuses a bs last, EvWriter.run (fun _ => 0) {} numbersOps = some (statuses, a) ∧
      List.Forall₂ WriteOp.Succeeds numbersOps statuses ∧ blockEvents bs = writtenEvents numbersOps ∧
      (∀ b ∈ bs, b.Fits a.blkSizeTarget) ∧
      a.evClose = some (if writtenEvents numbersOps = [] then none else some (localFile bs last)) ∧
      Yields numbersRead 8 (List.replicate 8 0) (localFile bs last)
        ((writtenEvents numbersOps).map (·.words)) :=
  written_read _ numbersOps (.inl (by decide)) numbersRead (by decide) (by decide) (by decide)

/-- Whenever writing stops, what `evFlush` has given to the file holds a leading part of the events
that were written, and is complete. -/
theorem file_read (garbage : Nat → UInt32) (ops : List WriteOp) (hfirst : FirstFits garbage {} ops)
    (env : ReadEnv) {fuel : Nat} {buffer : List UInt32} (hbuf : 3 ≤ buffer.length)
    (hfuel : (writtenEvents ops).length < fuel)
    (hwords : ∀ e ∈ writtenEvents ops, e.words.length < fuel ∧ e.words.length ≤ buffer.length) :
    ∃ statuses a, EvWriter.run garbage {} ops = some (statuses, a) ∧
      ∀ d, a.file = some d → ∃ events, events <+: writtenEvents ops ∧
        Yields env fuel buffer d.words (events.map (·.words)) := by
  obtain ⟨statuses, a, fs, bs, hrun, hw, -⟩ := fresh_evOpen.run hfirst
  refine ⟨statuses, a, hrun, fun d hd => ⟨blockEvents fs, ⟨blockEvents bs, ?_⟩, ?_⟩⟩
  · rw [← blockEvents_append, hw.events]
  · have hmem : ∀ e ∈ blockEvents fs, e ∈ writtenEvents ops := fun e he => by
      rw [← hw.events, blockEvents_append]
      exact List.mem_append_left _ he
    have hlen : (blockEvents fs).length ≤ (writtenEvents ops).length := by
      rw [← hw.events, blockEvents_append, List.length_append]
      omega
    rcases hw.disk with ⟨-, hnone, -⟩ | ⟨-, -, last, hfile⟩
    · simp [hnone] at hd
    · obtain rfl : d = ⟨localFile fs last, (localFile fs last).length⟩ :=
        Option.some.inj (hd.symm.trans hfile)
      exact reads_localFile env hw.room.targetMax (fun b hb => hw.fits b (List.mem_append_left _ hb)) last hbuf
        (by omega) (fun e he => hwords e (hmem e he))

def largeEvent : EvioEvent where
  words := [201, 0x00010100] ++ List.replicate 200 7
  size := by decide +kernel
  fits := by decide +kernel

def largeOps : List WriteOp :=
  [.setBlockSize 256, .setBufferSize 264, .evWrite largeEvent [], .evWrite largeEvent []]

theorem largeOps_fits : FirstFits (fun _ => 0) {} largeOps := by
  intro status a ha status' a' ha'
  have hsize : some (a'.blkSizeTarget) = some 256 := by
    have hrun : run (fun _ => 0) {} (largeOps.take 2) = some ([status, status'], a') := by
      simp [largeOps, run, ha, ha']
    rw [← show (run (fun _ => 0) {} (largeOps.take 2)).map (fun r => r.2.blkSizeTarget) = some 256 by
      decide +kernel, hrun]
    rfl
  exact .inl (by rw [Option.some.inj hsize]; decide +kernel)

theorem file_read_large :
    ∃ statuses a d, EvWriter.run (fun _ => 0) {} largeOps = some (statuses, a) ∧ a.file = some d ∧
      ∃ events, events <+: writtenEvents largeOps ∧
        Yields numbersRead 203 (List.replicate 202 0) d.words (events.map (·.words)) := by
  obtain ⟨statuses, a, hrun, hread⟩ := file_read (fun _ => 0) largeOps largeOps_fits numbersRead
    (show 3 ≤ (List.replicate 202 (0 : UInt32)).length by decide +kernel)
    (show (writtenEvents largeOps).length < 203 by decide +kernel) (by decide +kernel)
  have hfile : (EvWriter.run (fun _ => 0) {} largeOps).map (fun r => r.2.file.isSome) = some true := by
    decide +kernel
  rw [hrun] at hfile
  obtain ⟨d, hd⟩ := Option.isSome_iff_exists.mp (Option.some.inj hfile)
  exact ⟨statuses, a, d, hrun, hd, hread d hd⟩

/-- The events of a file that something is written to can be read from it if and only if the first
of them fits. -/
theorem written_read_iff (garbage : Nat → UInt32) (ops : List WriteOp) (hne : writtenEvents ops ≠ [])
    (env : ReadEnv) {fuel : Nat} {buffer : List UInt32} (hbuf : 3 ≤ buffer.length)
    (hfuel : (writtenEvents ops).length < fuel)
    (hwords : ∀ e ∈ writtenEvents ops, e.words.length < fuel ∧ e.words.length ≤ buffer.length) :
    (∃ statuses a file, EvWriter.run garbage {} ops = some (statuses, a) ∧ a.evClose = some (some file) ∧
      Yields env fuel buffer file ((writtenEvents ops).map (·.words))) ↔ FirstFits garbage {} ops := by
  constructor
  · rintro ⟨statuses, a, file, hrun, hclose, hreads⟩
    by_contra hbad
    obtain ⟨rest, hrest⟩ := (fresh_evOpen.run_lost hbad hrun).evClose
    obtain rfl : file = lastBlockHeader 1 ++ rest := Option.some.inj (Option.some.inj (hclose.symm.trans hrest))
    have hnone := (hreads _ (.head _)).symm.trans (reads_lost rest hbuf (by omega) _ (.head _))
    exact hne (by simpa using congrArg Prod.fst (Option.some.inj hnone))
  · intro hfirst
    obtain ⟨statuses, a, fs, bs, hrun, hw, -⟩ := fresh_evOpen.run hfirst
    obtain ⟨file, hclose, ⟨hempty, -⟩ | ⟨-, last, rfl⟩⟩ := hw.evClose
    · exact absurd (by rw [← hw.events, hempty]; rfl) hne
    · refine ⟨statuses, a, _, hrun, hclose, ?_⟩
      have := reads_localFile env hw.room.targetMax hw.fits last hbuf (by rwa [hw.events])
        (by rwa [hw.events])
      rwa [hw.events] at this

theorem written_read_iff_numbers :
    ∃ statuses a file, EvWriter.run (fun _ => 0) {} numbersOps = some (statuses, a) ∧
      a.evClose = some (some file) ∧
      Yields numbersRead 8 (List.replicate 8 0) file ((writtenEvents numbersOps).map (·.words)) :=
  (written_read_iff _ numbersOps (List.cons_ne_nil _ _) numbersRead (by decide) (by decide)
    (by decide)).mpr (.inl (by decide))

end EvWriter

end EvioTool
