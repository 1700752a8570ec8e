import EvioTool.Laws.EvioRead

namespace EvioTool

open Lib EvReader

variable {env : SwapEnv} {sw : Bool} {mem rest : List UInt32} {p q left i : Nat}

def Lies (mem : List UInt32) (p : Nat) (e : DiskEvent env sw) : Prop :=
  ∃ rest, mem.drop p = e.disk ++ rest

theorem drop_add (h : mem.drop p = xs ++ rest) : mem.drop (p + xs.length) = rest := by
  rw [← List.drop_drop, h, List.drop_left]

theorem getElem?_of_drop (h : mem.drop p = xs ++ rest) (hi : i < xs.length) : mem[p + i]? = xs[i]? := by
  rw [← List.getElem?_drop, h, List.getElem?_append_left hi]

theorem bytesLeft_eq {n m : Nat} (hn : n < 2 ^ 30) (hm : n + m < 2 ^ 61) :
    (4 * (n + m) + 2 ^ 64 - u32 (4 * n)) % 2 ^ 64 = 4 * m := by
  rw [u32_eq (by omega)]
  omega

theorem DiskEvent.length_eq (e : DiskEvent env sw) (h : Lies mem p e) :
    (mem[p]?).map (fun w => ((if sw then EVIO_SWAP32 w else w) + 1).toNat) = some e.disk.length := by
  obtain ⟨rest, hp⟩ := h
  obtain ⟨w, ws, hwords, hw⟩ := e.words_eq
  have hpos := List.length_pos_iff.mpr e.disk_ne_nil
  have hget : mem[p]? = e.disk.head? := by
    rw [← Nat.add_zero p, getElem?_of_drop hp hpos, List.head?_eq_getElem?]
  rw [hget, e.length, ← hw]
  cases sw with
  | false => rw [e.plain rfl, hwords]; rfl
  | true => rw [(e.foreign rfl).1, hwords]; simp

theorem blockPointers_eq (es : List (DiskEvent env sw)) (h : mem.drop p = es.flatMap (·.disk) ++ rest)
    (hrest : 2 ≤ rest.length) (hlen : (es.flatMap (·.disk)).length + rest.length < 2 ^ 61) :
    ∃ ps, blockPointers mem sw es.length p (4 * ((es.flatMap (·.disk)).length + rest.length)) =
        some (.inr (ps, p + (es.flatMap (·.disk)).length, 4 * rest.length)) ∧
      List.Forall₂ (Lies mem) ps es := by
  induction es generalizing p with
  | nil => exact ⟨[], by simp [blockPointers], .nil⟩
  | cons e es ih =>
    rw [List.flatMap_cons, List.append_assoc] at h
    rw [List.flatMap_cons, List.length_append] at hlen ⊢
    have hfits := e.fits
    rw [← e.length] at hfits
    obtain ⟨ps, hps, hall⟩ := ih (drop_add h) (by omega)
    have hlies : Lies mem p e := ⟨_, h⟩
    obtain ⟨w, hw, hwlen⟩ := Option.map_eq_some_iff.mp (e.length_eq hlies)
    refine ⟨p :: ps, ?_, .cons hlies hall⟩
    have hleft : ¬ 4 * (e.disk.length + (es.flatMap (·.disk)).length + rest.length) < 8 := by omega
    rw [List.length_cons, blockPointers, if_neg hleft, hw]
    simp only [Option.bind_eq_bind, Option.bind_some, hwlen]
    rw [Nat.add_assoc, bytesLeft_eq (by omega) (by omega), hps, Nat.add_assoc p]
    rfl

theorem headerWord {header : List UInt32} (h : mem.drop p = order sw header ++ rest)
    (hi : i < header.length) :
    (mem[p + i]?).map (fun w => if sw then EVIO_SWAP32 w else w) = header[i]? := by
  rw [getElem?_of_drop h (by simpa using hi)]
  cases sw with
  | false => simp [order]
  | true => simp [order, Function.comp_def]

theorem DiskBlock.count_lt (b : DiskBlock env sw) : b.events.length < 2 ^ 30 := by
  have hle : b.events.length ≤ (b.events.flatMap fun e => e.disk).length := by
    induction b.events with
    | nil => simp
    | cons e es ih =>
      have := List.length_pos_iff.mpr e.disk_ne_nil
      rw [List.flatMap_cons, List.length_append, List.length_cons]
      omega
  have := b.fits
  omega

theorem generatePointerTable_eq (bs : List (DiskBlock env sw)) (last : Nat) {fuel : Nat}
    (hfuel : bs.length < fuel) (first : Bool) (h : mem.drop p = diskFile bs last)
    (hlen : (diskFile bs last).length < 2 ^ 61) :
    ∃ ps, generatePointerTable mem sw fuel first p (4 * (diskFile bs last).length) = some (.inr ps) ∧
      List.Forall₂ (Lies mem) ps (bs.flatMap (·.events)) := by
  induction bs generalizing p fuel first with
  | nil =>
    obtain ⟨fuel, rfl⟩ := Nat.exists_eq_add_of_le' (show 1 ≤ fuel by omega)
    have hword (i : Nat) (hi : i < 8) : (mem[p + i]?).map (fun w => if sw then EVIO_SWAP32 w else w) =
        (lastBlockHeader last)[i]? :=
      headerWord (show mem.drop p = order sw (lastBlockHeader last) ++ [] by simpa [diskFile] using h) hi
    refine ⟨[], ?_, .nil⟩
    simp only [generatePointerTable, hword _ (show EV_HD_VER < 8 by decide),
      hword _ (show EV_HD_HDSIZ < 8 by decide), hword _ (show EV_HD_COUNT < 8 by decide)]
    rfl
  | cons b bs ih =>
    obtain ⟨fuel, rfl⟩ := Nat.exists_eq_add_of_le' (show 1 ≤ fuel by omega)
    have hfile : diskFile (b :: bs) last =
        order sw (blockHeader b.size b.num b.events.length EV_VERSION) ++ (b.payload ++ diskFile bs last) := by
      simp [diskFile, DiskBlock.words]
    rw [hfile] at h hlen ⊢
    simp only [List.length_append, length_order, length_blockHeader] at hlen ⊢
    have hword (i : Nat) (hi : i < 8) : (mem[p + i]?).map (fun w => if sw then EVIO_SWAP32 w else w) =
        (blockHeader b.size b.num b.events.length EV_VERSION)[i]? := headerWord h hi
    have hbody := drop_add h
    rw [length_order, length_blockHeader] at hbody
    have hlast : 8 ≤ (diskFile bs last).length := by
      simp [diskFile, lastBlockHeader]
    obtain ⟨ps, hps, hall⟩ := blockPointers_eq b.events hbody (by omega)
      (show b.payload.length + (diskFile bs last).length < 2 ^ 61 by omega)
    obtain ⟨qs, hqs, hall'⟩ := ih (show bs.length < fuel by simpa using hfuel) first (drop_add hbody) (by omega)
    have hcount := b.count_lt
    have htoNat : (UInt32.ofNat b.events.length).toNat = b.events.length :=
      UInt32.toNat_ofNat_of_lt' (by simp only [UInt32.size]; omega)
    have hcount : (if b.events.length < 2 ^ 31 then b.events.length else 0) = b.events.length :=
      if_pos (by omega)
    have hhdr : (UInt32.ofNat EV_HDSIZ).toNat = 8 := by decide
    have hleft : (4 * (8 + (b.payload.length + (diskFile bs last).length)) + 2 ^ 64 - u32 (4 * 8)) % 2 ^ 64 =
        4 * (b.payload.length + (diskFile bs last).length) := bytesLeft_eq (by omega) (by omega)
    have hzero : (4 * (b.payload.length + (diskFile bs last).length) + 2 ^ 64 - u32 (4 * 0)) % 2 ^ 64 =
        4 * (b.payload.length + (diskFile bs last).length) := by
      have := bytesLeft_eq (n := 0) (m := b.payload.length + (diskFile bs last).length) (by omega) (by omega)
      rwa [Nat.zero_add] at this
    have hver : EV_VERSION &&& EV_LASTBLOCK_MASK = 0 ∧ EV_VERSION &&& EV_DICTIONARY_MASK = 0 := by decide
    refine ⟨ps ++ qs, ?_, by rw [List.flatMap_cons]; exact List.rel_append hall hall'⟩
    simp only [generatePointerTable, hword _ (show EV_HD_VER < 8 by decide),
      hword _ (show EV_HD_HDSIZ < 8 by decide), hword _ (show EV_HD_COUNT < 8 by decide)]
    simp only [blockHeader, EV_HD_VER, EV_HD_HDSIZ, EV_HD_COUNT, List.getElem?_cons_succ,
      List.getElem?_cons_zero, Option.bind_eq_bind, Option.bind_some, hver, bne_self_eq_false, Bool.false_and,
      Bool.false_eq_true, if_false, Option.pure_def, hhdr, htoNat, hcount, hleft]
    change blockPointers mem sw b.events.length (p + 8)
      (4 * (b.payload.length + (diskFile bs last).length)) =
        some (.inr (ps, p + 8 + b.payload.length, 4 * (diskFile bs last).length)) at hps
    rw [hzero, Nat.add_zero, hps]
    simp only [Option.bind_some, Bool.not_false, Bool.and_true, hqs]

theorem ahead_header {f : Stream} {header : List UInt32} (hheader : header.length = 8)
    (h : f.words.drop f.pos = order sw header ++ rest) :
    (f.ahead EV_HDSIZ).length = 8 ∧
      (if sw then (f.ahead EV_HDSIZ).map EVIO_SWAP32 else f.ahead EV_HDSIZ) = header := by
  have hahead : f.ahead EV_HDSIZ = order sw header := by
    rw [Stream.ahead, h, List.take_left' (by rw [length_order, hheader]; rfl)]
  rw [hahead, length_order]
  refine ⟨hheader, ?_⟩
  cases sw with
  | false => rfl
  | true => exact map_swap32_map_swap32 header

theorem getEventCount_eq (bs : List (DiskBlock env sw)) (last : Nat) {fuel count : Nat} {f : Stream}
    (hfuel : bs.length < fuel) (h : f.words.drop f.pos = diskFile bs last)
    (hcount : count + (bs.flatMap (·.events)).length < 2 ^ 32) :
    getEventCount sw fuel f count = some (.inr (count + (bs.flatMap (·.events)).length)) := by
  induction bs generalizing f fuel count with
  | nil =>
    obtain ⟨fuel, rfl⟩ := Nat.exists_eq_add_of_le' (show 1 ≤ fuel by omega)
    obtain ⟨hlen, hheader⟩ := ahead_header (rfl : (lastBlockHeader last).length = 8)
      (show f.words.drop f.pos = order sw (lastBlockHeader last) ++ [] by simpa [diskFile] using h)
    have hu : u32 count = count := u32_eq (by omega)
    have hlast : ¬ (EV_VERSION ||| EV_LASTBLOCK_MASK) &&& EV_LASTBLOCK_MASK = 0 := by decide
    rw [getEventCount, if_neg (by rw [hlen]; decide), hheader]
    simp [lastBlockHeader, blockHeader, EV_HD_VER, EV_HD_BLKSIZ, EV_HD_COUNT, hlast, hu]
  | cons b bs ih =>
    obtain ⟨fuel, rfl⟩ := Nat.exists_eq_add_of_le' (show 1 ≤ fuel by omega)
    have hfile : diskFile (b :: bs) last =
        order sw (blockHeader b.size b.num b.events.length EV_VERSION) ++ (b.payload ++ diskFile bs last) := by
      simp [diskFile, DiskBlock.words]
    rw [hfile] at h
    rw [List.flatMap_cons, List.length_append] at hcount ⊢
    obtain ⟨hlen, hheader⟩ := ahead_header rfl h
    have hfits : 8 + b.payload.length < 2 ^ 30 := b.fits
    have hsize : (UInt32.ofNat b.size).toNat = 8 + b.payload.length :=
      UInt32.toNat_ofNat_of_lt' (by simp only [DiskBlock.size, UInt32.size]; omega)
    have htoNat : (UInt32.ofNat b.events.length).toNat = b.events.length :=
      UInt32.toNat_ofNat_of_lt' (by have := b.count_lt; simp only [UInt32.size]; omega)
    have hu : u32 (count + b.events.length) = count + b.events.length := u32_eq (by omega)
    have hn : u32 (4 * sub32 (8 + b.payload.length) EV_HDSIZ) / 4 = b.payload.length := by
      rw [EV_HDSIZ, sub32_add hfits, bytes_of_words (by omega)]
    have hver : (EV_VERSION &&& EV_LASTBLOCK_MASK != 0) = false := by decide
    have hnext : f.words.drop (f.pos + 8 + b.payload.length) = diskFile bs last := by
      have := drop_add h
      rw [length_order, length_blockHeader] at this
      exact drop_add this
    have hrest := ih (f := { f.fread EV_HDSIZ with pos := (f.fread EV_HDSIZ).pos + b.payload.length })
      (show bs.length < fuel by simpa using hfuel) (by rw [Stream.fread, hlen]; exact hnext)
      (show count + b.events.length + (bs.flatMap (·.events)).length < 2 ^ 32 by omega)
    rw [getEventCount, if_neg (by rw [hlen]; decide), hheader]
    simp only [blockHeader, EV_HD_VER, EV_HD_BLKSIZ, EV_HD_COUNT, List.getElem?_cons_succ,
      List.getElem?_cons_zero, Option.bind_eq_bind, Option.bind_some, hver, Bool.false_eq_true, if_false,
      hsize, htoNat, hu, hn]
    rw [hrest, Nat.add_assoc]

theorem evReadRandom_eq {e : DiskEvent env false} {ps : List Nat} (hp : ps[i]? = some p)
    (h : Lies mem p e) : evReadRandom mem ps (i + 1) = some (0, e.words) := by
  obtain ⟨hi, -⟩ := List.getElem?_eq_some_iff.mp hp
  obtain ⟨w, hw, hwlen⟩ := Option.map_eq_some_iff.mp (e.length_eq h)
  obtain ⟨rest, hrest⟩ := h
  rw [if_neg (by decide)] at hwlen
  have hle : p + e.disk.length ≤ mem.length := by
    have hpos := List.length_pos_iff.mpr e.disk_ne_nil
    have hdrop := congrArg List.length hrest
    rw [List.length_drop, List.length_append] at hdrop
    omega
  rw [evReadRandom, if_neg (by omega), if_neg (by omega), Nat.add_sub_cancel, hp]
  simp only [Option.bind_eq_bind, Option.bind_some, hw]
  rw [hwlen, if_pos hle, hrest, List.take_left, e.plain rfl]
  rfl

/-- `evReadRandom` finds the `i`-th event by its number, and nothing behind the last one, and the
number of the events is what `getEventCount` counts. -/
theorem random_diskFile (bs : List (DiskBlock env sw)) (last : Nat) {fuel : Nat} (hfuel : bs.length < fuel)
    (hlen : (diskFile bs last).length < 2 ^ 61) (hcount : (bs.flatMap (·.events)).length < 2 ^ 32) :
    getEventCount sw fuel { words := diskFile bs last } 0 = some (.inr (bs.flatMap (·.events)).length) ∧
      ∃ ps, generatePointerTable (diskFile bs last) sw fuel true 0 (4 * (diskFile bs last).length) =
          some (.inr ps) ∧
        ps.length = (bs.flatMap (·.events)).length ∧
        (sw = false → ∀ i e, (bs.flatMap (·.events))[i]? = some e →
          evReadRandom (diskFile bs last) ps (i + 1) = some (0, e.words)) ∧
        ∀ n, ps.length < n → evReadRandom (diskFile bs last) ps n = some (S_FAILURE, []) := by
  obtain ⟨ps, hps, hall⟩ := generatePointerTable_eq bs last hfuel true
    (show (diskFile bs last).drop 0 = diskFile bs last from rfl) hlen
  refine ⟨?_, ps, hps, hall.length_eq, ?_, fun n hn => if_pos hn⟩
  · have := getEventCount_eq bs last (f := { words := diskFile bs last }) hfuel rfl
      (show 0 + (bs.flatMap (·.events)).length < 2 ^ 32 by omega)
    rwa [Nat.zero_add] at this
  · rintro rfl i e he
    have hi : i < ps.length := by
      rw [hall.length_eq]
      exact (List.getElem?_eq_some_iff.mp he).1
    obtain ⟨hi', rfl⟩ := List.getElem?_eq_some_iff.mp he
    exact evReadRandom_eq (List.getElem?_eq_getElem hi) (hall.get hi hi')

def localBlock : DiskBlock numbersEnv false where
  num := 1
  events := [numbersEvent.toEvioEvent.local numbersEnv, numbersEvent.toEvioEvent.local numbersEnv]
  some := List.cons_ne_nil _ _
  fits := by decide

theorem random_localBlock :
    getEventCount false 2 { words := diskFile [localBlock] 2 } 0 = some (.inr 2) ∧
      ∃ ps, generatePointerTable (diskFile [localBlock] 2) false 2 true 0
          (4 * (diskFile [localBlock] 2).length) = some (.inr ps) ∧
        ps.length = 2 ∧
        (false = false → ∀ i e, ([localBlock].flatMap (·.events))[i]? = some e →
          evReadRandom (diskFile [localBlock] 2) ps (i + 1) = some (0, e.words)) ∧
        ∀ n, ps.length < n → evReadRandom (diskFile [localBlock] 2) ps n = some (S_FAILURE, []) :=
  random_diskFile [localBlock] 2 (by decide) (by decide) (by decide)

end EvioTool
