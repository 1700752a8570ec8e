import EvioTool.Lib.Forward
import EvioTool.Laws.FADCSlot
import EvioTool.Laws.Reads

namespace EvioTool

open Lib Exec

variable {mem : Mem} {σ : Type} {s t : σ} {cbuf indx : Int} {d : FADCdata} {tag : UInt16}

def Obs.span : Obs → Option (Int × Int)
  | .read _ b n => some (b, b + n)
  | _ => none

section Moves

theorem moves_readLE {who : Reader} {b : Int} {n : Nat} :
    Moves Obs.span b (fun _ => b + n) (readLE mem who b n) s := by
  have htell : Moves Obs.span b (fun _ => b + n) (tell (.read who b n) : Exec Halt Obs σ Unit) s :=
    moves_tell rfl le_rfl (by omega) le_rfl
  exact htell.bind fun _ _ _ => .of_logs (logs_demand.bind fun _ _ _ => logs_pure)

theorem moves_readWord {who : Reader} {a : Int} :
    Moves Obs.span (4 * a) (fun _ => 4 * a + 4) (readWord mem who a) s := by
  have htell : Moves Obs.span (4 * a) (fun _ => 4 * a + 4)
      (tell (.read who (4 * a) 4) : Exec Halt Obs σ Unit) s :=
    moves_tell rfl le_rfl (by omega) le_rfl
  exact htell.bind fun _ _ _ => .of_logs logs_demand

theorem moves_getNext {n : Nat} :
    Moves Obs.span (cbuf + indx) (fun p => cbuf + p.2) (FADCdata.getNext mem cbuf indx n) s := by
  refine moves_readLE.bind fun x u _ => ?_
  have hint : Moves Obs.span (cbuf + indx + n) (fun _ => cbuf + indx + n)
      (int32 (indx + n) : Exec Halt Obs σ Int) u := .of_logs (logs_int32 _)
  refine hint.bind fun i v hi => moves_pure ?_
  obtain ⟨-, rfl, -⟩ := returns_int32.mp hi
  dsimp only
  omega

def Walks (cbuf : Int) (entry : Int → Exec Halt Obs σ (FADCdata × Int)) : Prop :=
  ∀ indx s, Moves Obs.span (cbuf + indx) (fun r => cbuf + r.2) (entry indx) s

theorem walks_ofSamples :
    Walks cbuf fun indx => (FADCdata.ofSamples mem cbuf d indx : Exec Halt Obs σ _) := by
  intro indx s
  refine moves_getNext.bind fun ⟨chan, i⟩ _ _ => moves_getNext.bind fun ⟨count, j⟩ u _ => ?_
  dsimp only
  generalize toInt32 _ = nsamples
  split_ifs with hneg
  · exact moves_halt
  · have htell : Moves Obs.span (cbuf + j) (fun _ => cbuf + j + nsamples * 2)
        (tell (.read .fadc (cbuf + j) (nsamples.toNat * 2)) : Exec Halt Obs σ Unit) u :=
      moves_tell rfl le_rfl (by omega) (by push_cast; omega)
    refine htell.bind fun _ v _ => ?_
    have hdemand : Moves Obs.span (cbuf + j + nsamples * 2) (fun _ => cbuf + j + nsamples * 2)
        (demand .outside (mem.elems (cbuf + j) 2 nsamples.toNat) : Exec Halt Obs σ _) v :=
      .of_logs logs_demand
    refine hdemand.bind fun samples w _ => ?_
    have hsize : Moves Obs.span (cbuf + j + nsamples * 2) (fun _ => cbuf + j + nsamples * 2)
        (int32 (nsamples * 2) : Exec Halt Obs σ Int) w := .of_logs (logs_int32 _)
    refine hsize.bind fun size x hx => ?_
    have hnext : Moves Obs.span (cbuf + j + nsamples * 2) (fun _ => cbuf + j + nsamples * 2)
        (int32 (j + size) : Exec Halt Obs σ Int) x := .of_logs (logs_int32 _)
    refine hnext.bind fun k y hy => moves_pure ?_
    obtain ⟨-, rfl, -⟩ := returns_int32.mp hx
    obtain ⟨-, rfl, -⟩ := returns_int32.mp hy
    dsimp only
    omega

theorem walks_ofValue :
    Walks cbuf fun indx => (FADCdata.ofValue mem cbuf d indx : Exec Halt Obs σ _) :=
  fun _ _ => moves_getNext.bind fun _ _ _ => moves_pure le_rfl

theorem walks_ofChanVal :
    Walks cbuf fun indx => (FADCdata.ofChanVal mem cbuf d indx : Exec Halt Obs σ _) :=
  fun _ _ => moves_getNext.bind fun _ _ _ => moves_getNext.bind fun _ _ _ => moves_pure le_rfl

theorem Walks.repeatEntry {entry : Int → Exec Halt Obs σ (FADCdata × Int)} (he : Walks cbuf entry)
    (n : Nat) : Moves Obs.span (cbuf + indx) (fun r => cbuf + r.2)
      (FADCdata.repeatEntry entry n indx) s := by
  induction n generalizing indx s with
  | zero => exact moves_pure le_rfl
  | succ n ih => exact (he _ _).bind fun _ _ _ => ih.bind fun _ _ _ => moves_pure le_rfl

theorem moves_readHits :
    Moves Obs.span (cbuf + indx) (fun r => cbuf + r.2) (FADCdata.readHits mem tag cbuf d indx) s := by
  have hentries {entry : Int → Exec Halt Obs σ (FADCdata × Int)} (he : Walks cbuf entry) :
      Moves Obs.span (cbuf + indx) (fun r => cbuf + r.2)
        (FADCdata.readEntries mem cbuf entry indx) s :=
    moves_getNext.bind fun _ _ _ => he.repeatEntry _
  unfold FADCdata.readHits
  split_ifs
  · exact hentries walks_ofSamples
  · exact hentries walks_ofValue
  · exact hentries walks_ofChanVal
  · exact moves_pure le_rfl

theorem climbs_readSlots {crate : UInt8} {buflen : Int} (k : Nat) :
    Climbs Obs.span (cbuf + indx) (FADCdata.readSlots mem crate tag cbuf buflen k indx) s := by
  induction k generalizing indx s with
  | zero => exact .of_logs logs_halt
  | succ k ih =>
    rw [FADCdata.readSlots]
    split
    · exact moves_getNext.then fun _ _ _ => moves_getNext.then fun _ _ _ =>
        moves_getNext.then fun _ _ _ => moves_readHits.then fun _ _ _ =>
        ih.quiet fun _ _ _ => logs_pure
    · exact .of_logs logs_pure

theorem climbs_readFADC {fill : Nat} {crate : UInt8} {buf : Int} :
    Climbs Obs.span (4 * buf) (FADCdata.read mem fill crate tag buf) s := by
  refine moves_readWord.then fun head u _ => ?_
  have hnat : 0 ≤ ((head &&& 0xFFFF).toNat : Int) := Int.natCast_nonneg _
  generalize ((head &&& 0xFFFF).toNat : Int) = formatLen at hnat
  refine Climbs.of_le (show 4 * buf + 4 ≤ 4 * (buf + 1 + formatLen) by omega) ?_
  refine moves_readWord.then fun count v _ => ?_
  refine (Moves.of_logs (logs_int32 _)).then fun _ _ _ =>
    (Moves.of_logs (logs_int32 _)).then fun buflen w _ => ?_
  have hslots : Climbs Obs.span (4 * (buf + 3 + formatLen) + 0)
      (FADCdata.readSlots mem crate tag (4 * (buf + 3 + formatLen)) buflen fill 0) w :=
    climbs_readSlots fill
  exact hslots.of_le (by omega)

theorem climbs_addOrFillLeafFADCdata {fAutoAdd : Bool} {fill : Nat} {buf : Int} {num : UInt8}
    {b : BankInfo} :
    Climbs Obs.span (4 * buf) (addOrFillLeafFADCdata fAutoAdd mem fill buf tag num) b := by
  refine (Moves.of_logs (logs_findOrAddLeaf _ _ _ _ _ _)).then fun loc c _ => ?_
  cases loc with
  | none => exact .of_logs logs_pure
  | some loc =>
    refine (Moves.of_logs logs_gets).then fun _ _ _ => (Moves.of_logs logs_demand).then fun _ _ _ =>
      (Moves.of_logs (logs_tell.mpr rfl)).then fun _ _ _ => ?_
    split_ifs
    · refine Climbs.quiet ?_ fun _ _ _ => (logs_callBack _).bind fun _ _ _ => logs_pure
      exact (Moves.of_logs logs_gets).then fun _ _ _ => climbs_readFADC.quiet fun _ _ _ =>
        logs_pushLeaf _ _ _
    · exact .of_logs logs_halt

end Moves

def countAt (mem : Mem) (a : Int) : Option Int := (mem.bytes a 4).map fun bs => toInt32 (leNat bs)

namespace FADCFormat

def ofTag? (tag : UInt16) : Option FADCFormat :=
  if tag = 57601 then some samples
  else if tag = 57650 then some values
  else if tag = 57622 then some chanVals
  else none

def EntryEnds (mem : Mem) : FADCFormat → Int → Int → Prop
  | samples, a, e => ∃ n, countAt mem (a + 1) = some n ∧ 0 ≤ n ∧ e = a + 5 + n * 2
  | values, a, e => e = a + 4
  | chanVals, a, e => e = a + 3

inductive EntriesEnd (mem : Mem) (f : FADCFormat) : Nat → Int → Int → Prop
  | nil {a} : EntriesEnd mem f 0 a a
  | cons {n a b e} : f.EntryEnds mem a b → EntriesEnd mem f n b e → EntriesEnd mem f (n + 1) a e

end FADCFormat

def HitsEnd (mem : Mem) (tag : UInt16) (a e : Int) : Prop :=
  match FADCFormat.ofTag? tag with
  | some f => ∃ n, countAt mem a = some n ∧ f.EntriesEnd mem n.toNat (a + 4) e
  | none => e = a

inductive SlotsFit (mem : Mem) (tag : UInt16) (last hi : Int) : Int → Prop
  | done {a} : last ≤ a → SlotsFit mem tag last hi a
  | slot {a e} : a < last → HitsEnd mem tag (a + 13) e → e ≤ hi → SlotsFit mem tag last hi e →
    SlotsFit mem tag last hi a

/-- The format and the head of the inner bank lie inside the `len` words at `buf`, and so do
the slots of the inner bank with all that they announce. -/
def PayloadFits (mem : Mem) (tag : UInt16) (buf len : Int) : Prop :=
  ∃ head count, mem buf = some head ∧ mem (buf + 1 + (head &&& 0xFFFF).toNat) = some count ∧
    buf + 2 + (head &&& 0xFFFF).toNat ≤ buf + len ∧
    SlotsFit mem tag
      (4 * (buf + 3 + (head &&& 0xFFFF).toNat) + (toInt32 (count.toNat - 1) * 4 - 4))
      (4 * (buf + len)) (4 * (buf + 3 + (head &&& 0xFFFF).toNat))

def Obs.EndsBy (hi : Int) (o : Obs) : Prop := ∀ p, o.span = some p → p.2 ≤ hi

section Ends

variable {hi a e : Int} {f : FADCFormat}

theorem endsBy_read {who : Reader} {b : Int} {n : Nat} :
    Obs.EndsBy hi (.read who b n) ↔ b + n ≤ hi := by
  simp [Obs.EndsBy, Obs.span]

theorem logs_readLE_iff {who : Reader} {b : Int} {n : Nat} :
    Logs (Obs.EndsBy hi) (readLE mem who b n) s ↔ b + n ≤ hi := by
  rw [readLE, logs_bind, logs_tell, endsBy_read, and_iff_left]
  exact fun _ _ _ => logs_demand.bind fun _ _ _ => logs_pure

theorem logs_getNext_iff {n : Nat} :
    Logs (Obs.EndsBy hi) (FADCdata.getNext mem cbuf indx n) s ↔ cbuf + indx + n ≤ hi := by
  rw [FADCdata.getNext, logs_bind, logs_readLE_iff, and_iff_left]
  exact fun _ _ _ => (logs_int32 _).bind fun _ _ _ => logs_pure

theorem countAt_of_getNext {p : Nat × Int} (h : Returns (FADCdata.getNext mem cbuf indx 4) s p t) :
    countAt mem (cbuf + indx) = some (toInt32 p.1) ∧ p.2 = indx + 4 := by
  obtain ⟨hread, -, hp⟩ := FADCdata.returns_getNext.mp h
  simp only [readLE, returns_bind, returns_demand, returns_pure] at hread
  obtain ⟨_, _, -, bs, _, ⟨hbs, -⟩, hx, -⟩ := hread
  rw [countAt, hbs, hx]
  exact ⟨rfl, hp⟩

theorem next_of_getNext {n : Nat} {p : Nat × Int}
    (h : Returns (FADCdata.getNext mem cbuf indx n) s p t) : p.2 = indx + n :=
  (FADCdata.returns_getNext.mp h).2.2

namespace FADCFormat

theorem ends_of_returns {r : FADCdata × Int} (h : Returns (f.read mem cbuf d indx) s r t) :
    f.EntryEnds mem (cbuf + indx) (cbuf + r.2) := by
  cases f with
  | samples =>
    obtain ⟨⟨chan, i⟩, _, hchan, h⟩ := returns_bind.mp h
    obtain ⟨⟨count, j⟩, _, hcount, hrest⟩ := returns_bind.mp h
    obtain rfl : i = indx + (1 : Nat) := next_of_getNext hchan
    obtain ⟨hn, hj⟩ := countAt_of_getNext hcount
    dsimp only at hrest hn hj
    split_ifs at hrest with hneg
    · exact absurd hrest returns_halt
    · simp only [returns_bind, returns_int32, returns_pure] at hrest
      obtain ⟨_, _, -, _, _, -, size, _, ⟨-, hsize, -⟩, k, _, ⟨-, hk, -⟩, hr, -⟩ := hrest
      refine ⟨toInt32 count, ?_, by omega, ?_⟩
      · rw [← hn, add_assoc]
        rfl
      · rw [hr, hk, hsize, hj]
        push_cast
        ring
  | values =>
    obtain ⟨⟨value, i⟩, _, hvalue, h⟩ := returns_bind.mp h
    obtain ⟨rfl, -⟩ := returns_pure.mp h
    obtain rfl : i = indx + (4 : Nat) := next_of_getNext hvalue
    exact (add_assoc _ _ _).symm
  | chanVals =>
    obtain ⟨⟨chan, i⟩, _, hchan, h⟩ := returns_bind.mp h
    obtain ⟨⟨val, j⟩, _, hval, h⟩ := returns_bind.mp h
    obtain ⟨rfl, -⟩ := returns_pure.mp h
    obtain rfl : i = indx + (1 : Nat) := next_of_getNext hchan
    obtain rfl : j = indx + (1 : Nat) + (2 : Nat) := next_of_getNext hval
    change cbuf + (indx + (1 : Nat) + (2 : Nat)) = cbuf + indx + 3
    omega

theorem le_of_logs {r : FADCdata × Int} (h : Returns (f.read mem cbuf d indx) s r t)
    (hlogs : Logs (Obs.EndsBy hi) (f.read mem cbuf d indx) s) : cbuf + r.2 ≤ hi := by
  cases f with
  | samples =>
    obtain ⟨⟨chan, i⟩, _, hchan, h⟩ := returns_bind.mp h
    obtain ⟨⟨count, j⟩, _, hcount, h⟩ := returns_bind.mp h
    have hlogs := ((logs_bind.mp hlogs).2 _ _ hchan)
    have hlogs := ((logs_bind.mp hlogs).2 _ _ hcount)
    dsimp only at h hlogs
    split_ifs at h hlogs with hneg
    · exact absurd h returns_halt
    · have hread := endsBy_read.mp (logs_tell.mp (logs_bind.mp hlogs).1)
      simp only [returns_bind, returns_int32, returns_pure] at h
      obtain ⟨_, _, -, _, _, -, size, _, ⟨-, hsize, -⟩, k, _, ⟨-, hk, -⟩, hr, -⟩ := h
      rw [hr, hk, hsize]
      push_cast at hread ⊢
      omega
  | values =>
    obtain ⟨⟨value, i⟩, _, hvalue, h⟩ := returns_bind.mp h
    obtain ⟨rfl, -⟩ := returns_pure.mp h
    have hread := logs_getNext_iff.mp (logs_bind.mp hlogs).1
    obtain rfl : i = indx + (4 : Nat) := next_of_getNext hvalue
    dsimp only
    omega
  | chanVals =>
    obtain ⟨⟨chan, i⟩, _, hchan, h⟩ := returns_bind.mp h
    obtain ⟨⟨val, j⟩, _, hval, h⟩ := returns_bind.mp h
    obtain ⟨rfl, -⟩ := returns_pure.mp h
    have hlogs := ((logs_bind.mp hlogs).2 _ _ hchan)
    have hread := logs_getNext_iff.mp (logs_bind.mp hlogs).1
    obtain rfl : j = i + (2 : Nat) := next_of_getNext hval
    dsimp only
    omega

theorem logs_of_ends (he : f.EntryEnds mem (cbuf + indx) e) (hle : e ≤ hi) :
    Logs (Obs.EndsBy hi) (f.read mem cbuf d indx) s := by
  cases f with
  | samples =>
    obtain ⟨n, hn, hpos, rfl⟩ := he
    refine (logs_getNext_iff.mpr (by push_cast; omega)).bind fun ⟨chan, i⟩ _ hchan => ?_
    obtain rfl : i = indx + (1 : Nat) := next_of_getNext hchan
    refine (logs_getNext_iff.mpr (by push_cast; omega)).bind fun ⟨count, j⟩ _ hcount => ?_
    obtain ⟨hn', hj⟩ := countAt_of_getNext hcount
    dsimp only at hn' hj ⊢
    have hcount : n = toInt32 count := by
      rw [← add_assoc] at hn'
      exact Option.some.inj (hn.symm.trans hn')
    split_ifs
    · exact logs_halt
    · refine (logs_tell.mpr (endsBy_read.mpr ?_)).bind fun _ _ _ => logs_demand.bind fun _ _ _ =>
        (logs_int32 _).bind fun _ _ _ => (logs_int32 _).bind fun _ _ _ => logs_pure
      push_cast
      omega
  | values =>
    have he : e = cbuf + indx + 4 := he
    exact (logs_getNext_iff.mpr (by push_cast; omega)).bind fun _ _ _ => logs_pure
  | chanVals =>
    have he : e = cbuf + indx + 3 := he
    refine (logs_getNext_iff.mpr (by push_cast; omega)).bind fun ⟨chan, i⟩ _ hchan => ?_
    obtain rfl : i = indx + (1 : Nat) := next_of_getNext hchan
    exact (logs_getNext_iff.mpr (by push_cast; omega)).bind fun _ _ _ => logs_pure

theorem EntryEnds.le (h : f.EntryEnds mem a e) : a ≤ e := by
  cases f with
  | samples =>
    obtain ⟨n, -, hpos, rfl⟩ := h
    omega
  | values =>
    have h : e = a + 4 := h
    omega
  | chanVals =>
    have h : e = a + 3 := h
    omega

theorem EntryEnds.det {e' : Int} (h : f.EntryEnds mem a e) (h' : f.EntryEnds mem a e') : e' = e := by
  cases f with
  | samples =>
    obtain ⟨n, hn, -, rfl⟩ := h
    obtain ⟨n', hn', -, rfl⟩ := h'
    rw [Option.some.inj (hn.symm.trans hn')]
  | values | chanVals => exact h'.trans h.symm

theorem EntriesEnd.le {n : Nat} (h : f.EntriesEnd mem n a e) : a ≤ e := by
  induction h with
  | nil => exact le_rfl
  | cons hentry _ ih => exact hentry.le.trans ih

theorem entries_of_returns {n : Nat} {r : List FADCdata × Int}
    (h : Returns (FADCdata.repeatEntry (f.read mem cbuf d) n indx) s r t) :
    f.EntriesEnd mem n (cbuf + indx) (cbuf + r.2) := by
  induction n generalizing indx r s t with
  | zero =>
    obtain ⟨rfl, -⟩ := returns_pure.mp h
    exact .nil
  | succ n ih =>
    obtain ⟨⟨x, i⟩, _, hx, h⟩ := returns_bind.mp h
    obtain ⟨⟨xs, j⟩, _, hxs, h⟩ := returns_bind.mp h
    obtain ⟨rfl, -⟩ := returns_pure.mp h
    have hrest : f.EntriesEnd mem n (cbuf + i) (cbuf + j) := ih hxs
    exact .cons (ends_of_returns hx) hrest

theorem entries_le_of_logs {n : Nat} {r : List FADCdata × Int}
    (h : Returns (FADCdata.repeatEntry (f.read mem cbuf d) n indx) s r t)
    (hlogs : Logs (Obs.EndsBy hi) (FADCdata.repeatEntry (f.read mem cbuf d) n indx) s)
    (hle : cbuf + indx ≤ hi) : cbuf + r.2 ≤ hi := by
  induction n generalizing indx r s t with
  | zero =>
    obtain ⟨rfl, -⟩ := returns_pure.mp h
    exact hle
  | succ n ih =>
    obtain ⟨⟨x, i⟩, _, hx, h⟩ := returns_bind.mp h
    obtain ⟨⟨xs, j⟩, _, hxs, h⟩ := returns_bind.mp h
    obtain ⟨rfl, -⟩ := returns_pure.mp h
    obtain ⟨hentry, hrest⟩ := logs_bind.mp hlogs
    have hend : cbuf + j ≤ hi := ih hxs (logs_bind.mp (hrest _ _ hx)).1 (le_of_logs hx hentry)
    exact hend

theorem logs_of_entries {n : Nat} (he : f.EntriesEnd mem n (cbuf + indx) e) (hle : e ≤ hi) :
    Logs (Obs.EndsBy hi) (FADCdata.repeatEntry (f.read mem cbuf d) n indx) s := by
  induction n generalizing indx s with
  | zero => exact logs_pure
  | succ n ih =>
    cases he with
    | cons hentry hrest =>
      refine (logs_of_ends hentry (hrest.le.trans hle)).bind fun ⟨x, i⟩ _ hx => ?_
      rw [← hentry.det (ends_of_returns hx)] at hrest
      exact (ih hrest).bind fun _ _ _ => logs_pure

theorem readHits_ofTag : (FADCdata.readHits mem tag cbuf d indx : Exec Halt Obs σ _) =
    match ofTag? tag with
    | some f => FADCdata.readEntries mem cbuf (f.read mem cbuf d) indx
    | none => pure ([], indx) := by
  unfold FADCdata.readHits ofTag?
  split_ifs <;> rfl

end FADCFormat

open FADCFormat

theorem hits_of_returns {r : List FADCdata × Int}
    (h : Returns (FADCdata.readHits mem tag cbuf d indx) s r t) :
    HitsEnd mem tag (cbuf + indx) (cbuf + r.2) := by
  rw [readHits_ofTag] at h
  unfold HitsEnd
  cases hf : ofTag? tag with
  | none =>
    rw [hf] at h
    obtain ⟨rfl, -⟩ := returns_pure.mp h
    rfl
  | some f =>
    rw [hf] at h
    obtain ⟨⟨count, i⟩, _, hcount, h⟩ := returns_bind.mp h
    obtain ⟨hn, hnext⟩ := countAt_of_getNext hcount
    have hentries := entries_of_returns h
    dsimp only at hn hnext hentries
    rw [hnext, ← add_assoc] at hentries
    exact ⟨_, hn, hentries⟩

theorem hits_le_of_logs {r : List FADCdata × Int}
    (h : Returns (FADCdata.readHits mem tag cbuf d indx) s r t)
    (hlogs : Logs (Obs.EndsBy hi) (FADCdata.readHits mem tag cbuf d indx) s)
    (hle : cbuf + indx ≤ hi) : cbuf + r.2 ≤ hi := by
  rw [readHits_ofTag] at h hlogs
  cases hf : ofTag? tag with
  | none =>
    rw [hf] at h
    obtain ⟨rfl, -⟩ := returns_pure.mp h
    exact hle
  | some f =>
    rw [hf] at h hlogs
    obtain ⟨⟨count, i⟩, _, hcount, h⟩ := returns_bind.mp h
    obtain ⟨hread, hrest⟩ := logs_bind.mp hlogs
    have hstart := logs_getNext_iff.mp hread
    have hnext := next_of_getNext hcount
    have htail := hrest _ _ hcount
    dsimp only at hnext htail
    exact entries_le_of_logs h htail (by omega)

theorem logs_of_hits (he : HitsEnd mem tag (cbuf + indx) e) (hle : e ≤ hi) :
    Logs (Obs.EndsBy hi) (FADCdata.readHits mem tag cbuf d indx) s := by
  rw [readHits_ofTag]
  unfold HitsEnd at he
  cases hf : ofTag? tag with
  | none => exact logs_pure
  | some f =>
    rw [hf] at he
    obtain ⟨n, hn, hentries⟩ := he
    refine (logs_getNext_iff.mpr ?_).bind fun ⟨count, i⟩ _ hcount => ?_
    · have hge := hentries.le
      push_cast
      omega
    · obtain ⟨hn', hnext⟩ := countAt_of_getNext hcount
      dsimp only at hn' hnext ⊢
      have hcount := Option.some.inj (hn.symm.trans hn')
      rw [hcount, add_assoc, ← hnext] at hentries
      exact logs_of_entries hentries hle

theorem FADCFormat.EntriesEnd.det {n : Nat} {e' : Int} (h : f.EntriesEnd mem n a e)
    (h' : f.EntriesEnd mem n a e') : e' = e := by
  induction h with
  | nil =>
    cases h'
    rfl
  | cons hentry _ ih =>
    cases h' with
    | cons hentry' hrest' =>
      rw [hentry.det hentry'] at hrest'
      exact ih hrest'

theorem HitsEnd.det {e' : Int} (h : HitsEnd mem tag a e) (h' : HitsEnd mem tag a e') : e' = e := by
  unfold HitsEnd at h h'
  cases hf : ofTag? tag with
  | none =>
    rw [hf] at h h'
    exact h'.trans h.symm
  | some f =>
    rw [hf] at h h'
    obtain ⟨n, hn, hentries⟩ := h
    obtain ⟨n', hn', hentries'⟩ := h'
    rw [Option.some.inj (hn'.symm.trans hn)] at hentries'
    exact hentries.det hentries'

theorem HitsEnd.le (h : HitsEnd mem tag a e) : a ≤ e := by
  unfold HitsEnd at h
  cases hf : ofTag? tag with
  | none =>
    rw [hf] at h
    exact h.ge
  | some f =>
    rw [hf] at h
    obtain ⟨n, -, hentries⟩ := h
    have hle := hentries.le
    omega

theorem slots_of_returns {crate : UInt8} {buflen : Int} {k : Nat} {xs : List FADCdata}
    (h : Returns (FADCdata.readSlots mem crate tag cbuf buflen k indx) s xs t)
    (hlogs : Logs (Obs.EndsBy hi) (FADCdata.readSlots mem crate tag cbuf buflen k indx) s) :
    SlotsFit mem tag (cbuf + buflen) hi (cbuf + indx) := by
  induction k generalizing indx xs s t with
  | zero => exact absurd h returns_halt
  | succ k ih =>
    rw [FADCdata.readSlots] at h hlogs
    split_ifs at h hlogs with hlt
    · obtain ⟨⟨slot, i₁⟩, _, hslot, h⟩ := returns_bind.mp h
      obtain ⟨⟨trig, i₂⟩, _, htrig, h⟩ := returns_bind.mp h
      obtain ⟨⟨time, i₃⟩, _, htime, h⟩ := returns_bind.mp h
      obtain ⟨⟨ds, i₄⟩, _, hds, h⟩ := returns_bind.mp h
      obtain ⟨rest, _, hrest, -⟩ := returns_bind.mp h
      have hlogs := (logs_bind.mp hlogs).2 _ _ hslot
      have hlogs := (logs_bind.mp hlogs).2 _ _ htrig
      obtain ⟨hread, hlogs⟩ := logs_bind.mp hlogs
      obtain ⟨hhits, hlogs⟩ := logs_bind.mp (hlogs _ _ htime)
      have htail := (logs_bind.mp (hlogs _ _ hds)).1
      have h₁ := next_of_getNext hslot
      have h₂ := next_of_getNext htrig
      have h₃ := next_of_getNext htime
      have hheader := logs_getNext_iff.mp hread
      dsimp only at h₁ h₂ h₃ hheader
      have hstart : cbuf + i₃ = cbuf + indx + 13 := by omega
      have hend := hits_of_returns hds
      have hle : cbuf + i₄ ≤ hi := hits_le_of_logs hds hhits (by omega)
      dsimp only at hend
      rw [hstart] at hend
      exact .slot (by omega) hend hle (ih hrest htail)
    · exact .done (by omega)

theorem logs_of_slots {crate : UInt8} {buflen : Int} (k : Nat)
    (h : SlotsFit mem tag (cbuf + buflen) hi (cbuf + indx)) :
    Logs (Obs.EndsBy hi) (FADCdata.readSlots mem crate tag cbuf buflen k indx) s := by
  induction k generalizing indx s with
  | zero => exact logs_halt
  | succ k ih =>
    rw [FADCdata.readSlots]
    split_ifs with hlt
    · cases h with
      | done hge => omega
      | @slot _ e _ hhits hle hrest =>
        have hheader := hhits.le
        refine (logs_getNext_iff.mpr (by push_cast; omega)).bind fun x _ hslot => ?_
        obtain ⟨slot, i₁⟩ := x
        have h₁ := next_of_getNext hslot
        dsimp only at h₁
        refine (logs_getNext_iff.mpr (by push_cast; omega)).bind fun x _ htrig => ?_
        obtain ⟨trig, i₂⟩ := x
        have h₂ := next_of_getNext htrig
        dsimp only at h₂
        refine (logs_getNext_iff.mpr (by push_cast; omega)).bind fun x _ htime => ?_
        obtain ⟨time, i₃⟩ := x
        have h₃ := next_of_getNext htime
        dsimp only at h₃
        have hstart : cbuf + i₃ = cbuf + indx + 13 := by omega
        rw [← hstart] at hhits
        refine (logs_of_hits hhits hle).bind fun x _ hds => ?_
        obtain ⟨ds, i₄⟩ := x
        rw [← hhits.det (hits_of_returns hds)] at hrest
        exact (ih hrest).bind fun _ _ _ => logs_pure
    · exact logs_pure

end Ends

section Payload

variable {fAutoAdd : Bool} {fill : Nat} {crate num : UInt8} {buf len : Int} {b : BankInfo}

theorem logs_readWord_iff {hi : Int} {who : Reader} {a : Int} :
    Logs (Obs.EndsBy hi) (readWord mem who a) s ↔ 4 * a + 4 ≤ hi := by
  rw [readWord, logs_bind, logs_tell, endsBy_read, and_iff_left]
  · rfl
  · exact fun _ _ _ => logs_demand

theorem payload_of_returns {xs : List FADCdata}
    (h : Returns (FADCdata.read mem fill crate tag buf) s xs t)
    (hlogs : Logs (Obs.EndsBy (4 * (buf + len))) (FADCdata.read mem fill crate tag buf) s) :
    PayloadFits mem tag buf len := by
  obtain ⟨head, _, hhead, h⟩ := returns_bind.mp h
  obtain ⟨count, _, hcount, h⟩ := returns_bind.mp h
  obtain ⟨n, _, hn, h⟩ := returns_bind.mp h
  obtain ⟨buflen, _, hbuflen, h⟩ := returns_bind.mp h
  obtain ⟨-, hlogs⟩ := logs_bind.mp hlogs
  obtain ⟨hread, hlogs⟩ := logs_bind.mp (hlogs _ _ hhead)
  have hlogs := (logs_bind.mp (hlogs _ _ hcount)).2 _ _ hn
  have hslots := slots_of_returns h ((logs_bind.mp hlogs).2 _ _ hbuflen)
  obtain ⟨-, rfl, -⟩ := returns_int32.mp hn
  obtain ⟨-, rfl, -⟩ := returns_int32.mp hbuflen
  have hle := logs_readWord_iff.mp hread
  rw [add_zero] at hslots
  exact ⟨head, count, (returns_readWord.mp hhead).1, (returns_readWord.mp hcount).1, by omega, hslots⟩

theorem logs_of_payload (h : PayloadFits mem tag buf len) :
    Logs (Obs.EndsBy (4 * (buf + len))) (FADCdata.read mem fill crate tag buf) s := by
  obtain ⟨head, count, hhead, hcount, hle, hslots⟩ := h
  refine (logs_readWord_iff.mpr (by omega)).bind fun head' u hhead' => ?_
  obtain rfl := Option.some.inj (hhead.symm.trans (returns_readWord.mp hhead').1)
  refine (logs_readWord_iff.mpr (by omega)).bind fun count' v hcount' => ?_
  obtain rfl := Option.some.inj (hcount.symm.trans (returns_readWord.mp hcount').1)
  refine (logs_int32 _).bind fun n _ hn => (logs_int32 _).bind fun buflen _ hbuflen => ?_
  obtain ⟨-, rfl, -⟩ := returns_int32.mp hn
  obtain ⟨-, rfl, -⟩ := returns_int32.mp hbuflen
  refine logs_of_slots fill ?_
  rw [add_zero]
  exact hslots

theorem endsBy_iff {hi : Int} {m : Exec Halt Obs σ Int} (hm : Climbs Obs.span (4 * buf) m s)
    (hle : 4 * buf ≤ hi) :
    Forward (4 * buf) hi ((m s).log.filterMap Obs.span) ↔ Logs (Obs.EndsBy hi) m s := by
  constructor
  · intro h o ho p hp
    exact (h.bounds p (List.mem_filterMap.mpr ⟨o, ho, hp⟩)).2
  · obtain ⟨hi', h⟩ := hm
    intro hlogs
    refine h.until_ hle fun p hp => ?_
    obtain ⟨o, ho, hspan⟩ := List.mem_filterMap.mp hp
    exact hlogs o ho p hspan

/-- The payload is read forward.  It is read inside its words if its lengths are consistent, and
a decode that comes to its end is inside them only then. -/
theorem addOrFillLeafFADCdata_inside (fAutoAdd : Bool) (mem : Mem) (fill : Nat) (buf len : Int)
    (tag : UInt16) (num : UInt8) (b : BankInfo) :
    let run := addOrFillLeafFADCdata fAutoAdd mem fill buf tag num b
    let reads := run.log.filterMap Obs.span
    (∃ hi, Forward (4 * buf) hi reads) ∧
    (PayloadFits mem tag buf len → Forward (4 * buf) (4 * (buf + len)) reads) ∧
    (run.out = .ok 1 → Forward (4 * buf) (4 * (buf + len)) reads → PayloadFits mem tag buf len) := by
  have hclimbs : Climbs Obs.span (4 * buf) (addOrFillLeafFADCdata fAutoAdd mem fill buf tag num) b :=
    climbs_addOrFillLeafFADCdata
  refine ⟨hclimbs, fun h => ?_, fun hout hforward => ?_⟩
  · obtain ⟨head, count, -, -, hle, -⟩ := id h
    rw [endsBy_iff hclimbs (by omega)]
    refine (logs_findOrAddLeaf _ _ _ _ _ _).bind fun loc c _ => ?_
    cases loc with
    | none => exact logs_pure
    | some loc =>
      refine logs_fillLeaf (fun _ _ => nofun) fun c => ?_
      exact logs_gets.bind fun _ _ _ => (logs_of_payload h).bind fun _ _ _ => logs_pushLeaf _ _ _
  · have hlogs := (endsBy_iff hclimbs hforward.le).mp hforward
    obtain ⟨loc, c, hfind, h⟩ := returns_bind.mp ⟨hout, rfl⟩
    have hlogs := (logs_bind.mp hlogs).2 _ _ hfind
    cases loc with
    | none => exact absurd (returns_pure.mp h).1 (by decide)
    | some loc =>
      obtain ⟨_, _, hgets, h⟩ := returns_bind.mp h
      obtain ⟨_, _, hdemand, h⟩ := returns_bind.mp h
      obtain ⟨_, _, htell, h⟩ := returns_bind.mp h
      have hlogs := (logs_bind.mp hlogs).2 _ _ hgets
      have hlogs := (logs_bind.mp hlogs).2 _ _ hdemand
      have hlogs := (logs_bind.mp hlogs).2 _ _ htell
      split_ifs at h hlogs
      · obtain ⟨_, _, hpush, -⟩ := returns_bind.mp h
        obtain ⟨_, _, hcrate, hpush⟩ := returns_bind.mp hpush
        obtain ⟨xs, _, hread, -⟩ := returns_bind.mp hpush
        have hlogs := (logs_bind.mp (logs_bind.mp hlogs).1).2 _ _ hcrate
        exact payload_of_returns hread (logs_bind.mp hlogs).1
      · exact absurd h returns_halt

end Payload

theorem payloadFits_oneSlot :
    PayloadFits (Mem.ofList (fadcPayload 0x00100001 [0] 0x100 oneSlotData)) 57601 0 11 := by
  refine ⟨0x00100001, 8, rfl, rfl, by decide, .slot (e := 42) (by decide) ?_ (by decide) (.done (by decide))⟩
  refine ⟨1, by decide, .cons (b := 42) ⟨2, by decide, by decide, by decide⟩ .nil⟩

theorem addOrFillLeafFADCdata_inside_oneSlot :
    Forward 0 44 ((addOrFillLeafFADCdata false
      (Mem.ofList (fadcPayload 0x00100001 [0] 0x100 oneSlotData)) 2 0 57601 0 fadcNode).log.filterMap
        Obs.span) :=
  (addOrFillLeafFADCdata_inside false _ 2 0 11 57601 0 fadcNode).2.1 payloadFits_oneSlot

def overrunData : List UInt32 := [0x00000703, 0x00000900, 0, 0x00000100, 0x00100200, 0x000B0000, 0x0C]

theorem addOrFillLeafFADCdata_outside :
    ¬∀ (payload : List UInt32) (fAutoAdd : Bool) (fill : Nat) (tag : UInt16) (num : UInt8)
      (b : BankInfo), Forward 0 (4 * payload.length)
        ((addOrFillLeafFADCdata fAutoAdd (Mem.ofList payload) fill 0 tag num b).log.filterMap
          Obs.span) := by
  intro h
  have hforward := h (fadcPayload 0x00100001 [0] 0x100 overrunData) false 2 57601 0 fadcNode
  have hread := hforward.bounds (38, 70) (by decide)
  exact absurd hread.2 (by decide)

end EvioTool
