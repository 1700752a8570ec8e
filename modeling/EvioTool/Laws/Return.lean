import EvioTool.Laws.Chunk

/-! The events of a get are put back, once each, before the next get. -/

namespace EvioTool

open Lib Exec

variable {s : World} {fill fuel : Nat} {calls : List EtCall} {fresh : Nat} {out : Prop}

/-- What ET knows of a consumer that loses nothing; `out` tells whether the events of
the latest get are out. -/
structure Ledger (calls : List EtCall) (fresh : Nat) (out : Prop) : Prop where
  nodup : (lastGot calls).Nodup
  old : ∀ e ∈ lastGot calls, e.id < fresh
  putOld : ∀ e, timesPut e calls ≠ 0 → e.id < fresh
  atMostOnce : ∀ e, timesPut e calls ≤ 1
  notBack : out → ∀ e ∈ lastGot calls, timesPut e calls = 0
  back : ¬out → ∀ e ∈ lastGot calls, timesPut e calls = 1
  history : Always ReturnedBefore calls

namespace Ledger

theorem getdata (h : Ledger calls fresh out) (x : Option EtEvent) :
    Ledger (.getdata x :: calls) fresh out :=
  ⟨h.nodup, h.old, h.putOld, h.atMostOnce, h.notBack, h.back, trivial, h.history⟩

theorem putFailed (h : Ledger calls fresh out) {put : Int} (hp : put ≠ ET_OK)
    (es : List (Option EtEvent)) : Ledger (.put put es :: calls) fresh out := by
  have hput (e : EtEvent) : timesPut e (.put put es :: calls) = timesPut e calls := by
    simp [timesPut, hp]
  refine ⟨h.nodup, h.old, ?_, ?_, ?_, ?_, trivial, h.history⟩ <;> simp only [hput]
  · exact h.putOld
  · exact h.atMostOnce
  · exact h.notBack
  · exact h.back

theorem put (h : Ledger calls fresh out) (hout : out) :
    Ledger (.put ET_OK ((lastGot calls).map some) :: calls) fresh False := by
  have hin (e : EtEvent) (he : e ∈ lastGot calls) :
      timesPut e (.put ET_OK ((lastGot calls).map some) :: calls) = 1 := by
    have hone : ((lastGot calls).map some).count (some e) = 1 :=
      List.count_eq_one_of_mem (h.nodup.map (Option.some_injective _)) (List.mem_map_of_mem he)
    simp [timesPut, hone, h.notBack hout e he]
  have hnot (e : EtEvent) (he : e ∉ lastGot calls) :
      timesPut e (.put ET_OK ((lastGot calls).map some) :: calls) = timesPut e calls := by
    have hzero : ((lastGot calls).map some).count (some e) = 0 := by
      simpa [List.count_eq_zero] using he
    simp [timesPut, hzero]
  refine ⟨h.nodup, h.old, fun e hne => ?_, fun e => ?_, False.elim, fun _ => hin, trivial,
    h.history⟩
  · by_cases he : e ∈ lastGot calls
    · exact h.old e he
    · exact h.putOld e (hnot e he ▸ hne)
  · by_cases he : e ∈ lastGot calls
    · exact (hin e he).le
    · exact hnot e he ▸ h.atMostOnce e

theorem got (h : Ledger calls fresh out) (hback : ¬out) (num : Nat) (a : GetAnswer) {out' : Prop}
    (hout : ¬out' → a.data num = []) :
    Ledger (.get a.status (a.events num fresh) :: calls) (fresh + (a.data num).length) out' where
  nodup := GetAnswer.nodup_events
  old e he := (GetAnswer.id_of_mem he).2
  putOld e he := (h.putOld e he).trans_le (Nat.le_add_right _ _)
  atMostOnce := h.atMostOnce
  notBack _ e he := by
    by_contra hne
    have := (GetAnswer.id_of_mem he).1
    have := h.putOld e hne
    omega
  back hn e he := by
    simp [lastGot, GetAnswer.events, hout hn] at he
  history := ⟨h.back hback, h.history⟩

theorem congr {out' : Prop} (h : Ledger calls fresh out) (hout : out ↔ out') :
    Ledger calls fresh out' :=
  propext hout ▸ h

end Ledger

/-- No event is lost or returned twice so far. -/
def NoneLost (s : World) : Prop :=
  Always ReturnedBefore s.calls ∧ ∀ e, timesPut e s.calls ≤ 1

theorem Ledger.noneLost (h : Ledger s.calls fresh out) : NoneLost s := ⟨h.history, h.atMostOnce⟩

structure KeptLocal (s : World) : Prop extends Chunk s where
  ledger : Ledger s.calls s.fresh (0 ≤ s.tool.fCurrentChunk)

namespace KeptLocal

theorem endEvent (h : KeptLocal s) (hc : s.tool.fEventValid = true ∨ s.tool.fCurrentChunk ≠ 0)
    (put : Int) : Ends (endEvent put) (fun _ => KeptLocal) NoneLost s := by
  have hmove (hne : s.tool.fCurrentChunk ≠ 0) : KeptLocal (s.withTool s.tool.ended) :=
    ⟨h.ended, h.ledger.congr (show 0 ≤ s.tool.fCurrentChunk ↔ 0 ≤ s.tool.fCurrentChunk - 1 by omega)⟩
  apply h.ends_endEvent fun _ => h.ledger.noneLost
  · intro hv
    exact hmove (hc.resolve_left (by simp [hv]))
  · exact fun _ hpos => hmove hpos.ne'
  · intro _ h0
    refine ⟨h.ended.put _ _, (h.ledger.put h0.ge).congr ?_⟩
    simp [h0]
  · exact fun _ _ hp => ⟨h.put _ _, h.ledger.putFailed hp _⟩

theorem getEvent (h : KeptLocal s) (a : GetAnswer) :
    Ends (getEvent a) (fun _ => KeptLocal) NoneLost s := by
  apply h.ends_getEvent
  · exact fun _ => h
  · intro hc n
    have hgot (c : Int) (hcn : c = (a.data n).length - 1) :
        Ledger (.get a.status (a.events n s.fresh) :: s.calls) (s.fresh + (a.data n).length)
          (0 ≤ c) := by
      apply h.ledger.got (by omega)
      intro hn
      rw [← List.length_eq_zero_iff]
      omega
    exact ⟨(hgot _ rfl).noneLost, fun b => ⟨h.got hc _ _ _, hgot _ rfl⟩⟩

theorem checkEvent (h : KeptLocal s)
    (hok : ∀ e, s.tool.fCurrentChunk = 0 → s.tool.entry = some (some e) → ¬e.data.wrongMagic) :
    Ends checkEvent (fun stat t => KeptLocal t ∧ (stat = ET_OK → t.tool.fEventValid = true))
      NoneLost s := by
  apply h.ends_checkEvent
  · exact fun _ => ⟨h, nofun⟩
  · intro hc e _ he p
    have hchunk := h.checked he hc p
    rcases h.checked_cases he p with ⟨-, hr, ht⟩ | ⟨hw, hr, -, ht⟩ | ⟨-, hr, ht⟩
    · refine ⟨⟨hchunk, (h.ledger.getdata _).congr (by rw [ht])⟩, ?_⟩
      rw [hr]
      nofun
    · have hne : s.tool.fCurrentChunk ≠ 0 := fun h0 => hok e h0 he hw
      refine ⟨⟨hchunk, (h.ledger.getdata _).congr ?_⟩, ?_⟩
      · rw [ht]
        show 0 ≤ s.tool.fCurrentChunk ↔ 0 ≤ s.tool.fCurrentChunk - 1
        omega
      · rw [hr]
        nofun
    · refine ⟨⟨hchunk, (h.ledger.getdata _).congr (by rw [ht])⟩, fun _ => ?_⟩
      rw [ht]

end KeptLocal

structure One (s : World) : Prop where
  cursor : s.tool.fCurrentChunk = 0
  numRead : s.tool.fNumRead = 1
  buffer : ∃ e b, lastGot s.calls = [e] ∧ s.tool.fPEventBuffer = some (some e :: b)

theorem One.entries (h : One s) : s.tool.entries = some ((lastGot s.calls).map some) := by
  obtain ⟨e, b, hl, hb⟩ := h.buffer
  simp [Tool.entries, hb, h.numRead, hl]

structure RemoteLedger (s : World) (out : Prop) : Prop where
  et : s.tool.fReadFromEt = true
  locality : s.tool.locality ≠ .ET_LOCAL
  one : out → One s
  ledger : Ledger s.calls s.fresh out

def KeptRemote (s : World) : Prop := RemoteLedger s (s.tool.fEventValid = true)

namespace KeptRemote

theorem endEvent (h : KeptRemote s) (put : Int) :
    Ends (endEvent put) (fun _ => KeptRemote) NoneLost s := by
  apply ends_endEvent fun _ => h.ledger.noneLost
  · intro hc
    have hv : s.tool.fEventValid = false := by
      rcases hc with hv | het | hne
      · exact hv
      · exact absurd h.et (by simp [het])
      · by_contra hv
        exact hne (h.one (by simpa using hv)).cursor
    exact ⟨h.et, h.locality, nofun, h.ledger.congr (by simp [hv])⟩
  · intro hv _ _ es hes
    rw [(h.one hv).entries] at hes
    cases hes
    split <;> rename_i hp
    · rw [hp]
      exact ⟨h.et, h.locality, nofun, (h.ledger.put hv).congr (by simp)⟩
    · exact ⟨h.et, h.locality, fun hv => ⟨(h.one hv).1, (h.one hv).2, (h.one hv).3⟩,
        h.ledger.putFailed hp _⟩

theorem getEvent (h : KeptRemote s) (hv : s.tool.fEventValid = false) (a : GetAnswer) :
    Ends (getEvent a) (fun stat u => if stat = ET_OK then RemoteLedger u True else KeptRemote u)
      NoneLost s := by
  have hback : ¬s.tool.fEventValid = true := by simp [hv]
  apply ends_getEvent
  · exact fun hl => absurd hl h.locality
  · exact fun hl => absurd hl h.locality
  · intro _
    refine ⟨Ledger.noneLost (h.ledger.got hback 1 a (by simp) : Ledger _ _ True), fun b _ hlen => ?_⟩
    split <;> rename_i hok
    · refine ⟨h.et, h.locality, fun _ => ⟨rfl, rfl, ?_⟩, h.ledger.got hback 1 a (by simp)⟩
      have hone : (a.events 1 s.fresh).length = 1 := by
        rw [GetAnswer.length_events, GetAnswer.length_data_one hok]
      obtain ⟨e, he⟩ := List.length_eq_one_iff.mp hone
      exact ⟨e, b.drop 1, he, by simp [he]⟩
    · refine ⟨h.et, h.locality, fun hv' => absurd hv' hback, ?_⟩
      exact h.ledger.got hback 1 a fun _ => GetAnswer.data_of_ok hok

end KeptRemote

theorem RemoteLedger.checkEvent (h : RemoteLedger s True)
    (hok : ∀ e, s.tool.fCurrentChunk = 0 → s.tool.entry = some (some e) → e.data.good) :
    Ends checkEvent (fun stat t => KeptRemote t ∧ (stat = ET_OK → t.tool.fEventValid = true))
      NoneLost s := by
  have h0 := (h.one trivial).cursor
  obtain ⟨e, b, hl, hb⟩ := (h.one trivial).buffer
  have hentry : s.tool.entry = some (some e) := by simp [Tool.entry, hb, h0]
  apply ends_checkEvent
  · intro hc
    omega
  · intro _
    simp [hentry]
  · intro _ e' he' p
    have hg := hok e' h0 he'
    simp only [World.checked, verdict_good hg]
    refine ⟨⟨h.et, h.locality, fun _ => ⟨h0, (h.one trivial).numRead, e, b, hl, hb⟩, ?_⟩, fun _ => rfl⟩
    exact (h.ledger.getdata _).congr (by simp)

/-- At index 0 of a chunk no event has a wrong magic number, and on a remote connection
none is short; a remote consumer ends each event; a local one does not call `EndEvent`
at index 0 without a valid event. -/
def Keeps : Op → World → Prop
  | .next a, s | .nextNoParse a, s =>
    (∀ u ∈ s.tool.upcoming a, u.1 = 0 → ¬u.2.wrongMagic) ∧
    (s.tool.locality ≠ .ET_LOCAL → (∀ u ∈ s.tool.upcoming a, u.1 = 0 → ¬u.2.short) ∧
      (s.tool.fEventValid = true → a.putFirst = ET_OK))
  | .endEvent _, s =>
    s.tool.locality = .ET_LOCAL → s.tool.fEventValid = true ∨ s.tool.fCurrentChunk ≠ 0
  | _, _ => True

theorem keeps_next {o : Op} {a : Answers} (h : Keeps o s) (ho : o = .next a ∨ o = .nextNoParse a) :
    Keeps (.nextNoParse a) s := by
  rcases ho with rfl | rfl <;> exact h

theorem KeptLocal.exec {o : Op} (h : KeptLocal s) (ho : o.Consumes) (hk : Keeps o s) :
    Ends (o.exec fill fuel) (fun _ => KeptLocal) NoneLost s := by
  apply ends_consume ho
  · exact fun v hI => hI.ledger.noneLost
  · exact fun v b hI => ⟨hI.toChunk.withBank b, hI.ledger⟩
  · intro a hoa
    have hk := keeps_next hk hoa
    apply ends_nextNoParse (M := KeptLocal) h.et fun _ => h
    · exact fun hv => h.endEvent (.inl hv) _
    · intro t ht _
      refine (ht.getEvent a.get).mono (fun stat u hu => ?_) fun _ h => h
      split <;> rename_i hok
      · exact hu
      · exact ⟨hu, fun h => absurd h hok⟩
    · intro u hu hup
      apply hu.checkEvent
      intro e h0 he
      exact hk.1 _ (hup e h0.ge he) h0
  · exact fun v put hI hv => hI.endEvent (.inl hv) put
  · rintro put rfl
    exact h.endEvent (hk h.locality) put

theorem KeptRemote.exec {o : Op} (h : KeptRemote s) (ho : o.Consumes) (hk : Keeps o s) :
    Ends (o.exec fill fuel) (fun _ => KeptRemote) NoneLost s := by
  apply ends_consume ho
  · exact fun v hI => hI.ledger.noneLost
  · exact fun v b hI => ⟨hI.et, hI.locality, fun hv => ⟨(hI.one hv).1, (hI.one hv).2, (hI.one hv).3⟩,
      hI.ledger⟩
  · intro a hoa
    have hk := keeps_next hk hoa
    obtain ⟨hshort, hput⟩ := hk.2 h.locality
    apply ends_nextNoParse (M := fun u => RemoteLedger u True) h.et fun _ => h
    · exact fun _ => h.endEvent _
    · intro t ht htool
      have hidle : t.tool.fEventValid = false := by
        rw [htool]
        by_cases hv : s.tool.fEventValid = true
        · simp [Tool.afterEnd, hv, hput hv]
        · simp [Tool.afterEnd, hv]
      refine (ht.getEvent hidle a.get).mono (fun stat u hu => ?_) fun _ h => h
      split <;> rename_i hok
      · simpa [hok] using hu
      · exact ⟨by simpa [hok] using hu, fun h => absurd h hok⟩
    · intro u hu hup
      apply hu.checkEvent
      intro e h0 he
      have hup := hup e h0.ge he
      exact (e.data.cases.resolve_left (hshort _ hup h0)).resolve_left (hk.1 _ hup h0)
  · exact fun v put hI _ => hI.endEvent put
  · rintro put rfl
    exact h.endEvent put

theorem Connected.ledger (hs : Connected s) (hout : ¬out) : Ledger s.calls s.fresh out := by
  obtain ⟨params, hcalls⟩ := hs.calls
  have hlast : lastGot s.calls = [] := by simp [hcalls, lastGot]
  have hput (e : EtEvent) : timesPut e s.calls = 0 := by simp [hcalls, timesPut]
  refine ⟨?_, ?_, ?_, ?_, fun h => absurd h hout, fun _ => ?_, ?_⟩
  · simp [hlast]
  · simp [hlast]
  · simp [hput]
  · simp [hput]
  · simp [hlast]
  · simp [hcalls, ReturnedBefore]

/-- No event is lost and none is returned twice. -/
theorem returned_before_get {ops : List Op} (hs : Connected s)
    (hops : Meets (Op.exec fill fuel) (fun o t => o.Consumes ∧ Keeps o t) ops s) :
    NoneLost (run (Op.exec fill fuel) ops s).state := by
  have hstart := hs.start
  by_cases hl : s.tool.locality = .ET_LOCAL
  · have hkept : KeptLocal s := ⟨hs.chunk hl, hs.ledger (by omega)⟩
    exact run_state (fun _ h => h.ledger.noneLost) (fun o t ht ho => ht.exec ho.1 ho.2) hkept hops
  · have hkept : KeptRemote s := by
      refine ⟨hs.et, hl, ?_, hs.ledger ?_⟩ <;> simp [hs.idle]
    exact run_state (fun _ h => h.ledger.noneLost) (fun o t ht ho => ht.exec ho.1 ho.2) hkept hops

theorem returned_before_get_two : NoneLost
    (run (Op.exec 0 0) [.nextNoParse { get := .ok goodData [] }, .endEvent ET_OK, .nextNoParse {}]
      (newConnection .ET_LOCAL)).state :=
  returned_before_get (connected_newConnection _) (by
    refine ⟨⟨trivial, by decide, fun h => absurd rfl h⟩, ?_⟩
    rintro _ ⟨-, rfl⟩
    refine ⟨⟨trivial, fun _ => .inl rfl⟩, ?_⟩
    rintro _ ⟨-, rfl⟩
    exact ⟨⟨trivial, by decide, fun h => absurd rfl h⟩, fun _ _ => trivial⟩)

def lossOps : List Op := [.nextNoParse { get := .ok wrongMagicData [] }, .nextNoParse {}]

theorem wrongMagic_loses : Connected (newConnection .ET_LOCAL) ∧ (∀ o ∈ lossOps, o.Consumes) ∧
    ¬NoneLost (run (Op.exec 0 0) lossOps (newConnection .ET_LOCAL)).state :=
  ⟨connected_newConnection _, by decide, fun h => absurd h.1.1 (by decide)⟩

end EvioTool
