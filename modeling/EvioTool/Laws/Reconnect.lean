import EvioTool.Laws.Chunk

/-! What the event buffer holds when connections to ET are closed and opened again. -/

namespace EvioTool

open Lib Exec

variable {s t : World} {fill fuel : Nat}

/-- The events in use were delivered on the current connection and are not back. -/
def Clean (s : World) : Prop :=
  s.tool.fReadFromEt = true → 0 ≤ s.tool.fCurrentChunk →
    ∃ es, s.tool.entries = some es ∧ s.tool.fCurrentChunk < es.length ∧
      ∀ x ∈ es, ∃ e ∈ held s.calls, x = some e

structure Sound (s : World) : Prop where
  clean : Clean s
  history : Always OnlyHeld s.calls

theorem Tool.entry_of_entries {t : Tool} {es : List (Option EtEvent)} (h : t.entries = some es)
    (hc : 0 ≤ t.fCurrentChunk) (hlt : t.fCurrentChunk < es.length) : ∃ x ∈ es, t.entry = some x := by
  obtain ⟨b, hb, h⟩ := Option.bind_eq_some_iff.mp h
  split at h
  · obtain rfl := Option.some.inj h
    have hi : t.fCurrentChunk.toNat < (b.take t.fNumRead.toNat).length := by omega
    refine ⟨_, List.getElem_mem hi, ?_⟩
    simp only [List.length_take] at hi
    simp [Tool.entry, hb]
  · cases h

def FirstHeld (s : World) : Prop :=
  ∃ e b, s.tool.fPEventBuffer = some (some e :: b) ∧ e ∈ held s.calls

/-- An operation that leaves the event buffer clean.  A connection is opened when no
event is current, and a remote get may fail only while the event before it is out. -/
def Op.StartsClean : Op → World → Prop
  | .openEt _ a, s | .reOpenEt a, s =>
    a.et_open ∧ a.et_station_create ∧ a.et_station_attach ∧ a.calloc → s.tool.fCurrentChunk < 0
  | .next a, s | .nextNoParse a, s =>
    s.tool.fReadFromEt = true → s.tool.locality ≠ .ET_LOCAL → a.get.status ≠ ET_OK →
      FirstHeld s ∧
        ¬(s.tool.fEventValid = true ∧ s.tool.fCurrentChunk = 0 ∧ a.putFirst = ET_OK)
  | .endEvent _, _ | .close, _ => True

def World.opened (s : World) (locality : Locality) : World :=
  (s.called (.opened s.tool.params)).withTool
    { s.tool with fReadFromEt := true, locality,
                  fPEventBuffer := some (.replicate s.tool.fEtReadChunkSize none) }

theorem ends_reOpenEt {a : OpenAnswer} {Q : Int → World → Prop} {E : World → Prop}
    (hfail : ∀ t, (t.calls = s.calls ∨ ∃ params, t.calls = .opened params :: s.calls) →
      t.tool.fReadFromEt = false → Q ET_ERROR t)
    (hok : a.et_open ∧ a.et_station_create ∧ a.et_station_attach ∧ a.calloc →
      Q ET_OK (s.opened a.locality)) : Ends (reOpenEt a) Q E s := by
  unfold reOpenEt
  rcases a with ⟨locality, et_open, et_station_create, et_station_attach, calloc⟩
  cases et_open with
  | false => exact hfail _ (.inl rfl) rfl
  | true =>
  cases et_station_create with
  | false => exact hfail _ (.inr ⟨_, rfl⟩) rfl
  | true =>
  cases et_station_attach with
  | false => exact hfail _ (.inr ⟨_, rfl⟩) rfl
  | true =>
  cases calloc with
  | false => exact hfail _ (.inr ⟨_, rfl⟩) rfl
  | true => exact hok ⟨rfl, rfl, rfl, rfl⟩

namespace Sound

theorem idle (h : Always OnlyHeld s.calls) (het : s.tool.fReadFromEt = false) : Sound s :=
  ⟨fun hon => absurd (het.symm.trans hon) (by decide), h⟩

theorem before (h : Always OnlyHeld s.calls) (hc : s.tool.fCurrentChunk < 0) : Sound s :=
  ⟨fun _ hpos => absurd hpos (not_le.mpr hc), h⟩

theorem withBank (h : Sound s) (b : Bank) : Sound (s.withBank b) := ⟨h.clean, h.history⟩

theorem endEvent (h : Sound s) (put : Int) : Ends (endEvent put) (fun _ => Sound) Sound s := by
  apply ends_endEvent fun _ => h
  · intro _
    refine ⟨fun het hc => ?_, h.history⟩
    have hc : 0 ≤ s.tool.fCurrentChunk - 1 := hc
    obtain ⟨es, hes, hlt, hheld⟩ := h.clean het (by omega)
    exact ⟨es, hes, (sub_one_lt _).trans hlt, hheld⟩
  · intro _ het hc es hes
    obtain ⟨es', hes', hlt, hheld⟩ := h.clean het hc.ge
    obtain rfl : es' = es := by simpa using hes'.symm.trans hes
    split <;> rename_i hp
    · refine ⟨fun _ hneg => ?_, hheld, h.history⟩
      simp [hc] at hneg
    · refine ⟨fun _ _ => ⟨es', hes', hlt, ?_⟩, hheld, h.history⟩
      simpa [held, hp] using hheld

theorem got (h : Sound s) {num : Nat} {a : GetAnswer} (b : List (Option EtEvent)) {c : Int}
    (hc : c < (a.data num).length) :
    Sound ((s.got num a).withTool (s.tool.stored (a.events num s.fresh) b (a.data num).length c)) := by
  refine ⟨fun _ _ => ⟨(a.events num s.fresh).map some, ?_, by simpa using hc, ?_⟩, trivial, h.history⟩
  · simp [Tool.entries]
  · intro x hx
    obtain ⟨e, he, rfl⟩ := List.mem_map.mp hx
    exact ⟨e, List.mem_append_left _ he, rfl⟩

theorem get (h : Sound s) (num : Nat) (a : GetAnswer) : Sound (s.got num a) := by
  refine ⟨fun het hc => ?_, trivial, h.history⟩
  obtain ⟨es, hes, hlt, hheld⟩ := h.clean het hc
  refine ⟨es, hes, hlt, fun x hx => ?_⟩
  obtain ⟨e, he, rfl⟩ := hheld x hx
  exact ⟨e, List.mem_append_right _ he, rfl⟩

theorem getEvent (h : Sound s) {a : GetAnswer}
    (hfail : s.tool.locality ≠ .ET_LOCAL → a.status ≠ ET_OK → FirstHeld s) :
    Ends (getEvent a) (fun _ t => Sound t ∧ t.tool.fReadFromEt = s.tool.fReadFromEt) Sound s := by
  apply ends_getEvent
  · exact fun _ _ => ⟨h, rfl⟩
  · exact fun _ _ => ⟨h.get _ _, fun b _ _ => ⟨h.got b (sub_one_lt _), rfl⟩⟩
  · intro hl
    refine ⟨h.get _ _, fun b hb _ => ⟨?_, rfl⟩⟩
    by_cases hok : a.status = ET_OK
    · have hone := GetAnswer.length_data_one hok
      have hgot : Sound ((s.got 1 a).withTool (s.tool.stored _ b (a.data 1).length 0)) :=
        h.got b (by simp [hone])
      rwa [hone] at hgot
    · obtain ⟨e, b', hb', he⟩ := hfail hl hok
      obtain rfl : b = some e :: b' := by simpa using hb.symm.trans hb'
      have hnone : a.events 1 s.fresh = [] := by simp [GetAnswer.events, GetAnswer.data_of_ok hok]
      refine ⟨fun _ _ => ⟨[some e], ?_, show (0 : Int) < 1 by decide, ?_⟩, trivial, h.history⟩
      · simp [Tool.entries, hnone]
      · intro x hx
        refine ⟨e, List.mem_append_right _ he, List.mem_singleton.mp hx⟩

theorem checkEvent (h : Sound s) (het : s.tool.fReadFromEt = true) :
    Ends checkEvent (fun _ => Sound) Sound s := by
  apply ends_checkEvent fun _ => h
  · intro hc
    obtain ⟨es, hes, hlt, hheld⟩ := h.clean het hc
    obtain ⟨x, hx, hentry⟩ := Tool.entry_of_entries hes hc hlt
    obtain ⟨e, he, rfl⟩ := hheld x hx
    simp [hentry]
  · intro hc e he p
    obtain ⟨es, hes, hlt, hheld⟩ := h.clean het hc
    obtain ⟨x, hx, hentry⟩ := Tool.entry_of_entries hes hc hlt
    obtain rfl : x = some e := by simpa using hentry.symm.trans he
    have hcursor : (verdict s.tool e.data).2.1 ≤ s.tool.fCurrentChunk := by
      rcases e.data.cases with hs | hw | hg
      · rw [verdict_short hs]
      · rw [verdict_wrongMagic hw]
        exact (sub_one_lt _).le
      · rw [verdict_good hg]
    exact ⟨fun _ _ => ⟨es, hes, hcursor.trans_lt hlt, hheld⟩, hheld _ hx, h.history⟩

theorem nextNoParse (h : Sound s) {a : Answers} (ho : (Op.nextNoParse a).StartsClean s) :
    Ends (nextNoParse a) (fun _ => Sound) Sound s := by
  cases het : s.tool.fReadFromEt with
  | false =>
    simp only [EvioTool.nextNoParse, ends_bind, ends_gets, het]
    cases a.read with
    | ok words => exact .idle h.history het
    | eof | error => exact h
  | true =>
    apply ends_nextNoParse het (I := fun t => Sound t ∧ t.tool.fReadFromEt = true ∧
      (t.tool.locality ≠ .ET_LOCAL → a.get.status ≠ ET_OK → FirstHeld t))
      (M := fun u => Sound u ∧ u.tool.fReadFromEt = true)
    · exact fun _ => ⟨h, het, fun hl hget => (ho het hl hget).1⟩
    · intro hv
      refine ((h.endEvent a.putFirst).and (ends_endEvent (E := fun _ => True)
        (Q := fun _ t => t.tool.fReadFromEt = true ∧
          (t.tool.locality ≠ .ET_LOCAL → a.get.status ≠ ET_OK → FirstHeld t))
        (fun _ => trivial) ?_ ?_)).mono (fun _ _ h => h) fun _ h => h.1
      · exact fun _ => ⟨het, fun hl hget => (ho het hl hget).1⟩
      · intro _ _ hc es _
        split <;> rename_i hp
        · exact ⟨het, fun hl hget => absurd ⟨hv, hc, hp⟩ (ho het hl hget).2⟩
        · refine ⟨het, fun hl hget => ?_⟩
          obtain ⟨⟨e, b, hb, he⟩, -⟩ := ho het hl hget
          exact ⟨e, b, hb, by simpa [held, hp] using he⟩
    · rintro t ⟨ht, hon, hfirst⟩ _
      refine (ht.getEvent hfirst).mono (fun stat u hstat => ?_) fun _ h => h
      obtain ⟨hu, huon⟩ := hstat
      split
      · exact ⟨hu, huon.trans hon⟩
      · exact hu
    · exact fun u hu _ => hu.1.checkEvent hu.2

theorem next (h : Sound s) {a : Answers} (ho : (Op.next a).StartsClean s) :
    Ends (next fill fuel a) (fun _ => Sound) Sound s := by
  apply ends_next
  refine (h.nextNoParse ho).mono (fun stat t ht => ?_) fun _ h => h
  split
  · exact ht
  · exact fun b => ⟨ht.withBank b, fun _ => (ht.withBank b).endEvent _⟩

theorem reOpenEt (h : Always OnlyHeld s.calls) {a : OpenAnswer}
    (ho : (Op.reOpenEt a).StartsClean s) : Ends (reOpenEt a) (fun _ => Sound) Sound s := by
  apply ends_reOpenEt
  · intro t hcalls hoff
    refine .idle ?_ hoff
    rcases hcalls with hcalls | ⟨params, hcalls⟩ <;> rw [hcalls]
    · exact h
    · exact ⟨trivial, h⟩
  · exact fun hok => .before ⟨trivial, h⟩ (ho hok)

theorem close (h : Sound s) : Ends close (fun _ => Sound) Sound s := by
  simp only [EvioTool.close, ends_bind, ends_gets]
  cases het : s.tool.fReadFromEt with
  | false => exact .idle h.history het
  | true => exact .idle ⟨trivial, h.history⟩ rfl

theorem exec {o : Op} (h : Sound s) (ho : o.StartsClean s) :
    Ends (o.exec fill fuel) (fun _ => Sound) Sound s := by
  cases o <;> simp only [Op.exec, ends_bind, ends_pure]
  case next a => exact h.next ho
  case nextNoParse a => exact h.nextNoParse ho
  case endEvent put => exact h.endEvent put
  case openEt params a =>
    simp only [openEt, modifyTool, ends_bind, ends_modify]
    apply Sound.reOpenEt
    · exact h.history
    · exact ho
  case reOpenEt a => exact Sound.reOpenEt h.history ho
  case close => exact h.close

end Sound

structure New (s : World) : Prop where
  closed : s.tool.fReadFromEt = false
  calls : s.calls = []

theorem clean_opened {locality : Locality} :
    Clean (s.opened locality) ↔ s.tool.fCurrentChunk < 0 := by
  constructor
  · intro h
    by_contra hc
    obtain ⟨es, hes, hlt, hheld⟩ := h rfl (not_lt.mp hc)
    obtain ⟨x, hx, -⟩ := Tool.entry_of_entries hes (not_lt.mp hc) hlt
    obtain ⟨e, he, -⟩ := hheld x hx
    simp [World.opened, held] at he
  · exact fun hc _ hpos => absurd hpos (not_le.mpr hc)

theorem gets_first {a : Answers} (het : s.tool.fReadFromEt = true) (hc : s.tool.fCurrentChunk < 0) :
    Ends (nextNoParse a) (fun _ u => timesGot s.calls < timesGot u.calls) (fun _ => True) s := by
  apply ends_nextNoParse het (I := fun t => timesGot t.calls = timesGot s.calls ∧
    t.tool.fCurrentChunk < 0) (M := fun u => timesGot s.calls < timesGot u.calls)
  · exact fun _ => ⟨rfl, hc⟩
  · intro _
    apply ends_endEvent fun _ => trivial
    · exact fun _ => ⟨rfl, (sub_one_lt _).trans hc⟩
    · intro _ _ h0
      omega
  · intro t ⟨hcalls, ht⟩ _
    apply ends_getEvent
    · intro _ hpos
      omega
    · exact fun _ _ => ⟨trivial, fun b _ _ => by simp [timesGot, hcalls]⟩
    · exact fun _ => ⟨trivial, fun b _ _ => by simp [timesGot, hcalls]⟩
  · intro u hu _
    apply ends_checkEvent fun _ => hu
    · exact fun _ => ⟨fun _ => trivial, fun _ => trivial⟩
    · exact fun _ e _ p => hu

/-- When every operation of a run starts clean, so is the reader at all times, and only
events that are out are looked at or put.  A connection that is then opened starts clean,
with a get, exactly when no event is current. -/
theorem clean_run {ops : List Op} (hs : New s)
    (hops : Meets (Op.exec fill fuel) Op.StartsClean ops s) :
    let t := (run (Op.exec fill fuel) ops s).state
    Clean t ∧ Always OnlyHeld t.calls ∧ ∀ a u, Returns (reOpenEt a) t ET_OK u →
      (Clean u ↔ t.tool.fCurrentChunk < 0) ∧
        (Clean u → ∀ b r v, Returns (nextNoParse b) u r v →
          timesGot u.calls < timesGot v.calls) := by
  intro t
  have hsound : Sound t := by
    apply run_state (fun _ h => h) (fun o u hu ho => hu.exec ho) _ hops
    exact .idle (hs.calls ▸ trivial) hs.closed
  refine ⟨hsound.clean, hsound.history, fun a u hu => ?_⟩
  have hopened : u = t.opened a.locality := by
    refine (ends_reOpenEt (Q := fun r v => r = ET_OK → v = t.opened a.locality)
      (E := fun _ => True) ?_ ?_).of_returns hu rfl
    · exact fun _ _ _ => nofun
    · exact fun _ _ => rfl
  subst hopened
  refine ⟨clean_opened, fun hclean b r v hv => ?_⟩
  exact (gets_first (s := t.opened a.locality) rfl (clean_opened.mp hclean)).of_returns hv

def newReader : World := { tool := { bank := emptyTop } }

def reconnectOps : List Op :=
  [.openEt {} { locality := .ET_LOCAL }, .nextNoParse { get := .ok goodData [goodData] },
    .endEvent ET_OK, .close, .reOpenEt { locality := .ET_LOCAL }]

def finishedOps : List Op :=
  [.openEt {} { locality := .ET_LOCAL }, .nextNoParse { get := .ok goodData [] },
    .endEvent ET_OK, .close, .reOpenEt { locality := .ET_LOCAL }]

theorem clean_run_finished :
    let t := (run (Op.exec 0 0) finishedOps newReader).state
    Clean t ∧ Always OnlyHeld t.calls ∧ Clean (t.opened .ET_LOCAL) := by
  have hmeets : Meets (Op.exec 0 0) Op.StartsClean finishedOps newReader := by
    refine ⟨fun _ => by decide, ?_⟩
    rintro _ ⟨-, rfl⟩
    refine ⟨fun _ h => absurd rfl h, ?_⟩
    rintro _ ⟨-, rfl⟩
    refine ⟨trivial, ?_⟩
    rintro _ ⟨-, rfl⟩
    refine ⟨trivial, ?_⟩
    rintro _ ⟨-, rfl⟩
    exact ⟨fun _ => by decide, fun _ _ => trivial⟩
  obtain ⟨hclean, hheld, hopen⟩ := clean_run ⟨rfl, rfl⟩ hmeets
  exact ⟨hclean, hheld, (hopen { locality := .ET_LOCAL } _ ⟨rfl, rfl⟩).1.mpr (by decide)⟩

theorem reconnect_stale : New newReader ∧
    ¬Clean (run (Op.exec 0 0) reconnectOps newReader).state ∧
    ¬Always OnlyHeld (run (Op.exec 0 0) (reconnectOps ++ [.nextNoParse {}]) newReader).state.calls := by
  refine ⟨⟨rfl, rfl⟩, ?_, ?_⟩
  · intro h
    obtain ⟨es, hes, hlt, hheld⟩ := h rfl (by decide)
    obtain ⟨x, hx, -⟩ := Tool.entry_of_entries hes (by decide) hlt
    obtain ⟨e, he, -⟩ := hheld x hx
    cases he
  · rintro ⟨⟨e, -, he⟩, -⟩
    cases he

end EvioTool
