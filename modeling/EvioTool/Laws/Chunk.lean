import Mathlib.Data.List.Nodup
import EvioTool.Laws.Reader

namespace EvioTool

open Lib Exec

variable {s t : World} {I J : World → Prop} {fresh : Nat}

def Tool.afterEnd (t : Tool) (put : Int) : Tool :=
  if t.fEventValid ∧ (t.fCurrentChunk ≠ 0 ∨ put = ET_OK) then t.ended else t

def Tool.upcoming (t : Tool) (a : Answers) : Option (Int × EtData) :=
  let t := t.afterEnd a.putFirst
  if t.locality = .ET_LOCAL ∧ 0 ≤ t.fCurrentChunk then
    t.entry.join.map fun e => (t.fCurrentChunk, e.data)
  else
    let ds := a.get.data (if t.locality = .ET_LOCAL then t.fEtReadChunkSize else 1)
    ds.getLast?.map fun d => (ds.length - 1, d)

theorem ends_endEvent_tool {put : Int} (hv : s.tool.fEventValid = true)
    (het : s.tool.fReadFromEt = true) :
    Ends (endEvent put) (fun _ t => t.tool = s.tool.afterEnd put) (fun _ => True) s := by
  apply ends_endEvent fun _ => trivial
  · intro h
    have hc : s.tool.fCurrentChunk ≠ 0 := by simpa [hv, het] using h
    simp [Tool.afterEnd, hv, hc, World.withTool]
  · intro _ _ hc es _
    split <;> rename_i hp <;> simp [Tool.afterEnd, hv, hc, hp, World.withTool, World.called]

theorem GetAnswer.data_of_ok {a : GetAnswer} {num : Nat} (h : a.status ≠ ET_OK) :
    a.data num = [] := by
  cases a with
  | ok d ds => exact absurd rfl h
  | error st hst => rfl

theorem getElem?_stored {es : List EtEvent} {b : List (Option EtEvent)} {i : Nat} {e : EtEvent}
    (hi : i < es.length) (h : (es.map some ++ b.drop es.length)[i]? = some (some e)) :
    es[i]? = some e := by
  rw [List.getElem?_append_left (by simpa using hi)] at h
  simpa using h

theorem getLast?_stored {a : GetAnswer} {num fresh : Nat} {tool : Tool} {b : List (Option EtEvent)}
    {e : EtEvent} {n c : Int} (hc : c.toNat + 1 = (a.data num).length)
    (h : (tool.stored (a.events num fresh) b n c).entry = some (some e)) :
    (a.data num).getLast? = some e.data := by
  have hlt : c.toNat < (a.events num fresh).length := by
    rw [GetAnswer.length_events]
    omega
  have he := getElem?_stored hlt h
  rw [GetAnswer.getElem?_events, Option.map_eq_some_iff] at he
  obtain ⟨d, hd, rfl⟩ := he
  rw [List.getLast?_eq_getElem?, ← hc]
  exact hd

theorem GetAnswer.length_data_one {a : GetAnswer} (h : a.status = ET_OK) : (a.data 1).length = 1 := by
  cases a with
  | ok d ds => rfl
  | error st hst => exact absurd h hst

theorem ends_getEvent_upcoming {a : Answers} (ht : t.tool = s.tool.afterEnd a.putFirst) :
    Ends (getEvent a.get) (fun stat u => stat = ET_OK → ∀ e, 0 ≤ u.tool.fCurrentChunk →
      u.tool.entry = some (some e) → s.tool.upcoming a = some (u.tool.fCurrentChunk, e.data))
      (fun _ => True) t := by
  apply ends_getEvent
  · intro hl hc _ e _ he
    simp [Tool.upcoming, ← ht, hl, hc, he]
  · intro hl hc
    refine ⟨trivial, fun b _ _ _ e h0 he => ?_⟩
    have h0 : 0 ≤ ((a.get.data t.tool.fEtReadChunkSize).length : Int) - 1 := h0
    have hlast := getLast?_stored (by omega) he
    simp [Tool.upcoming, ← ht, hl, not_le.mpr hc, hlast, World.withTool, Tool.stored]
  · intro hl
    refine ⟨trivial, fun b _ _ hok e _ he => ?_⟩
    have hone := GetAnswer.length_data_one hok
    have hlast := getLast?_stored (by simp [hone]) he
    simp [Tool.upcoming, ← ht, hl, hlast, hone, World.withTool, Tool.stored]

theorem GetAnswer.id_of_mem {a : GetAnswer} {num : Nat} {e : EtEvent}
    (he : e ∈ a.events num fresh) : fresh ≤ e.id ∧ e.id < fresh + (a.data num).length := by
  obtain ⟨i, hi, rfl⟩ := List.mem_mapIdx.mp he
  exact ⟨Nat.le_add_right _ _, Nat.add_lt_add_left hi _⟩

theorem GetAnswer.nodup_events {a : GetAnswer} {num : Nat} : (a.events num fresh).Nodup := by
  rw [List.nodup_iff_getElem?_ne_getElem?]
  intro i j hij hj
  rw [length_events] at hj
  simp only [getElem?_events, List.getElem?_eq_getElem hj,
    List.getElem?_eq_getElem (hij.trans hj), Option.map_some]
  intro h
  injection h with h
  injection h with hid
  omega

variable {fill fuel : Nat}

theorem ends_nextNoParse {M : World → Prop} {Q : Int → World → Prop} {a : Answers}
    (het : s.tool.fReadFromEt = true) (hs : s.tool.fEventValid = false → I s)
    (hend : s.tool.fEventValid = true → Ends (endEvent a.putFirst) (fun _ => I) J s)
    (hget : ∀ t, I t → t.tool = s.tool.afterEnd a.putFirst →
      Ends (getEvent a.get) (fun stat u => if stat = ET_OK then M u else Q stat u) J t)
    (hcheck : ∀ u, M u → (∀ e, 0 ≤ u.tool.fCurrentChunk → u.tool.entry = some (some e) →
        s.tool.upcoming a = some (u.tool.fCurrentChunk, e.data)) → Ends checkEvent Q J u) :
    Ends (nextNoParse a) Q J s := by
  rw [ends_nextNoParse_et het]
  have hfirst : Ends (when s.tool.fEventValid (endEvent a.putFirst))
      (fun _ t => I t ∧ t.tool = s.tool.afterEnd a.putFirst) J s := by
    apply Ends.when
    · intro hv
      exact ((hend hv).and (ends_endEvent_tool hv het)).mono (fun _ _ h => h) fun _ h => h.1
    · intro hv
      exact ⟨hs hv, by simp [Tool.afterEnd, hv]⟩
  refine hfirst.mono (fun _ t ⟨hI, ht⟩ => ?_) fun _ h => h
  refine ((hget t hI ht).and (ends_getEvent_upcoming ht)).mono (fun stat u ⟨hu, hup⟩ => ?_)
    fun _ h => h.1
  by_cases hok : stat = ET_OK
  · rw [if_pos hok] at hu
    rw [if_neg (by simpa using hok)]
    exact hcheck u hu (hup hok)
  · rw [if_neg hok] at hu
    rw [if_pos hok]
    exact hu

theorem ends_consume {o : Op} (ho : o.Consumes)
    (hIJ : ∀ v, I v → J v) (hbank : ∀ v b, I v → I (v.withBank b))
    (hnext : ∀ a, o = .next a ∨ o = .nextNoParse a →
      Ends (nextNoParse a) (fun stat v => I v ∧ (stat = ET_OK → v.tool.fEventValid = true)) J s)
    (hlast : ∀ v put, I v → v.tool.fEventValid = true → Ends (endEvent put) (fun _ => I) J v)
    (huser : ∀ put, o = .endEvent put → Ends (endEvent put) (fun _ => I) J s) :
    Ends (o.exec fill fuel) (fun _ => I) J s := by
  cases o with
  | next a =>
    simp only [Op.exec, ends_bind, ends_pure]
    apply ends_next
    refine (hnext a (.inl rfl)).mono (fun stat v hstat => ?_) fun _ h => h
    obtain ⟨hI, hv⟩ := hstat
    split
    · exact hI
    · rename_i hok
      have hok : stat = ET_OK := not_not.mp hok
      intro b
      exact ⟨hIJ _ (hbank v b hI), fun _ => hlast _ _ (hbank v b hI) (hv hok)⟩
  | nextNoParse a =>
    simp only [Op.exec, ends_bind, ends_pure]
    exact (hnext a (.inr rfl)).mono (fun _ _ h => h.1) fun _ h => h
  | endEvent put =>
    simp only [Op.exec, ends_bind, ends_pure]
    exact huser put rfl
  | openEt params a | reOpenEt a | close => exact ho.elim

/-- The event buffer holds what the latest get has delivered. -/
def Filled (s : World) : Prop :=
  ∃ b, s.tool.fPEventBuffer = some ((lastGot s.calls).map some ++ b) ∧
    s.tool.fNumRead = (lastGot s.calls).length ∧ s.tool.fCurrentChunk < (lastGot s.calls).length

structure Chunk (s : World) : Prop where
  et : s.tool.fReadFromEt = true
  locality : s.tool.locality = .ET_LOCAL
  filled : 0 ≤ s.tool.fCurrentChunk → Filled s
  nonneg : s.tool.fEventValid = true → 0 ≤ s.tool.fCurrentChunk
  good : s.tool.fEventValid = true → ∀ e, s.tool.entry = some (some e) → e.data.good
  bound : (lastGot s.calls).length < 2 ^ 31

theorem Filled.entry (h : Filled s) (hc : 0 ≤ s.tool.fCurrentChunk) :
    ∃ e, (lastGot s.calls)[s.tool.fCurrentChunk.toNat]? = some e ∧ s.tool.entry = some (some e) := by
  obtain ⟨b, hb, -, hlt⟩ := h
  have hi : s.tool.fCurrentChunk.toNat < (lastGot s.calls).length := by omega
  refine ⟨_, List.getElem?_eq_getElem hi, ?_⟩
  simp [Tool.entry, hb, List.getElem?_append_left, hi]

theorem Filled.entries (h : Filled s) : s.tool.entries = some ((lastGot s.calls).map some) := by
  obtain ⟨b, hb, hn, -⟩ := h
  simp [Tool.entries, hb, hn]

namespace Chunk

theorem withBank (h : Chunk s) (b : Bank) : Chunk (s.withBank b) := ⟨h.1, h.2, h.3, h.4, h.5, h.6⟩

theorem ended (h : Chunk s) : Chunk (s.withTool s.tool.ended) where
  et := h.et
  locality := h.locality
  filled hc := by
    have hc : 0 ≤ s.tool.fCurrentChunk - 1 := hc
    obtain ⟨b, hb, hn, hlt⟩ := h.filled (by omega)
    exact ⟨b, hb, hn, (sub_one_lt _).trans hlt⟩
  nonneg hv := nomatch hv
  good hv := nomatch hv
  bound := h.bound

theorem put (h : Chunk s) (put : Int) (es : List (Option EtEvent)) : Chunk (s.called (.put put es)) :=
  ⟨h.1, h.2, h.3, h.4, h.5, h.6⟩

theorem idle (h : Chunk s) (hc : s.tool.fCurrentChunk < 0) : s.tool.fEventValid = false := by
  by_contra hv
  have := h.nonneg (by simpa using hv)
  omega

theorem got (h : Chunk s) (hc : s.tool.fCurrentChunk < 0) (num : Nat) (a : GetAnswer)
    (b : List (Option EtEvent)) :
    Chunk ((s.got num a).withTool (s.tool.stored (a.events num s.fresh) b
      (a.data num).length ((a.data num).length - 1))) where
  et := h.et
  locality := h.locality
  filled _ := ⟨_, rfl, by simp [World.got, World.withTool, Tool.stored, lastGot],
    by simp [World.got, World.withTool, Tool.stored, lastGot]⟩
  nonneg hv := nomatch hv.symm.trans (h.idle hc)
  good hv := nomatch hv.symm.trans (h.idle hc)
  bound := by simpa [lastGot] using GetAnswer.length_data_lt

section Checked

variable {e : EtEvent} {p : Option EvioBuf}

theorem checked_cases (h : Chunk s) (he : s.tool.entry = some (some e)) (p : Option EvioBuf) :
    (e.data.short ∧ (verdict s.tool e.data).1 = EvioTool_Status_ERROR ∧
      (s.checked e p).tool = { s.tool with fEvioBuf := p }) ∨
    (e.data.wrongMagic ∧ (verdict s.tool e.data).1 = ET_ERROR_READ ∧
      s.tool.fEventValid = false ∧ (s.checked e p).tool =
        { s.tool with fEvioBuf := p, fCurrentChunk := s.tool.fCurrentChunk - 1 }) ∨
    (e.data.good ∧ (verdict s.tool e.data).1 = ET_OK ∧
      (s.checked e p).tool = { s.tool with fEvioBuf := p, fEventValid := true }) := by
  rcases e.data.cases with hs | hw | hg
  · exact .inl ⟨hs, by simp [World.checked, verdict_short hs]⟩
  · have hidle : s.tool.fEventValid = false := by
      by_contra hv
      exact hw.2 (h.good (by simpa using hv) e he).2
    exact .inr (.inl ⟨hw, by simp [World.checked, verdict_wrongMagic hw, hidle]⟩)
  · exact .inr (.inr ⟨hg, by simp [World.checked, verdict_good hg]⟩)

theorem checked (h : Chunk s) (he : s.tool.entry = some (some e)) (hc : 0 ≤ s.tool.fCurrentChunk)
    (p : Option EvioBuf) : Chunk (s.checked e p) := by
  have hlast : lastGot (s.checked e p).calls = lastGot s.calls := rfl
  obtain ⟨b, hb, hn, hlt⟩ := h.filled hc
  rcases h.checked_cases he p with ⟨-, -, ht⟩ | ⟨-, -, hidle, ht⟩ | ⟨hg, -, ht⟩
  · constructor <;> simp only [Filled, hlast, ht]
    · exact h.et
    · exact h.locality
    · exact h.filled
    · exact h.nonneg
    · exact h.good
    · exact h.bound
  · constructor <;> simp only [Filled, hlast, ht]
    · exact h.et
    · exact h.locality
    · exact fun _ => ⟨b, hb, hn, (sub_one_lt _).trans hlt⟩
    · simp [hidle]
    · simp [hidle]
    · exact h.bound
  · constructor <;> simp only [Filled, hlast, ht]
    · exact h.et
    · exact h.locality
    · exact h.filled
    · exact fun _ => hc
    · intro _ e' he'
      obtain rfl : e' = e := by simpa using he'.symm.trans he
      exact hg
    · exact h.bound

end Checked

variable {E : World → Prop} {Q : Int → World → Prop}

theorem ends_endEvent (h : Chunk s) {put : Int} (hE : s.tool.fEventValid = false → E s)
    (hidle : s.tool.fEventValid = false → Q ET_OK (s.withTool s.tool.ended))
    (hmid : s.tool.fEventValid = true → 0 < s.tool.fCurrentChunk →
      Q ET_OK (s.withTool s.tool.ended))
    (hput : s.tool.fEventValid = true → s.tool.fCurrentChunk = 0 →
      Q ET_OK ((s.called (.put ET_OK ((lastGot s.calls).map some))).withTool s.tool.ended))
    (hfail : s.tool.fEventValid = true → s.tool.fCurrentChunk = 0 → put ≠ ET_OK →
      Q put (s.called (.put put ((lastGot s.calls).map some)))) :
    Ends (endEvent put) Q E s := by
  apply EvioTool.ends_endEvent
  · intro hstop
    by_contra hn
    have hv : s.tool.fEventValid = true := by
      by_contra hv
      exact hn (hE (by simpa using hv))
    have hc := h.nonneg hv
    obtain ⟨b, -, -, hlt⟩ := h.filled hc
    have := h.bound
    rcases hstop with hnone | hfit
    · simp [(h.filled hc).entries] at hnone
    · exact hfit ⟨by omega, by omega⟩
  · intro hc
    cases hv : s.tool.fEventValid with
    | false => exact hidle hv
    | true =>
      have hne : s.tool.fCurrentChunk ≠ 0 := by simpa [hv, h.et] using hc
      have := h.nonneg hv
      exact hmid hv (by omega)
  · intro hv _ hc es hes
    rw [(h.filled hc.ge).entries] at hes
    cases hes
    split <;> rename_i hp
    · exact hp ▸ hput hv hc
    · exact hfail hv hc hp

theorem ends_getEvent (h : Chunk s) {a : GetAnswer} (hstay : 0 ≤ s.tool.fCurrentChunk → Q ET_OK s)
    (hget : s.tool.fCurrentChunk < 0 → let n := s.tool.fEtReadChunkSize
      E (s.got n a) ∧ ∀ b, Q a.status ((s.got n a).withTool (s.tool.stored (a.events n s.fresh) b
        (a.data n).length ((a.data n).length - 1)))) :
    Ends (getEvent a) Q E s := by
  apply EvioTool.ends_getEvent
  · exact fun _ => hstay
  · exact fun _ hc => ⟨(hget hc).1, fun b _ _ => (hget hc).2 b⟩
  · exact fun hl => absurd h.locality hl

theorem ends_checkEvent (h : Chunk s) (hnone : s.tool.fCurrentChunk < 0 → Q ET_ERROR_EMPTY s)
    (hsome : 0 ≤ s.tool.fCurrentChunk → ∀ e,
      (lastGot s.calls)[s.tool.fCurrentChunk.toNat]? = some e → s.tool.entry = some (some e) →
      ∀ p, Q (verdict s.tool e.data).1 (s.checked e p)) :
    Ends checkEvent Q E s := by
  apply EvioTool.ends_checkEvent hnone
  · intro hc
    obtain ⟨e, -, he⟩ := (h.filled hc).entry hc
    simp [he]
  · intro hc e he
    obtain ⟨e', hi, he'⟩ := (h.filled hc).entry hc
    obtain rfl : e = e' := by simpa using he.symm.trans he'
    exact hsome hc e hi he

end Chunk

theorem Connected.chunk (hs : Connected s) (hl : s.tool.locality = .ET_LOCAL) : Chunk s := by
  obtain ⟨params, hcalls⟩ := hs.calls
  have hstart := hs.start
  refine ⟨hs.et, hl, ?_, ?_, ?_, ?_⟩
  · intro hc
    omega
  · simp [hs.idle]
  · simp [hs.idle]
  · simp [hcalls, lastGot]

def newConnection (locality : Locality) : World :=
  (openEt {} { locality } { tool := { bank := emptyTop } }).state

theorem connected_newConnection (locality : Locality) : Connected (newConnection locality) :=
  ⟨rfl, rfl, show (-1 : Int) < 0 by decide, _, rfl⟩

def goodData : EtData := ⟨[0, 0, 0, 0, 0, 0, 0, 0xc0da0100, 0, 0, 0], 44, by decide⟩

def wrongMagicData : EtData := ⟨[0, 0, 0, 0, 0, 0, 0, 0, 0, 0, 0], 44, by decide⟩

def shortData : EtData := ⟨[], 0, by decide⟩

end EvioTool
