import EvioTool.Defs.History

namespace EvioTool

open Lib Exec

variable {s : World} {E : World → Prop}

namespace EtData

def short (d : EtData) : Prop := d.length / 4 ≤ 10

def wrongMagic (d : EtData) : Prop := ¬d.short ∧ d.words[7]? ≠ some 0xc0da0100

def good (d : EtData) : Prop := ¬d.short ∧ d.words[7]? = some 0xc0da0100

instance : DecidablePred short := fun d => inferInstanceAs (Decidable (d.length / 4 ≤ 10))

instance : DecidablePred wrongMagic := fun d =>
  inferInstanceAs (Decidable (¬d.short ∧ d.words[7]? ≠ some 0xc0da0100))

instance : DecidablePred good := fun d =>
  inferInstanceAs (Decidable (¬d.short ∧ d.words[7]? = some 0xc0da0100))

theorem magic_isSome {d : EtData} (h : ¬d.short) : ∃ w, d.words[7]? = some w := by
  have := d.fits
  unfold short at h
  exact ⟨d.words[7], List.getElem?_eq_getElem (by omega)⟩

theorem cases (d : EtData) : d.short ∨ d.wrongMagic ∨ d.good := by
  unfold wrongMagic good
  tauto

end EtData

namespace GetAnswer

variable {a : GetAnswer} {num fresh : Nat}

@[simp] theorem length_events : (a.events num fresh).length = (a.data num).length := by
  simp [events]

theorem getElem?_events (i : Nat) :
    (a.events num fresh)[i]? = ((a.data num)[i]?).map fun d => ⟨fresh + i, d⟩ := by
  simp [events]

theorem length_data_lt : (a.data num).length < 2 ^ 31 := by
  cases a with
  | ok d ds =>
    rw [data, List.length_take]
    omega
  | error st hst => simp [data]

end GetAnswer

@[simp] def World.called (s : World) (c : EtCall) : World := { s with calls := c :: s.calls }

@[simp] def World.withTool (s : World) (t : Tool) : World := { s with tool := t }

@[simp] def Tool.ended (t : Tool) : Tool :=
  { t with fEventValid := false, fCurrentChunk := t.fCurrentChunk - 1 }

theorem ends_int32 {x : Int} {Q : Int → World → Prop} :
    Ends (int32 x) Q E s ↔ if FitsInt x then Q x s else E s := by
  unfold int32
  split <;> simp

theorem ends_endEvent {put : Int} {Q : Int → World → Prop}
    (hE : s.tool.entries = none ∨ ¬FitsInt (s.tool.fCurrentChunk - 1) → E s)
    (hidle : s.tool.fEventValid = false ∨ s.tool.fReadFromEt = false ∨ s.tool.fCurrentChunk ≠ 0 →
      Q ET_OK (s.withTool s.tool.ended))
    (hput : s.tool.fEventValid = true → s.tool.fReadFromEt = true → s.tool.fCurrentChunk = 0 →
      ∀ es, s.tool.entries = some es →
        if put = ET_OK then Q ET_OK ((s.called (.put put es)).withTool s.tool.ended)
        else Q put (s.called (.put put es))) :
    Ends (endEvent put) Q E s := by
  have hdone {t : World} (ht : t.tool = s.tool)
      (hEt : ¬FitsInt (s.tool.fCurrentChunk - 1) → E t)
      (hQ : Q ET_OK (t.withTool s.tool.ended)) :
      Ends (int32 (s.tool.fCurrentChunk - 1) >>= fun c =>
        modifyTool (fun t => { t with fEventValid := false, fCurrentChunk := c }) >>= fun _ =>
          pure ET_OK) Q E t := by
    simp only [ends_bind, ends_int32]
    split
    · rw [← ht] at hQ ⊢
      exact hQ
    · exact hEt ‹_›
  simp only [endEvent, ends_bind, ends_gets]
  by_cases hc : (s.tool.fEventValid && s.tool.fReadFromEt && s.tool.fCurrentChunk == 0) = true
  · simp only [Bool.and_eq_true, beq_iff_eq] at hc
    obtain ⟨⟨hv, het⟩, h0⟩ := hc
    simp only [hv, het, h0, Bool.and_self, beq_self_eq_true, if_true, et_events_put, ends_bind,
      ends_gets, ends_demand]
    refine ⟨fun es hes => ?_, fun hnone => hE (.inl hnone)⟩
    have hp := hput hv het h0 es hes
    simp only [call, ends_modify, ends_pure, ne_eq, ite_not]
    split at hp <;> rename_i h
    · simp only [h, if_true]
      rw [h] at hp
      rw [← h0]
      exact hdone rfl (fun hf => absurd (by decide) (h0 ▸ hf)) hp
    · simp only [h, if_false]
      exact hp
  · simp only [hc]
    apply hdone rfl fun hfit => hE (.inr hfit)
    apply hidle
    simp only [Bool.and_eq_true, beq_iff_eq, not_and_or, Bool.not_eq_true] at hc
    tauto

@[simp] def World.got (s : World) (num : Nat) (a : GetAnswer) : World :=
  { s with calls := .get a.status (a.events num s.fresh) :: s.calls,
           fresh := s.fresh + (a.data num).length }

@[simp] def Tool.stored (t : Tool) (es : List EtEvent) (b : List (Option EtEvent)) (numRead cursor : Int) :
    Tool :=
  { t with fPEventBuffer := some (es.map some ++ b.drop es.length), fNumRead := numRead,
           fCurrentChunk := cursor }

theorem ends_et_events_get {num : Nat} {a : GetAnswer} {Q : Int × Nat → World → Prop}
    {E : World → Prop} (hE : E (s.got num a))
    (hQ : ∀ b, s.tool.fPEventBuffer = some b → (a.data num).length ≤ b.length →
      Q (a.status, (a.data num).length) ((s.got num a).withTool
        { s.tool with
          fPEventBuffer :=
            some ((a.events num s.fresh).map some ++ b.drop (a.data num).length) })) :
    Ends (et_events_get num a) Q E s := by
  simp only [et_events_get, ends_bind, ends_gets, call, ends_modify, ends_demand]
  refine ⟨fun b hb => ?_, fun _ => by simpa [World.got] using hE⟩
  split <;> rename_i hlen
  · rw [GetAnswer.length_events] at hlen
    simpa [World.got, World.withTool, modifyTool] using hQ b hb hlen
  · simpa [World.got] using hE

theorem ends_getEvent {a : GetAnswer} {Q : Int → World → Prop}
    (hstay : s.tool.locality = .ET_LOCAL → 0 ≤ s.tool.fCurrentChunk → Q ET_OK s)
    (hlocal : s.tool.locality = .ET_LOCAL → s.tool.fCurrentChunk < 0 →
      let n := s.tool.fEtReadChunkSize
      E (s.got n a) ∧ ∀ b, s.tool.fPEventBuffer = some b → (a.data n).length ≤ b.length →
        Q a.status ((s.got n a).withTool (s.tool.stored (a.events n s.fresh) b
          (a.data n).length ((a.data n).length - 1))))
    (hremote : s.tool.locality ≠ .ET_LOCAL →
      E (s.got 1 a) ∧ ∀ b, s.tool.fPEventBuffer = some b → (a.data 1).length ≤ b.length →
        Q a.status ((s.got 1 a).withTool (s.tool.stored (a.events 1 s.fresh) b 1 0))) :
    Ends (getEvent a) Q E s := by
  simp only [getEvent, ends_bind, ends_gets]
  split <;> rename_i hl
  · split <;> rename_i hc
    · obtain ⟨hE, hQ⟩ := hlocal hl hc
      refine ends_bind.mpr (ends_et_events_get hE fun b hb hlen => ?_)
      simpa [modifyTool] using hQ b hb hlen
    · exact hstay hl (by omega)
  · obtain ⟨hE, hQ⟩ := hremote hl
    refine ends_bind.mpr (ends_et_events_get hE fun b hb hlen => ?_)
    simpa [modifyTool] using hQ b hb hlen

def verdict (t : Tool) (d : EtData) : Int × Int × Bool :=
  if d.short then (EvioTool_Status_ERROR, t.fCurrentChunk, t.fEventValid)
  else if d.wrongMagic then (ET_ERROR_READ, t.fCurrentChunk - 1, t.fEventValid)
  else (ET_OK, t.fCurrentChunk, true)

section Verdict

variable {t : Tool} {d : EtData}

theorem verdict_short (h : d.short) :
    verdict t d = (EvioTool_Status_ERROR, t.fCurrentChunk, t.fEventValid) := if_pos h

theorem verdict_wrongMagic (h : d.wrongMagic) :
    verdict t d = (ET_ERROR_READ, t.fCurrentChunk - 1, t.fEventValid) := by
  rw [verdict, if_neg h.1, if_pos h]

theorem verdict_good (h : d.good) : verdict t d = (ET_OK, t.fCurrentChunk, true) := by
  rw [verdict, if_neg h.1, if_neg fun hw => hw.2 h.2]

end Verdict

def World.checked (s : World) (e : EtEvent) (p : Option EvioBuf) : World :=
  (s.called (.getdata (some e))).withTool
    { s.tool with fEvioBuf := p, fCurrentChunk := (verdict s.tool e.data).2.1,
                  fEventValid := (verdict s.tool e.data).2.2 }

theorem ends_checkEvent {Q : Int → World → Prop} (hnone : s.tool.fCurrentChunk < 0 → Q ET_ERROR_EMPTY s)
    (hnull : 0 ≤ s.tool.fCurrentChunk →
      (s.tool.entry = none → E s) ∧ (s.tool.entry = some none → E (s.called (.getdata none))))
    (hsome : 0 ≤ s.tool.fCurrentChunk → ∀ e, s.tool.entry = some (some e) →
      ∀ p, Q (verdict s.tool e.data).1 (s.checked e p)) :
    Ends checkEvent Q E s := by
  simp only [checkEvent, ends_bind, ends_gets]
  split <;> rename_i hc
  · exact hnone hc
  · have hc : 0 ≤ s.tool.fCurrentChunk := by omega
    simp only [ends_bind, ends_demand]
    refine ⟨fun x hx => ?_, (hnull hc).1⟩
    cases x with
    | none => exact ⟨fun _ h => absurd h.symm (Option.some_ne_none _), fun _ => (hnull hc).2 hx⟩
    | some e =>
    have hQ := hsome hc e hx
    simp only [call, modifyTool, ends_modify]
    refine ⟨?_, fun h => absurd h (Option.some_ne_none e)⟩
    rintro _ ⟨⟩
    rcases e.data.cases with hs | hw | hg
    · rw [if_neg (by simpa [EtData.short] using hs)]
      simp only [World.checked, verdict_short hs] at hQ
      exact hQ _
    · obtain ⟨w, hm⟩ := EtData.magic_isSome hw.1
      have hne : w ≠ 0xc0da0100 := by simpa [hm] using hw.2
      rw [if_pos (by simpa [EtData.short] using hw.1)]
      simp only [hm, demand_some, pure_bind, if_pos hne, ends_bind, ends_modify, ends_pure]
      simp only [World.checked, verdict_wrongMagic hw] at hQ
      exact hQ _
    · rw [if_pos (by simpa [EtData.short] using hg.1)]
      simp only [hg.2, demand_some, pure_bind, ne_eq, not_true, if_false, ends_bind, ends_modify,
        ends_pure]
      simp only [World.checked, verdict_good hg] at hQ
      exact hQ _

theorem ends_nextNoParse_et {a : Answers} {Q : Int → World → Prop}
    (het : s.tool.fReadFromEt = true) :
    Ends (nextNoParse a) Q E s ↔
      Ends (when s.tool.fEventValid (endEvent a.putFirst)) (fun _ t =>
        Ends (getEvent a.get) (fun stat u => if stat ≠ ET_OK then Q stat u else Ends checkEvent Q E u)
          E t) E s := by
  have hif (stat : Int) (u : World) :
      Ends (if stat ≠ ET_OK then pure stat else checkEvent) Q E u ↔
        if stat ≠ ET_OK then Q stat u else Ends checkEvent Q E u := by
    split <;> simp
  simp only [nextNoParse, ends_bind, ends_gets, het, if_true, hif]

def World.withBank (s : World) (b : Bank) : World := s.withTool { s.tool with bank := b }

theorem ends_onBank {m : Exec Halt Obs Bank α} {Q : α → World → Prop}
    (hQ : ∀ a b, Q a (s.withBank b)) (hE : ∀ b, E (s.withBank b)) : Ends (onBank m) Q E s := by
  change Ends m (fun a b => Q a (s.withBank b)) (fun b => E (s.withBank b)) s.tool.bank
  exact .of_all hQ hE

theorem ends_next {fill fuel : Nat} {a : Answers} {Q : Int → World → Prop}
    (h : Ends (nextNoParse a) (fun r t => if r ≠ S_SUCCESS then Q r t else
      ∀ b, E (t.withBank b) ∧ ∀ r, Ends (endEvent a.putLast) (fun _ => Q r) E (t.withBank b)) E s) :
    Ends (next fill fuel a) Q E s := by
  rw [next, ends_bind]
  refine h.mono (fun r t ht => ?_) fun _ => id
  by_cases hr : r = S_SUCCESS
  · simp only [hr, ne_eq, not_true, if_false] at ht ⊢
    simp only [ends_bind, ends_gets]
    refine ends_onBank (fun _ b => ?_) fun b => (ht b).1
    simp only [ends_demand]
    refine ⟨fun buf _ => ends_onBank (fun r c => ?_) fun c => (ht c).1, fun _ => (ht b).1⟩
    exact (ht c).2 r
  · simp only [hr, ne_eq, not_false_eq_true, if_true] at ht ⊢
    exact ht

end EvioTool
