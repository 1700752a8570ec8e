import EvioTool.Laws.Chunk

/-! An event of more than ten words is looked at once when it is rejected; a short one
for ever. -/

namespace EvioTool

open Lib Exec

variable {s t : World} {P : World → Prop} {e : EtEvent} {n : Nat} {fill fuel : Nat}

structure Stable (P : World → Prop) : Prop where
  bank : ∀ s b, P s → P (s.withBank b)
  ended : ∀ s, P s → P (s.withTool s.tool.ended)
  put : ∀ s put es, P s → P (s.called (.put put es))
  got : ∀ s a (c : Int) b, P s →
    P (s.got s.tool.fEtReadChunkSize a) ∧
    P ((s.got s.tool.fEtReadChunkSize a).withTool
      (s.tool.stored (a.events s.tool.fEtReadChunkSize s.fresh) b c (c - 1)))
  checked : ∀ s e p, Chunk s → 0 ≤ s.tool.fCurrentChunk →
    (lastGot s.calls)[s.tool.fCurrentChunk.toNat]? = some e → s.tool.entry = some (some e) →
    P s → P (s.checked e p)

namespace Stable

variable (hP : Stable P)

include hP

theorem endEvent (h : Chunk s) (hs : P s) (put : Int) :
    Ends (endEvent put) (fun _ t => Chunk t ∧ P t) P s := by
  apply h.ends_endEvent fun _ => hs
  · exact fun _ => ⟨h.ended, hP.ended s hs⟩
  · exact fun _ _ => ⟨h.ended, hP.ended s hs⟩
  · exact fun _ _ => ⟨(h.put _ _).ended, hP.ended _ (hP.put s _ _ hs)⟩
  · exact fun _ _ _ => ⟨h.put _ _, hP.put s _ _ hs⟩

theorem getEvent (h : Chunk s) (hs : P s) (a : GetAnswer) :
    Ends (getEvent a) (fun _ t => Chunk t ∧ P t) P s := by
  apply h.ends_getEvent
  · exact fun _ => ⟨h, hs⟩
  · exact fun hc => ⟨(hP.got s a 0 [] hs).1, fun b => ⟨h.got hc _ _ _, (hP.got s a _ b hs).2⟩⟩

theorem checkEvent (h : Chunk s) (hs : P s) :
    Ends checkEvent (fun stat t => (Chunk t ∧ P t) ∧ (stat = ET_OK → t.tool.fEventValid = true))
      P s := by
  apply h.ends_checkEvent
  · exact fun _ => ⟨⟨h, hs⟩, nofun⟩
  · intro hc e hi he p
    refine ⟨⟨h.checked he hc p, hP.checked s e p h hc hi he hs⟩, ?_⟩
    rcases h.checked_cases he p with ⟨-, hr, -⟩ | ⟨-, hr, -⟩ | ⟨-, -, ht⟩
    · rw [hr]
      nofun
    · rw [hr]
      nofun
    · rw [ht]
      simp

theorem exec {o : Op} (ho : o.Consumes) (h : Chunk s) (hs : P s) :
    Ends (o.exec fill fuel) (fun _ t => Chunk t ∧ P t) P s := by
  apply ends_consume ho
  · exact fun v hI => hI.2
  · exact fun v b hI => ⟨hI.1.withBank b, hP.bank v b hI.2⟩
  · intro a _
    have hend : s.tool.fEventValid = true →
        Ends (EvioTool.endEvent a.putFirst) (fun _ t => Chunk t ∧ P t) P s :=
      fun _ => hP.endEvent h hs _
    apply ends_nextNoParse h.et (fun _ => ⟨h, hs⟩) hend
    · intro t ht _
      refine (hP.getEvent ht.1 ht.2 a.get).mono (fun stat u hu => ?_) fun _ h => h
      split <;> rename_i hok
      · exact hu
      · exact ⟨hu, fun h => absurd h hok⟩
    · exact fun u hu _ => hP.checkEvent hu.1 hu.2
  · exact fun v put hI _ => hP.endEvent hI.1 hI.2 put
  · exact fun put _ => hP.endEvent h hs put

theorem runs {ops : List Op} (hops : ∀ o ∈ ops, o.Consumes) (h : Chunk s) (hs : P s) :
    Ends (run (Op.exec fill fuel) ops) (fun _ t => Chunk t ∧ P t) P s := by
  apply run_invariant (C := fun o _ => o.Consumes) (I := fun t => Chunk t ∧ P t)
  · exact fun o t ht ho => hP.exec ho ht.1 ht.2
  · exact ⟨h, hs⟩
  · exact .of_forall fun o ho _ => hops o ho

end Stable

structure Tracked (s : World) : Prop where
  nodup : (lastGot s.calls).Nodup
  old : ∀ e ∈ lastGot s.calls, e.id < s.fresh

theorem stable_tracked : Stable Tracked where
  bank _ _ h := ⟨h.nodup, h.old⟩
  ended _ h := ⟨h.nodup, h.old⟩
  put _ _ _ h := ⟨h.nodup, h.old⟩
  got _ _ _ _ _ := ⟨⟨GetAnswer.nodup_events, fun _ he => (GetAnswer.id_of_mem he).2⟩,
    ⟨GetAnswer.nodup_events, fun _ he => (GetAnswer.id_of_mem he).2⟩⟩
  checked _ _ _ _ _ _ _ h := ⟨h.nodup, h.old⟩

structure Past (e : EtEvent) (n : Nat) (s : World) : Prop where
  old : e.id < s.fresh
  behind : ∀ i : Nat, (lastGot s.calls)[i]? = some e → s.tool.fCurrentChunk < i
  count : s.calls.count (.getdata (some e)) = n

theorem stable_past : Stable (Past e n) where
  bank _ _ h := ⟨h.old, h.behind, h.count⟩
  ended _ h := ⟨h.old, fun i hi => (sub_one_lt _).trans (h.behind i hi), h.count⟩
  put s put es h := ⟨h.old, h.behind, by simp [h.count]⟩
  got s a c b h := by
    have hnew : ∀ i : Nat, (a.events s.tool.fEtReadChunkSize s.fresh)[i]? ≠ some e := by
      intro i hi
      have := (GetAnswer.id_of_mem (List.mem_of_getElem? hi)).1
      have := h.old
      omega
    have hcount : (s.got s.tool.fEtReadChunkSize a).calls.count (.getdata (some e)) = n := by
      simp [h.count]
    have hold : e.id < (s.got s.tool.fEtReadChunkSize a).fresh := by
      have := h.old
      simp
      omega
    exact ⟨⟨hold, fun i hi => absurd hi (hnew i), hcount⟩,
      ⟨hold, fun i hi => absurd hi (hnew i), hcount⟩⟩
  checked s e' p hs hc hi he h := by
    have hne : e' ≠ e := by
      rintro rfl
      have := h.behind _ hi
      omega
    refine ⟨h.old, fun i hi' => ?_, ?_⟩
    · have hlt := h.behind i hi'
      rcases hs.checked_cases he p with ⟨-, -, ht⟩ | ⟨-, -, -, ht⟩ | ⟨-, -, ht⟩ <;> rw [ht]
      · exact hlt
      · exact (sub_one_lt _).trans hlt
      · exact hlt
    · have : (s.checked e' p).calls = .getdata (some e') :: s.calls := rfl
      rw [this, List.count_cons_of_ne (by simpa using hne)]
      exact h.count

theorem rejected (h : Chunk s) (hs : Tracked s) (a : Answers) :
    Ends (nextNoParse a) (fun stat t => stat ≠ ET_OK → ∀ e,
      t.calls.head? = some (.getdata (some e)) → Chunk t ∧
        ((e.data.short ∧ 0 ≤ t.tool.fCurrentChunk ∧ t.tool.entry = some (some e)) ∨
          (¬e.data.short ∧ Past e (t.calls.count (.getdata (some e))) t)))
      (fun _ => True) s := by
  have hend : s.tool.fEventValid = true →
      Ends (endEvent a.putFirst) (fun _ t => Chunk t ∧ Tracked t) (fun _ => True) s :=
    fun _ => (stable_tracked.endEvent h hs _).mono (fun _ _ h => h) fun _ _ => trivial
  apply ends_nextNoParse (M := fun u => (Chunk u ∧ Tracked u) ∧
    (u.tool.fCurrentChunk < 0 → ∀ x, u.calls.head? ≠ some (.getdata x))) h.et (fun _ => ⟨h, hs⟩) hend
  · intro t ⟨ht, htr⟩ _
    apply ht.ends_getEvent
    · intro hc
      exact ⟨⟨ht, htr⟩, fun hneg => absurd hc (by omega)⟩
    · intro hc
      refine ⟨trivial, fun b => ?_⟩
      split
      · exact ⟨⟨ht.got hc _ _ _, (stable_tracked.got t a.get _ b htr).2⟩, fun _ x => by simp⟩
      · intro _ e he
        simp at he
  · intro u ⟨⟨hu, hutr⟩, hhead⟩ _
    apply hu.ends_checkEvent
    · intro hc _ e he
      exact absurd he (hhead hc _)
    · intro hc e hi he p _ e' he'
      obtain rfl : e = e' := by simpa [World.checked] using he'
      refine ⟨hu.checked he hc p, ?_⟩
      rcases hu.checked_cases he p with ⟨hshort, -, ht⟩ | ⟨hw, -, -, ht⟩ | ⟨-, hr, -⟩
      · exact .inl ⟨hshort, by rwa [ht], by rwa [ht]⟩
      · refine .inr ⟨hw.1, hutr.old e (List.mem_of_getElem? hi), fun i hi' => ?_, rfl⟩
        have hi' : (lastGot u.calls)[i]? = some e := hi'
        have hieq : i = u.tool.fCurrentChunk.toNat := by
          apply (List.getElem?_inj (List.getElem?_eq_some_iff.mp hi').1 hutr.nodup).mp
          rw [hi, hi']
        rw [ht]
        show u.tool.fCurrentChunk - 1 < i
        omega
      · exact absurd hr ‹_›

theorem short_again (h : Chunk s) (hc : 0 ≤ s.tool.fCurrentChunk)
    (he : s.tool.entry = some (some e)) (hshort : e.data.short) (a : Answers) :
    Ends (nextNoParse a) (fun _ t => t.calls = .getdata (some e) :: s.calls) (fun _ => False) s := by
  have hidle : s.tool.fEventValid = false := by
    by_contra hv
    exact (h.good (by simpa using hv) e he).1 hshort
  rw [ends_nextNoParse_et h.et, hidle, ends_when_false]
  apply h.ends_getEvent
  · intro _
    rw [if_neg (by simp)]
    apply h.ends_checkEvent
    · intro hneg
      omega
    · intro _ e' _ he' p
      obtain rfl : e = e' := by simpa using he.symm.trans he'
      rfl
  · intro hneg
    omega

theorem Connected.tracked (hs : Connected s) : Tracked s := by
  obtain ⟨params, hcalls⟩ := hs.calls
  constructor <;> simp [hcalls, lastGot]

def World.left (s : World) : Int :=
  if s.tool.fEventValid then s.tool.fCurrentChunk else s.tool.fCurrentChunk + 1

theorem moves_on (h : Chunk s) (hlong : ∀ e ∈ lastGot s.calls, ¬e.data.short) {a : Answers}
    (hput : a.putFirst = ET_OK) :
    Ends (nextNoParse a) (fun _ u => Chunk u ∧ (timesGot s.calls < timesGot u.calls ∨
        (timesGot u.calls = timesGot s.calls ∧ lastGot u.calls = lastGot s.calls ∧
          0 ≤ u.left ∧ u.left < s.left)))
      (fun u => timesGot s.calls < timesGot u.calls) s := by
  have hend : s.tool.fEventValid = true → Ends (endEvent a.putFirst)
      (fun _ t => Chunk t ∧ (timesGot t.calls = timesGot s.calls ∧
        lastGot t.calls = lastGot s.calls) ∧ t.tool.fEventValid = false ∧
        t.tool.fCurrentChunk + 1 = s.left)
      (fun u => timesGot s.calls < timesGot u.calls) s := by
    intro hv
    apply h.ends_endEvent
    · simp [hv]
    · simp [hv]
    · intro _ _
      exact ⟨h.ended, ⟨rfl, rfl⟩, rfl, by simp [World.left, hv]⟩
    · intro _ _
      exact ⟨h.ended.put _ _, ⟨rfl, rfl⟩, rfl, by simp [World.left, hv]⟩
    · exact fun _ _ hne => absurd hput hne
  apply ends_nextNoParse (M := fun u => Chunk u ∧ (timesGot s.calls < timesGot u.calls ∨
    ((timesGot u.calls = timesGot s.calls ∧ lastGot u.calls = lastGot s.calls) ∧
      u.tool.fEventValid = false ∧ u.tool.fCurrentChunk + 1 = s.left ∧ 0 ≤ u.tool.fCurrentChunk)))
    h.et (fun hv => ⟨h, ⟨rfl, rfl⟩, hv, by simp [World.left, hv]⟩) hend
  · intro t ⟨ht, hsame, hv, hleft⟩ _
    apply ht.ends_getEvent
    · exact fun hc => ⟨ht, .inr ⟨hsame, hv, hleft, hc⟩⟩
    · intro hc
      have hmore (st : Int) (es : List EtEvent) :
          timesGot s.calls < timesGot (.get st es :: t.calls) := by
        simp [timesGot, hsame.1]
      refine ⟨hmore _ _, fun b => ?_⟩
      split
      · exact ⟨ht.got hc _ _ _, .inl (hmore _ _)⟩
      · exact ⟨ht.got hc _ _ _, .inl (hmore _ _)⟩
  · intro u ⟨hu, hcase⟩ _
    apply hu.ends_checkEvent
    · intro hneg
      refine ⟨hu, .inl ?_⟩
      rcases hcase with hmore | ⟨-, -, -, hc⟩
      · exact hmore
      · omega
    · intro hc e hi he p
      refine ⟨hu.checked he hc p, hcase.imp id ?_⟩
      rintro ⟨hsame, hv, hleft, -⟩
      refine ⟨hsame.1, hsame.2, ?_⟩
      have hnot : ¬e.data.short := hlong e (hsame.2 ▸ List.mem_of_getElem? hi)
      rcases hu.checked_cases he p with ⟨hshort, -⟩ | ⟨-, -, -, ht⟩ | ⟨-, -, ht⟩
      · exact absurd hshort hnot
      · have hcheck : (u.checked e p).left = u.tool.fCurrentChunk := by simp [World.left, ht, hv]
        omega
      · have hcheck : (u.checked e p).left = u.tool.fCurrentChunk := by simp [World.left, ht]
        omega

theorem stable_timesGot {g : Nat} : Stable fun s => g < timesGot s.calls where
  bank _ _ h := h
  ended _ h := h
  put _ _ _ h := h
  got _ _ _ _ h := ⟨h.trans (Nat.lt_succ_self _), h.trans (Nat.lt_succ_self _)⟩
  checked _ _ _ _ _ _ _ h := h

theorem consumes_nextNoParse {answers : List Answers} :
    ∀ o ∈ answers.map Op.nextNoParse, o.Consumes := by
  intro o ho
  obtain ⟨a, -, rfl⟩ := List.mem_map.mp ho
  trivial

theorem gets_within {g : Nat} (h : Chunk s) (hlong : ∀ e ∈ lastGot s.calls, ¬e.data.short)
    {answers : List Answers} (hput : ∀ a ∈ answers, a.putFirst = ET_OK)
    (hleft : s.left < answers.length) (hne : answers ≠ []) (hg : timesGot s.calls = g) :
    Ends (run (Op.exec fill fuel) (answers.map .nextNoParse)) (fun _ u => g < timesGot u.calls)
      (fun u => g < timesGot u.calls) s := by
  induction answers generalizing s with
  | nil => exact absurd rfl hne
  | cons a answers ih =>
    subst hg
    simp only [List.map_cons, run, Op.exec, ends_bind, ends_pure]
    refine (moves_on h hlong (hput a (.head _))).mono (fun _ u hmoved => ?_) fun _ h => h
    obtain ⟨hu, hcase⟩ := hmoved
    rcases hcase with hmore | ⟨hsame, hchunk, hpos, hless⟩
    · exact (stable_timesGot.runs consumes_nextNoParse hu hmore).mono (fun _ _ h => h.2)
        fun _ h => h
    · have hlen : (answers.length : Int) + 1 = (a :: answers).length := by simp
      have hne' : answers ≠ [] := by
        rintro rfl
        have hone : [a].length = 1 := rfl
        omega
      exact ih hu (hchunk ▸ hlong) (fun a' ha' => hput a' (.tail _ ha')) (by omega) hne' hsame

/-- From a state that a local consumer can reach: a rejected event is never looked at
again exactly when it has more than ten words.  Without short events in the chunk and
with puts that succeed, a new get follows after as many calls as the chunk has events. -/
theorem moves_past_iff {s₀ : World} {ops : List Op} (hs : Connected s₀)
    (hl : s₀.tool.locality = .ET_LOCAL) (hops : ∀ o ∈ ops, o.Consumes)
    (hrun : Returns (run (Op.exec fill fuel) ops) s₀ () s) :
    (∀ a stat t e, Returns (nextNoParse a) s stat t → stat ≠ ET_OK →
      t.calls.head? = some (.getdata (some e)) →
      ((∀ ops', (∀ o ∈ ops', o.Consumes) →
        (run (Op.exec fill fuel) ops' t).state.calls.count (.getdata (some e)) =
          t.calls.count (.getdata (some e))) ↔ ¬e.data.short)) ∧
    ((∀ e ∈ lastGot s.calls, ¬e.data.short) → ∀ answers : List Answers,
      (∀ a ∈ answers, a.putFirst = ET_OK) → (lastGot s.calls).length < answers.length →
      timesGot s.calls <
        timesGot (run (Op.exec fill fuel) (answers.map .nextNoParse) s).state.calls) := by
  obtain ⟨hchunk, htracked⟩ :=
    (stable_tracked.runs hops (hs.chunk hl) hs.tracked).of_returns hrun
  constructor
  · intro a stat t e hret hstat hhead
    obtain ⟨ht, hcase⟩ := (rejected hchunk htracked a).of_returns hret hstat e hhead
    constructor
    · intro hnever hshort
      obtain ⟨-, hc, he⟩ := hcase.resolve_right fun h => h.1 hshort
      have hagain : Ends (run (Op.exec fill fuel) ([{}].map .nextNoParse))
          (fun _ u => u.calls = .getdata (some e) :: t.calls)
          (fun u => u.calls = .getdata (some e) :: t.calls) t := by
        simp only [List.map_cons, List.map_nil, run, Op.exec, ends_bind, ends_pure]
        exact (short_again ht hc he hshort {}).mono (fun _ _ h => h) fun _ h => h.elim
      have hcount := hnever ([{}].map .nextNoParse) consumes_nextNoParse
      rw [hagain.state fun _ _ h => h] at hcount
      simp at hcount
    · intro hlong ops' hops'
      have hpast := (hcase.resolve_left fun h => hlong h.1).2
      exact ((stable_past.runs hops' ht hpast).state fun _ _ h => h.2).count
  · intro hlong answers hput hlen
    have hne : answers ≠ [] := by
      rintro rfl
      simp at hlen
    have hleft : s.left < answers.length := by
      unfold World.left
      by_cases hc : 0 ≤ s.tool.fCurrentChunk
      · obtain ⟨b, -, -, hlt⟩ := hchunk.filled hc
        split <;> omega
      · rw [hchunk.idle (by omega)]
        simp
        omega
    exact (gets_within hchunk hlong hput hleft hne rfl).state fun _ _ h => h

def firstCall (d : EtData) : Outcome Halt Obs World Int :=
  nextNoParse { get := .ok d [] } (newConnection .ET_LOCAL)

theorem moves_past_wrongMagic :
    (run (Op.exec 0 0) [.nextNoParse {}] (firstCall wrongMagicData).state).state.calls.count
      (.getdata (some ⟨0, wrongMagicData⟩)) =
    (firstCall wrongMagicData).state.calls.count (.getdata (some ⟨0, wrongMagicData⟩)) :=
  ((moves_past_iff (connected_newConnection .ET_LOCAL) rfl (List.forall_mem_nil _) ⟨rfl, rfl⟩).1
    { get := .ok wrongMagicData [] } ET_ERROR_READ _ _ ⟨rfl, rfl⟩ (by decide) rfl).mpr (by decide)
    [.nextNoParse {}] (by decide)

theorem short_stalls : Connected (newConnection .ET_LOCAL) ∧
    (firstCall shortData).out = .ok EvioTool_Status_ERROR ∧
    (firstCall shortData).state.calls.count (.getdata (some ⟨0, shortData⟩)) = 1 ∧
    (nextNoParse {} (firstCall shortData).state).state.calls.count
      (.getdata (some ⟨0, shortData⟩)) = 2 := by
  exact ⟨connected_newConnection _, rfl, by decide, by decide⟩

end EvioTool
