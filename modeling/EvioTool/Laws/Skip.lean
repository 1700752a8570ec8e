import EvioTool.Laws.Chunk

/-! A local consumer that ends valid events only passes over no event. -/

namespace EvioTool

open Lib Exec

variable {s : World} {fill fuel : Nat}

structure Examined (s : World) : Prop extends Chunk s where
  above : ∀ (i : Nat) e, (lastGot s.calls)[i]? = some e → s.tool.fCurrentChunk < i →
    .getdata (some e) ∈ s.calls
  current : s.tool.fEventValid = true → ∀ (i : Nat) e, (lastGot s.calls)[i]? = some e →
    s.tool.fCurrentChunk = i → .getdata (some e) ∈ s.calls
  history : Always ExaminedBefore s.calls

namespace Examined

theorem endEvent (h : Examined s) (hv : s.tool.fEventValid = true) (put : Int) :
    Ends (endEvent put) (fun _ => Examined) (fun t => Always ExaminedBefore t.calls) s := by
  have habove (i : Nat) (e : EtEvent) (hi : (lastGot s.calls)[i]? = some e)
      (hc : s.tool.fCurrentChunk - 1 < i) : .getdata (some e) ∈ s.calls := by
    rcases lt_or_eq_of_le (Int.sub_one_lt_iff.mp hc) with hlt | heq
    · exact h.above i e hi hlt
    · exact h.current hv i e hi heq
  apply h.ends_endEvent fun _ => h.history
  · intro hidle
    rw [hv] at hidle
    cases hidle
  · intro _ _
    exact ⟨h.ended, habove, nofun, h.history⟩
  · intro _ _
    refine ⟨h.ended.put _ _, fun i e hi hc => ?_, nofun, trivial, h.history⟩
    exact .tail _ (habove i e hi hc)
  · intro _ _ _
    refine ⟨h.put _ _, fun i e hi hc => ?_, fun hv i e hi hc => ?_, trivial, h.history⟩
    · exact .tail _ (h.above i e hi hc)
    · exact .tail _ (h.current hv i e hi hc)

theorem getEvent (h : Examined s) (a : GetAnswer) :
    Ends (getEvent a) (fun _ => Examined) (fun t => Always ExaminedBefore t.calls) s := by
  apply h.ends_getEvent
  · exact fun _ => h
  · intro hc n
    have hall : ∀ e ∈ lastGot s.calls, .getdata (some e) ∈ s.calls := by
      intro e he
      obtain ⟨i, hi⟩ := List.getElem?_of_mem he
      exact h.above i e hi (by omega)
    refine ⟨⟨hall, h.history⟩, fun b => ⟨h.got hc _ _ _, ?_, ?_, hall, h.history⟩⟩
    · intro i e hi hlt
      have hlen : (((a.events n s.fresh).length : Nat) : Int) - 1 < i := by simpa using hlt
      rw [show lastGot _ = a.events n s.fresh from rfl, List.getElem?_eq_none (by omega)] at hi
      cases hi
    · intro hv
      exact absurd hv (by simpa using h.idle hc)

theorem checkEvent (h : Examined s) :
    Ends checkEvent (fun stat t => Examined t ∧ (stat = ET_OK → t.tool.fEventValid = true))
      (fun t => Always ExaminedBefore t.calls) s := by
  apply h.ends_checkEvent
  · exact fun _ => ⟨h, nofun⟩
  · intro hc e hi he p
    have hchunk := h.checked he hc p
    have hlast : lastGot (s.checked e p).calls = lastGot s.calls := rfl
    have hnew (i : Nat) (e' : EtEvent) (hi' : (lastGot s.calls)[i]? = some e')
        (hle : s.tool.fCurrentChunk ≤ i) : .getdata (some e') ∈ .getdata (some e) :: s.calls := by
      rcases lt_or_eq_of_le hle with hlt | heq
      · exact .tail _ (h.above i e' hi' hlt)
      · rw [heq, Int.toNat_natCast, hi'] at hi
        cases hi
        exact .head _
    rcases h.checked_cases he p with ⟨-, hr, ht⟩ | ⟨-, hr, hidle, ht⟩ | ⟨-, hr, ht⟩
    · refine ⟨⟨hchunk, fun i e' hi' hlt => ?_, fun _ i e' hi' heq => ?_, trivial, h.history⟩, ?_⟩
      · exact hnew i e' hi' (ht ▸ hlt).le
      · exact hnew i e' hi' (ht ▸ heq).le
      · rw [hr]
        nofun
    · refine ⟨⟨hchunk, fun i e' hi' hlt => ?_, fun hv => ?_, trivial, h.history⟩, ?_⟩
      · rw [ht] at hlt
        exact hnew i e' hi' (Int.sub_one_lt_iff.mp hlt)
      · rw [ht] at hv
        exact absurd hv (by simp [hidle])
      · rw [hr]
        nofun
    · refine ⟨⟨hchunk, fun i e' hi' hlt => ?_, fun _ i e' hi' heq => ?_, trivial, h.history⟩, ?_⟩
      · exact hnew i e' hi' (ht ▸ hlt).le
      · exact hnew i e' hi' (ht ▸ heq).le
      · rw [ht]
        simp

end Examined

/-- `EndEvent` is called for a valid event. -/
def EndsValid : Op → World → Prop
  | .endEvent _, s => s.tool.fEventValid = true
  | _, _ => True

theorem Connected.examined (hs : Connected s) (hl : s.tool.locality = .ET_LOCAL) : Examined s := by
  obtain ⟨params, hcalls⟩ := hs.calls
  refine ⟨hs.chunk hl, ?_, ?_, ?_⟩
  · simp [hcalls, lastGot]
  · simp [hs.idle]
  · simp [hcalls, ExaminedBefore]

theorem Examined.exec {o : Op} (h : Examined s) (ho : o.Consumes) (hv : EndsValid o s) :
    Ends (o.exec fill fuel) (fun _ => Examined) (fun t => Always ExaminedBefore t.calls) s := by
  apply ends_consume ho
  · exact fun v hI => hI.history
  · exact fun v b hI => ⟨hI.toChunk.withBank b, hI.above, hI.current, hI.history⟩
  · intro a _
    apply ends_nextNoParse (M := Examined) h.et fun _ => h
    · exact fun hv => h.endEvent hv _
    · intro t ht _
      refine (ht.getEvent a.get).mono (fun stat u hu => ?_) fun _ h => h
      split <;> rename_i hok
      · exact hu
      · exact ⟨hu, fun h => absurd h hok⟩
    · exact fun u hu _ => hu.checkEvent
  · exact fun v put hI hv => hI.endEvent hv put
  · rintro put rfl
    exact h.endEvent hv put

/-- Every event of a chunk is looked at before the next get.  The other half says that
the condition cannot be dropped: `EndEvent` moves the cursor unless it fails. -/
theorem examined_before_get {ops : List Op} (hs : Connected s) (hl : s.tool.locality = .ET_LOCAL)
    (hops : Meets (Op.exec fill fuel) (fun o t => o.Consumes ∧ EndsValid o t) ops s) :
    Always ExaminedBefore (run (Op.exec fill fuel) ops s).state.calls ∧
    ∀ put r t u, Returns (endEvent put) t r u →
      ((t.tool.fEventValid = false → u.tool.fCurrentChunk = t.tool.fCurrentChunk) ↔
        t.tool.fEventValid = true) := by
  constructor
  · exact run_state (fun _ h => h.history) (fun o t ht ho => ht.exec ho.1 ho.2) (hs.examined hl) hops
  · intro put r t u hr
    have hmove : Ends (endEvent put) (fun _ u => t.tool.fEventValid = false →
        u.tool.fCurrentChunk = t.tool.fCurrentChunk - 1) (fun _ => True) t := by
      apply ends_endEvent fun _ => trivial
      · intro _ _
        rfl
      · intro hv _ _ es _
        split <;> simp [hv]
    constructor
    · intro h
      by_contra hv
      have hv : t.tool.fEventValid = false := by simpa using hv
      have := hmove.of_returns hr hv
      have := h hv
      omega
    · intro hv hidle
      rw [hv] at hidle
      cases hidle

def skipOps : List Op :=
  [.nextNoParse { get := .ok goodData [goodData] }, .endEvent ET_OK, .endEvent ET_OK,
    .nextNoParse {}]

theorem examined_before_get_once : Always ExaminedBefore
    (run (Op.exec 0 0) [.nextNoParse { get := .ok goodData [goodData] }, .endEvent ET_OK,
      .nextNoParse { get := .ok goodData [] }] (newConnection .ET_LOCAL)).state.calls :=
  (examined_before_get (connected_newConnection _) rfl (by
    refine ⟨⟨trivial, trivial⟩, ?_⟩
    rintro _ ⟨-, rfl⟩
    refine ⟨⟨trivial, rfl⟩, ?_⟩
    rintro _ ⟨-, rfl⟩
    exact ⟨⟨trivial, trivial⟩, fun _ _ => trivial⟩)).1

theorem endEvent_skips : Connected (newConnection .ET_LOCAL) ∧ (∀ o ∈ skipOps, o.Consumes) ∧
    ¬Always ExaminedBefore (run (Op.exec 0 0) skipOps (newConnection .ET_LOCAL)).state.calls :=
  ⟨connected_newConnection _, by decide, fun h => absurd h.1 (by decide)⟩

end EvioTool
