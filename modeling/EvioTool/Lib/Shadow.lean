import EvioTool.Lib.Exec

/-! An execution beside one that is simpler or takes notes. -/

namespace EvioTool.Lib.Exec

variable {ε ω ω' χ σ τ α β : Type}

/-- From `s` both executions end alike and in the same state, and what `p` and `q` keep of
their logs is the same. -/
structure Shadows (p : ω → Option χ) (q : ω' → Option χ) (m : Exec ε ω σ α) (m' : Exec ε ω' σ α)
    (s : σ) : Prop where
  out : (m' s).out = (m s).out
  state : (m' s).state = (m s).state
  log : (m' s).log.filterMap q = (m s).log.filterMap p

section Shadows

variable {p : ω → Option χ} {q : ω' → Option χ} {m : Exec ε ω σ α} {m' : Exec ε ω' σ α}
  {f : α → Exec ε ω σ β} {f' : α → Exec ε ω' σ β} {n : Exec ε ω' σ β} {s t : σ} {a : α} {e : ε}

theorem shadows_pure : Shadows p q (pure a : Exec ε ω σ α) (pure a) s := ⟨rfl, rfl, rfl⟩

theorem Shadows.returns (h : Shadows p q m m' s) : Returns m' s a t ↔ Returns m s a t := by
  rw [Returns, Returns, h.out, h.state]

theorem Shadows.congr {n n' : Exec ε ω' σ α} (h : Shadows p q m n s) (he : n' s = n s) :
    Shadows p q m n' s := by
  refine ⟨?_, ?_, ?_⟩ <;> rw [he]
  · exact h.out
  · exact h.state
  · exact h.log

theorem Shadows.mapLog {g : ω → ω'} (h : ∀ w, q (g w) = p w) : Shadows p q m (mapLog g m) s := by
  refine ⟨rfl, rfl, ?_⟩
  have hcomp : q ∘ g = p := funext h
  rw [Exec.mapLog, List.filterMap_map, hcomp]

theorem Shadows.bind (hm : Shadows p q m m' s)
    (hf : ∀ a t, Returns m s a t → Shadows p q (f a) (f' a) t) :
    Shadows p q (m >>= f) (m' >>= f') s := by
  cases ho : (m s).out with
  | error e =>
    have ho' := hm.out.trans ho
    refine ⟨?_, ?_, ?_⟩ <;> rw [bind_of_error ho, bind_of_error ho']
    · exact hm.state
    · exact hm.log
  | ok a =>
    have ho' := hm.out.trans ho
    have hnext := hf a _ ⟨ho, rfl⟩
    rw [← hm.state] at hnext
    refine ⟨?_, ?_, ?_⟩ <;> rw [bind_of_ok ho, bind_of_ok ho', hm.state] <;> rw [hm.state] at hnext
    · exact hnext.out
    · exact hnext.state
    · simp only [List.filterMap_append, hm.log, hnext.log]

theorem Shadows.skip (hm : Returns m s a s) (hlog : Logs (fun w => p w = none) m s)
    (hf : Shadows p q (f a) n s) : Shadows p q (m >>= f) n s := by
  obtain ⟨ho, hs⟩ := hm
  have hnil : (m s).log.filterMap p = [] := List.filterMap_eq_nil_iff.mpr hlog
  refine ⟨?_, ?_, ?_⟩ <;> rw [bind_of_ok ho, hs]
  · exact hf.out
  · exact hf.state
  · simp only [List.filterMap_append, hnil, List.nil_append, hf.log]

theorem Shadows.note {w : ω'} {n : Exec ε ω' σ α} (hw : q w = none) (h : Shadows p q m n s) :
    Shadows p q m (tell w >>= fun _ => n) s := by
  have ho : (tell w : Exec ε ω' σ Unit) s = ⟨.ok (), s, [w]⟩ := rfl
  refine ⟨?_, ?_, ?_⟩ <;> rw [bind_of_ok (a := ()) (by rw [ho]), ho]
  · exact h.out
  · exact h.state
  · simp only [List.filterMap_append, List.filterMap_cons, hw, List.filterMap_nil, List.nil_append,
      h.log]

theorem Shadows.zoom {m : Exec ε ω τ α} {m' : Exec ε ω' τ α} {part : σ → Option τ}
    {put : τ → σ → σ} (h : ∀ x, part s = some x → Shadows p q m m' x) :
    Shadows p q (zoom part put e m) (zoom part put e m') s := by
  cases hp : part s with
  | none => refine ⟨?_, ?_, ?_⟩ <;> simp [Exec.zoom, hp]
  | some x =>
    obtain ⟨ho, hs, hl⟩ := h x hp
    refine ⟨?_, ?_, ?_⟩ <;> simp only [Exec.zoom, hp]
    · exact ho
    · rw [hs]
    · exact hl

end Shadows

end EvioTool.Lib.Exec
