import EvioTool.Lib.Exec

/-! One program started in two states, side by side. -/

namespace EvioTool.Lib.Exec

variable {ε ω σ τ α β : Type}

/-- From `s` and from `s'` the execution ends with the same value, in states related by
`Q`, or stops for the same reason, in states related by `E`. -/
def Alike (m : Exec ε ω σ α) (Q : α → σ → σ → Prop) (E : σ → σ → Prop) (s s' : σ) : Prop :=
  match (m s).out, (m s').out with
  | .ok a, .ok a' => a' = a ∧ Q a (m s).state (m s').state
  | .error e, .error e' => e' = e ∧ E (m s).state (m s').state
  | _, _ => False

section Alike

variable {m : Exec ε ω σ α} {f : α → Exec ε ω σ β} {Q Q' : α → σ → σ → Prop}
  {E E' : σ → σ → Prop} {s s' : σ} {a : α} {e : ε}

theorem Alike.mono (h : Alike m Q E s s') (hQ : ∀ a t t', Q a t t' → Q' a t t')
    (hE : ∀ t t', E t t' → E' t t') : Alike m Q' E' s s' := by
  unfold Alike at *
  split at h
  · exact ⟨h.1, hQ _ _ _ h.2⟩
  · exact ⟨h.1, hE _ _ h.2⟩
  · exact h

theorem Alike.bind {Q : β → σ → σ → Prop} {P : α → σ → σ → Prop} (hm : Alike m P E s s')
    (hf : ∀ a t t', P a t t' → Alike (f a) Q E t t') : Alike (m >>= f) Q E s s' := by
  unfold Alike at hm
  split at hm
  · rename_i a a' ho ho'
    obtain ⟨rfl, hP⟩ := hm
    have hnext := hf _ _ _ hP
    simp only [Alike, bind_of_ok ho, bind_of_ok ho'] at hnext ⊢
    exact hnext
  · rename_i e e' ho ho'
    simp only [Alike, bind_of_error ho, bind_of_error ho']
    exact hm
  · exact hm.elim

theorem Alike.zoom {m : Exec ε ω τ α} {part : σ → Option τ} {put : τ → σ → σ}
    {P : α → τ → τ → Prop} {F : τ → τ → Prop} {x x' : τ} (hx : part s = some x)
    (hx' : part s' = some x') (hm : Alike m P F x x')
    (hQ : ∀ a y y', P a y y' → Q a (put y s) (put y' s'))
    (hE : ∀ y y', F y y' → E (put y s) (put y' s')) :
    Alike (zoom part put e m) Q E s s' := by
  simp only [Alike, Exec.zoom, hx, hx'] at hm ⊢
  split at hm
  · exact ⟨hm.1, hQ _ _ _ hm.2⟩
  · exact ⟨hm.1, hE _ _ hm.2⟩
  · exact hm.elim

theorem Alike.zoom_none {m : Exec ε ω τ α} {part : σ → Option τ} {put : τ → σ → σ}
    (hx : part s = none) (hx' : part s' = none) (hE : E s s') :
    Alike (Exec.zoom part put e m) Q E s s' := by
  simp only [Alike, Exec.zoom, hx, hx']
  exact ⟨trivial, hE⟩

theorem Alike.returns {t : σ} (h : Alike m Q E s s') (hr : Returns m s a t) :
    ∃ t', Returns m s' a t' ∧ Q a t t' := by
  obtain ⟨ho, rfl⟩ := hr
  unfold Alike at h
  rw [ho] at h
  cases ho' : (m s').out with
  | error e =>
    rw [ho'] at h
    exact h.elim
  | ok a' =>
    rw [ho'] at h
    obtain ⟨rfl, hQ⟩ := h
    exact ⟨_, ⟨ho', rfl⟩, hQ⟩

theorem Alike.states {R : σ → σ → Prop} (h : Alike m (fun _ => R) R s s') :
    R (m s).state (m s').state := by
  unfold Alike at h
  split at h
  · exact h.2
  · exact h.2
  · exact h.elim

end Alike

def Keeps (R : σ → σ → Prop) (m : Exec ε ω σ α) : Prop :=
  ∀ s s', R s s' → Alike m (fun _ => R) R s s'

section Keeps

variable {R : σ → σ → Prop} {m : Exec ε ω σ α} {f : α → Exec ε ω σ β} {e : ε}

theorem keeps_pure {a : α} : Keeps R (pure a : Exec ε ω σ α) := fun _ _ h => ⟨rfl, h⟩

theorem keeps_halt : Keeps R (halt e : Exec ε ω σ α) := fun _ _ h => ⟨rfl, h⟩

theorem keeps_tell {w : ω} : Keeps R (tell w : Exec ε ω σ Unit) := fun _ _ h => ⟨rfl, h⟩

theorem keeps_gets {g : σ → α} (hg : ∀ s s', R s s' → g s' = g s) :
    Keeps R (gets g : Exec ε ω σ α) := fun s s' h => ⟨hg s s' h, h⟩

theorem keeps_modify {g : σ → σ} (hg : ∀ s s', R s s' → R (g s) (g s')) :
    Keeps R (modify g : Exec ε ω σ Unit) := fun s s' h => ⟨rfl, hg s s' h⟩

theorem keeps_demand {x : Option α} : Keeps R (demand e x : Exec ε ω σ α) := by
  cases x with
  | none => exact keeps_halt
  | some a => exact keeps_pure

theorem Keeps.bind (hm : Keeps R m) (hf : ∀ a, Keeps R (f a)) : Keeps R (m >>= f) :=
  fun s s' h => (hm s s' h).bind fun a t t' ht => hf a t t' ht

theorem Keeps.when {c : Bool} (hm : Keeps R m) : Keeps R (when c m) := by
  cases c with
  | false => exact keeps_pure
  | true => exact hm.bind fun _ => keeps_pure

theorem Keeps.states (hm : Keeps R m) {s s' : σ} (h : R s s') : R (m s).state (m s').state :=
  (hm s s' h).states

theorem state_of_keeps (hm : ∀ R : σ → σ → Prop, Keeps R m) (s : σ) : (m s).state = s :=
  ((hm fun t _ => t = s) s s rfl).states

theorem Returns.state_of_keeps {s t : σ} {a : α} (h : Returns m s a t)
    (hm : ∀ R : σ → σ → Prop, Keeps R m) : t = s :=
  h.2.symm.trans (Exec.state_of_keeps hm s)

end Keeps

end EvioTool.Lib.Exec
