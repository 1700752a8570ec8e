import EvioTool.Lib.Alike

/-! Postconditions of executions, and runs of one operation after the other. -/

namespace EvioTool.Lib.Exec

variable {ε ω σ τ ι α β : Type}

def Ends (m : Exec ε ω σ α) (Q : α → σ → Prop) (E : σ → Prop) (s : σ) : Prop :=
  match (m s).out with
  | .ok a => Q a (m s).state
  | .error _ => E (m s).state

section Ends

variable {m : Exec ε ω σ α} {f : α → Exec ε ω σ β} {Q R : α → σ → Prop} {E F : σ → Prop} {s t : σ}
  {a : α} {e : ε}

@[simp] theorem ends_pure : Ends (pure a : Exec ε ω σ α) Q E s ↔ Q a s := Iff.rfl

@[simp] theorem ends_halt : Ends (halt e : Exec ε ω σ α) Q E s ↔ E s := Iff.rfl

@[simp] theorem ends_tell {w : ω} {Q : Unit → σ → Prop} :
    Ends (tell w : Exec ε ω σ Unit) Q E s ↔ Q () s := Iff.rfl

@[simp] theorem ends_gets {g : σ → α} : Ends (gets g : Exec ε ω σ α) Q E s ↔ Q (g s) s := Iff.rfl

@[simp] theorem ends_modify {g : σ → σ} {Q : Unit → σ → Prop} :
    Ends (modify g : Exec ε ω σ Unit) Q E s ↔ Q () (g s) := Iff.rfl

@[simp] theorem ends_bind {Q : β → σ → Prop} :
    Ends (m >>= f) Q E s ↔ Ends m (fun a t => Ends (f a) Q E t) E s := by
  cases ho : (m s).out with
  | ok a => simp only [Ends, bind_of_ok ho, ho]
  | error e => simp only [Ends, bind_of_error ho, ho]

theorem ends_demand {x : Option α} :
    Ends (demand e x : Exec ε ω σ α) Q E s ↔ (∀ a, x = some a → Q a s) ∧ (x = none → E s) := by
  cases x <;> simp

theorem Ends.mono (h : Ends m Q E s) (hQ : ∀ a t, Q a t → R a t) (hE : ∀ t, E t → F t) :
    Ends m R F s := by
  unfold Ends at *
  cases ho : (m s).out with
  | ok a =>
    rw [ho] at h
    exact hQ _ _ h
  | error e =>
    rw [ho] at h
    exact hE _ h

theorem Ends.and (h : Ends m Q E s) (h' : Ends m R F s) :
    Ends m (fun a t => Q a t ∧ R a t) (fun t => E t ∧ F t) s := by
  unfold Ends at *
  cases ho : (m s).out with
  | ok a =>
    rw [ho] at h h'
    exact ⟨h, h'⟩
  | error e =>
    rw [ho] at h h'
    exact ⟨h, h'⟩

theorem Ends.of_all (hQ : ∀ a t, Q a t) (hE : ∀ t, E t) : Ends m Q E s := by
  unfold Ends
  cases (m s).out with
  | ok a => exact hQ _ _
  | error e => exact hE _

theorem Ends.of_returns (h : Ends m Q E s) (hr : Returns m s a t) : Q a t := by
  obtain ⟨ho, rfl⟩ := hr
  simpa [Ends, ho] using h

theorem Returns.ends {t : σ} (h : Returns m s a t) (hQ : Q a t) : Ends m Q E s := by
  obtain ⟨ho, rfl⟩ := h
  simpa [Ends, ho] using hQ

theorem ends_of (hQ : ∀ a t, Returns m s a t → Q a t) (hE : E (m s).state) : Ends m Q E s := by
  unfold Ends
  cases ho : (m s).out with
  | ok a => exact hQ a _ ⟨ho, rfl⟩
  | error e => exact hE

theorem ends_self : Ends m (fun _ t => t = (m s).state) (fun t => t = (m s).state) s := by
  unfold Ends
  split <;> rfl

theorem Ends.state {J : σ → Prop} (h : Ends m Q J s) (hQ : ∀ a t, Q a t → J t) :
    J (m s).state := by
  unfold Ends at h
  cases ho : (m s).out with
  | ok a =>
    rw [ho] at h
    exact hQ _ _ h
  | error e =>
    rw [ho] at h
    exact h

@[simp] theorem ends_when_false {Q : Unit → σ → Prop} : Ends (when false m) Q E s ↔ Q () s := Iff.rfl

theorem Ends.when {Q : Unit → σ → Prop} {c : Bool} (hm : c = true → Ends m (fun _ => Q ()) E s)
    (hs : c = false → Q () s) : Ends (when c m) Q E s := by
  cases c with
  | false => exact hs rfl
  | true =>
    simp only [Exec.when, if_true, ends_bind, ends_pure]
    exact hm rfl

end Ends

structure Traces (P : ω → Prop) (Q : α → σ → Prop) (m : Exec ε ω σ α) (s : σ) : Prop where
  logs : Logs P m s
  ends : ∀ a t, Returns m s a t → Q a t

section Traces

variable {P : ω → Prop} {Q R : α → σ → Prop} {m : Exec ε ω σ α} {f : α → Exec ε ω σ β} {s : σ}
  {a : α} {e : ε}

theorem traces_pure (h : Q a s) : Traces P Q (pure a : Exec ε ω σ α) s := by
  refine ⟨logs_pure, fun b t hr => ?_⟩
  obtain ⟨rfl, rfl⟩ := returns_pure.mp hr
  exact h

theorem traces_tell {w : ω} {Q : Unit → σ → Prop} (hw : P w) (h : Q () s) :
    Traces P Q (tell w : Exec ε ω σ Unit) s := by
  refine ⟨logs_tell.mpr hw, fun b t hr => ?_⟩
  obtain rfl := returns_tell.mp hr
  exact h

theorem traces_modify {g : σ → σ} {Q : Unit → σ → Prop} (h : Q () (g s)) :
    Traces P Q (modify g : Exec ε ω σ Unit) s := by
  refine ⟨logs_modify, fun b t hr => ?_⟩
  obtain rfl := returns_modify.mp hr
  exact h

theorem Traces.mono (h : Traces P Q m s) (hQ : ∀ a t, Q a t → R a t) : Traces P R m s :=
  ⟨h.logs, fun a t hr => hQ a t (h.ends a t hr)⟩

theorem Traces.bind {Q : β → σ → Prop} (hm : Traces P R m s)
    (hf : ∀ a t, R a t → Traces P Q (f a) t) : Traces P Q (m >>= f) s := by
  refine ⟨hm.logs.bind fun a t hr => (hf a t (hm.ends a t hr)).logs, fun b u hr => ?_⟩
  obtain ⟨a, t, ha, hb⟩ := returns_bind.mp hr
  exact (hf a t (hm.ends a t ha)).ends b u hb

theorem Traces.gets_bind {g : σ → τ} {f : τ → Exec ε ω σ β} {Q : β → σ → Prop}
    (h : Traces P Q (f (g s)) s) : Traces P Q (gets g >>= f) s := by
  refine ⟨?_, fun b u hr => ?_⟩
  · intro w hw
    rw [gets_bind_apply] at hw
    exact h.logs w hw
  · rw [returns_congr (gets_bind_apply g f s)] at hr
    exact h.ends b u hr

theorem Traces.zoom {m : Exec ε ω τ α} {part : σ → Option τ} {put : τ → σ → σ} {R : α → τ → Prop}
    (hm : ∀ x, part s = some x → Traces P R m x)
    (hQ : ∀ x a y, part s = some x → R a y → Q a (put y s)) :
    Traces P Q (zoom part put e m) s := by
  refine ⟨logs_zoom.mpr fun x hx => (hm x hx).logs, fun a t hr => ?_⟩
  obtain ⟨x, y, hx, hxy, rfl⟩ := returns_zoom.mp hr
  exact hQ x a y hx ((hm x hx).ends a y hxy)

theorem traces_mapLog {ω' : Type} {P : ω' → Prop} {g : ω → ω'} (hP : ∀ w, P (g w))
    (hQ : ∀ a t, Returns m s a t → Q a t) : Traces P Q (mapLog g m) s :=
  ⟨logs_mapLog.mpr fun w _ => hP w, fun a t hr => hQ a t (returns_mapLog.mp hr)⟩

theorem Traces.mapLog {ω' : Type} {P' : ω' → Prop} {g : ω → ω'} (h : Traces P Q m s)
    (hP : ∀ w, P w → P' (g w)) : Traces P' Q (mapLog g m) s :=
  ⟨logs_mapLog.mpr fun w hw => hP w (h.logs w hw), fun a t hr => h.ends a t (returns_mapLog.mp hr)⟩

end Traces

/-- However the execution ends, the state is in `I` if it was before. -/
def Preserves (I : σ → Prop) (m : Exec ε ω σ α) : Prop := ∀ s, I s → I (m s).state

section Preserves

variable {I : σ → Prop} {m : Exec ε ω σ α} {f : α → Exec ε ω σ β} {s t : σ} {a : α} {e : ε}

theorem preserves_of_state (h : ∀ s, (m s).state = s) : Preserves I m := fun s hs => by rwa [h s]

theorem preserves_pure : Preserves I (pure a : Exec ε ω σ α) := preserves_of_state fun _ => rfl

theorem preserves_halt : Preserves I (halt e : Exec ε ω σ α) := preserves_of_state fun _ => rfl

theorem preserves_modify {g : σ → σ} (hg : ∀ s, I s → I (g s)) :
    Preserves I (modify g : Exec ε ω σ Unit) := hg

theorem Preserves.bind (hm : Preserves I m) (hf : ∀ a, Preserves I (f a)) :
    Preserves I (m >>= f) := by
  intro s hs
  cases ho : (m s).out with
  | error e =>
    rw [bind_of_error ho]
    exact hm s hs
  | ok a =>
    rw [bind_of_ok ho]
    exact hf a _ (hm s hs)

theorem Preserves.when {c : Bool} (hm : Preserves I m) : Preserves I (when c m) := by
  cases c with
  | false => exact preserves_pure
  | true => exact hm.bind fun _ => preserves_pure

theorem Keeps.preserves (h : Keeps (fun s s' => s' = s ∧ I s) m) : Preserves I m :=
  fun _ hs => (h.states ⟨rfl, hs⟩).2

theorem Preserves.returns (h : Preserves I m) (hr : Returns m s a t) (hs : I s) : I t :=
  hr.2 ▸ h s hs

end Preserves

def run (step : ι → Exec ε ω σ Unit) : List ι → Exec ε ω σ Unit
  | [] => pure ()
  | o :: os => step o >>= fun _ => run step os

/-- Every operation of the run is carried out in a state that meets its condition. -/
def Meets (step : ι → Exec ε ω σ Unit) (C : ι → σ → Prop) : List ι → σ → Prop
  | [], _ => True
  | o :: os, s => C o s ∧ ∀ t, Returns (step o) s () t → Meets step C os t

/-- After every operation that the run carries out, its property holds. -/
def After (step : ι → Exec ε ω σ Unit) (Q : ι → σ → Prop) : List ι → σ → Prop
  | [], _ => True
  | o :: os, s => ∀ t, Returns (step o) s () t → Q o t ∧ After step Q os t

section Runs

variable {step : ι → Exec ε ω σ Unit} {C D : ι → σ → Prop} {I J : σ → Prop} {o : ι} {ops : List ι}
  {s t u : σ}

theorem Meets.of_forall (h : ∀ o ∈ ops, ∀ t, C o t) : Meets step C ops s := by
  induction ops generalizing s with
  | nil => trivial
  | cons o os ih =>
    exact ⟨h o (.head _) s, fun t _ => ih fun o' ho' => h o' (.tail _ ho')⟩

theorem after_iff_meets {Q : ι → σ → Prop} (hs : I s)
    (hgood : ∀ o ∈ ops, ∀ s t, I s → C o s → Returns (step o) s () t → I t ∧ Q o t)
    (hbad : ∀ o ∈ ops, ∀ s, I s → ¬C o s → ∃ t, Returns (step o) s () t ∧ ¬Q o t) :
    After step Q ops s ↔ Meets step C ops s := by
  induction ops generalizing s with
  | nil => exact Iff.rfl
  | cons o os ih =>
    have ih {t : σ} (ht : I t) : After step Q os t ↔ Meets step C os t :=
      ih ht (fun o' ho' => hgood o' (.tail _ ho')) fun o' ho' => hbad o' (.tail _ ho')
    constructor
    · intro h
      have hC : C o s := Classical.byContradiction fun hC => by
        obtain ⟨t, ht, hQ⟩ := hbad o (.head _) s hs hC
        exact hQ (h t ht).1
      exact ⟨hC, fun t ht => (ih (hgood o (.head _) s t hs hC ht).1).mp (h t ht).2⟩
    · rintro ⟨hC, h⟩ t ht
      obtain ⟨hI, hQ⟩ := hgood o (.head _) s t hs hC ht
      exact ⟨hQ, (ih hI).mpr (h t ht)⟩

/-- An invariant of the operations is one of the runs; `J` is what is left of it when
an operation stops. -/
theorem run_invariant
    (hstep : ∀ o s, I s → C o s → Ends (step o) (fun _ => I) J s) (hs : I s)
    (h : Meets step C ops s) : Ends (run step ops) (fun _ => I) J s := by
  induction ops generalizing s with
  | nil => exact hs
  | cons o os ih =>
    rw [run, ends_bind]
    have ho := hstep o s hs h.1
    unfold Ends at ho ⊢
    cases hout : (step o s).out with
    | ok a =>
      rw [hout] at ho
      exact ih ho (h.2 _ ⟨hout, rfl⟩)
    | error e =>
      rw [hout] at ho
      exact ho

theorem run_last (hstep : ∀ o s t, I s → C o s → Returns (step o) s () t → I t) (hs : I s)
    (h : Meets step C (ops ++ [o]) s) (hr : Returns (run step (ops ++ [o])) s () u) :
    ∃ t, I t ∧ C o t ∧ Returns (step o) t () u := by
  induction ops generalizing s with
  | nil =>
    obtain ⟨_, t, ht, hu⟩ := returns_bind.mp hr
    obtain ⟨-, rfl⟩ := returns_pure.mp hu
    exact ⟨s, hs, h.1, ht⟩
  | cons p ps ih =>
    obtain ⟨_, t, ht, hu⟩ := returns_bind.mp hr
    exact ih (hstep p s t hs h.1 ht) (h.2 t ht) hu

theorem run_state (hIJ : ∀ s, I s → J s)
    (hstep : ∀ o s, I s → C o s → Ends (step o) (fun _ => I) J s) (hs : I s)
    (h : Meets step C ops s) : J (run step ops s).state :=
  (run_invariant hstep hs h).state fun _ => hIJ

end Runs

end EvioTool.Lib.Exec

namespace EvioTool.Lib

inductive Steps {σ γ : Type} (R : σ → γ → σ → Prop) : σ → List γ → σ → Prop
  | nil {s : σ} : Steps R s [] s
  | cons {s t u : σ} {c : γ} {cs : List γ} : R s c t → Steps R t cs u → Steps R s (c :: cs) u

theorem Steps.append {σ γ : Type} {R : σ → γ → σ → Prop} {s t u : σ} {cs ds : List γ}
    (h : Steps R s cs t) (h' : Steps R t ds u) : Steps R s (cs ++ ds) u := by
  induction h with
  | nil => exact h'
  | cons hstep _ ih => exact .cons hstep (ih h')

end EvioTool.Lib

namespace EvioTool.Lib

variable {γ : Type} {P R : List γ → γ → Prop} {c : γ} {cs : List γ}

/-- Every entry of a history, the latest first, was made in keeping with `P` after the
entries before it. -/
def Always (P : List γ → γ → Prop) : List γ → Prop
  | [] => True
  | c :: cs => P cs c ∧ Always P cs

@[simp] theorem always_nil : Always P [] := trivial

@[simp] theorem always_cons : Always P (c :: cs) ↔ P cs c ∧ Always P cs := Iff.rfl

end EvioTool.Lib
