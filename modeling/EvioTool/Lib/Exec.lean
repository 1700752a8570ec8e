/-! Executions that may stop early.  An execution runs on a state, appends to a
log and ends with a value or with a reason to stop; the state and the log of a
stopped execution are kept, so a property of a prefix of a run can be stated. -/

namespace EvioTool.Lib

structure Outcome (ε ω σ α : Type) where
  out : Except ε α
  state : σ
  log : List ω

def Exec (ε ω σ α : Type) : Type := σ → Outcome ε ω σ α

namespace Exec

variable {ε ω σ τ α β : Type}

protected def pure (a : α) : Exec ε ω σ α := fun s => ⟨.ok a, s, []⟩

protected def bind (m : Exec ε ω σ α) (f : α → Exec ε ω σ β) : Exec ε ω σ β := fun s =>
  match m s with
  | ⟨.ok a, t, l⟩ => let r := f a t; ⟨r.out, r.state, l ++ r.log⟩
  | ⟨.error e, t, l⟩ => ⟨.error e, t, l⟩

instance : Monad (Exec ε ω σ) where
  pure := Exec.pure
  bind := Exec.bind

def halt (e : ε) : Exec ε ω σ α := fun s => ⟨.error e, s, []⟩

def tell (w : ω) : Exec ε ω σ Unit := fun s => ⟨.ok (), s, [w]⟩

def get : Exec ε ω σ σ := fun s => ⟨.ok s, s, []⟩

def gets (f : σ → τ) : Exec ε ω σ τ := fun s => ⟨.ok (f s), s, []⟩

def modify (f : σ → σ) : Exec ε ω σ Unit := fun s => ⟨.ok (), f s, []⟩

def when (c : Bool) (m : Exec ε ω σ α) : Exec ε ω σ Unit :=
  if c then m >>= fun _ => pure () else pure ()

def each (f : α → Exec ε ω σ β) : List α → Exec ε ω σ (List β)
  | [] => pure []
  | a :: as => do
    let b ← f a
    let bs ← each f as
    pure (b :: bs)

def demand (e : ε) (x : Option α) : Exec ε ω σ α :=
  match x with
  | some a => pure a
  | none => halt e

def ofExcept : Except ε α → Exec ε ω σ α
  | .ok a => pure a
  | .error e => halt e

def zoom (part : σ → Option τ) (put : τ → σ → σ) (e : ε) (m : Exec ε ω τ α) : Exec ε ω σ α :=
  fun s => match part s with
    | some t => let r := m t; ⟨r.out, put r.state s, r.log⟩
    | none => ⟨.error e, s, []⟩

def mapLog {ω' : Type} (g : ω → ω') (m : Exec ε ω σ α) : Exec ε ω' σ α :=
  fun s => let r := m s; ⟨r.out, r.state, r.log.map g⟩

def quietly {ε' ω' : Type} (g : ε → ε') (m : Exec ε ω σ α) : Exec ε' ω' σ α :=
  fun s => let r := m s; ⟨r.out.mapError g, r.state, []⟩

@[simp] theorem pure_apply (a : α) (s : σ) : (pure a : Exec ε ω σ α) s = ⟨.ok a, s, []⟩ := rfl

@[simp] theorem halt_apply (e : ε) (s : σ) : (halt e : Exec ε ω σ α) s = ⟨.error e, s, []⟩ := rfl

@[simp] theorem tell_apply (w : ω) (s : σ) : (tell w : Exec ε ω σ Unit) s = ⟨.ok (), s, [w]⟩ := rfl

@[simp] theorem get_apply (s : σ) : (get : Exec ε ω σ σ) s = ⟨.ok s, s, []⟩ := rfl

@[simp] theorem gets_apply (f : σ → τ) (s : σ) :
    (gets f : Exec ε ω σ τ) s = ⟨.ok (f s), s, []⟩ := rfl

@[simp] theorem modify_apply (f : σ → σ) (s : σ) :
    (modify f : Exec ε ω σ Unit) s = ⟨.ok (), f s, []⟩ := rfl

@[simp] theorem demand_some (e : ε) (a : α) : (demand e (some a) : Exec ε ω σ α) = pure a := rfl

@[simp] theorem demand_none (e : ε) : (demand e none : Exec ε ω σ α) = halt e := rfl

@[simp] theorem ofExcept_ok (a : α) : (ofExcept (.ok a) : Exec ε ω σ α) = pure a := rfl

@[simp] theorem ofExcept_error (e : ε) : (ofExcept (.error e) : Exec ε ω σ α) = halt e := rfl

theorem bind_of_ok {m : Exec ε ω σ α} {f : α → Exec ε ω σ β} {s : σ} {a : α}
    (h : (m s).out = .ok a) :
    (m >>= f) s = ⟨(f a (m s).state).out, (f a (m s).state).state,
      (m s).log ++ (f a (m s).state).log⟩ := by
  change Exec.bind m f s = _
  rcases hm : m s with ⟨o, t, l⟩
  rw [hm] at h
  subst h
  simp only [Exec.bind, hm]

theorem bind_of_error {m : Exec ε ω σ α} {f : α → Exec ε ω σ β} {s : σ} {e : ε}
    (h : (m s).out = .error e) : (m >>= f) s = ⟨.error e, (m s).state, (m s).log⟩ := by
  change Exec.bind m f s = _
  rcases hm : m s with ⟨o, t, l⟩
  rw [hm] at h
  subst h
  simp only [Exec.bind, hm]

theorem out_bind_of_error {m : Exec ε ω σ α} {f : α → Exec ε ω σ β} {s : σ} {e : ε}
    (h : (m s).out = .error e) : ((m >>= f) s).out = .error e := by
  rw [bind_of_error h]

@[simp] theorem pure_bind (a : α) (f : α → Exec ε ω σ β) : (pure a >>= f) = f a := by
  funext s
  rw [bind_of_ok rfl]
  rfl

@[simp] theorem halt_bind (e : ε) (f : α → Exec ε ω σ β) : (halt e >>= f) = halt e := by
  funext s
  rw [bind_of_error rfl]
  rfl

@[simp] theorem get_bind_apply (f : σ → Exec ε ω σ β) (s : σ) : (get >>= f) s = f s s := by
  rw [bind_of_ok rfl]
  rfl

@[simp] theorem gets_bind_apply (g : σ → τ) (f : τ → Exec ε ω σ β) (s : σ) :
    (gets g >>= f) s = f (g s) s := by
  rw [bind_of_ok rfl]
  rfl

@[simp] theorem modify_bind_apply (g : σ → σ) (f : Unit → Exec ε ω σ β) (s : σ) :
    (modify g >>= f) s = f () (g s) := by
  rw [bind_of_ok rfl]
  rfl

theorem bind_assoc {γ : Type} (m : Exec ε ω σ α) (f : α → Exec ε ω σ β) (g : β → Exec ε ω σ γ) :
    (m >>= f >>= g) = m >>= fun a => f a >>= g := by
  funext s
  cases ho : (m s).out with
  | error e =>
    rw [bind_of_error ho, bind_of_error (out_bind_of_error ho), bind_of_error ho]
  | ok a =>
    have hmf := bind_of_ok (f := f) ho
    cases hf : (f a (m s).state).out with
    | error e =>
      rw [bind_of_ok ho, bind_of_error hf, bind_of_error (e := e) (by rw [hmf]; exact hf), hmf]
    | ok b =>
      rw [bind_of_ok ho, bind_of_ok hf, bind_of_ok (a := b) (by rw [hmf]; exact hf), hmf,
        List.append_assoc]

@[simp] theorem bind_pure (m : Exec ε ω σ α) : (m >>= fun a => pure a) = m := by
  funext s
  rcases hm : m s with ⟨o, t, l⟩
  cases o with
  | error e => rw [bind_of_error (e := e) (by rw [hm]), hm]
  | ok a => rw [bind_of_ok (a := a) (by rw [hm]), hm]; simp

/-- Started in `s`, the execution ends with the value `a` in the state `t`. -/
def Returns (m : Exec ε ω σ α) (s : σ) (a : α) (t : σ) : Prop :=
  (m s).out = .ok a ∧ (m s).state = t

section Returns

variable {m : Exec ε ω σ α} {f : α → Exec ε ω σ β} {s t u : σ} {a : α} {b : β} {e : ε}

@[simp] theorem returns_pure {a' : α} :
    Returns (pure a : Exec ε ω σ α) s a' t ↔ a' = a ∧ t = s := by
  simp [Returns, eq_comm]

@[simp] theorem returns_halt : ¬Returns (halt e : Exec ε ω σ α) s a t := by
  simp [Returns]

@[simp] theorem returns_tell {w : ω} {r : Unit} :
    Returns (tell w : Exec ε ω σ Unit) s r t ↔ t = s := by
  simp [Returns, eq_comm]

@[simp] theorem returns_gets {g : σ → τ} {a : τ} :
    Returns (gets g : Exec ε ω σ τ) s a t ↔ a = g s ∧ t = s := by
  simp [Returns, eq_comm]

@[simp] theorem returns_modify {g : σ → σ} {r : Unit} :
    Returns (modify g : Exec ε ω σ Unit) s r t ↔ t = g s := by
  simp [Returns, eq_comm]

@[simp] theorem returns_demand {x : Option α} :
    Returns (demand e x : Exec ε ω σ α) s a t ↔ x = some a ∧ t = s := by
  cases x <;> simp [eq_comm]

theorem Returns.bind (hm : Returns m s a t) (hf : Returns (f a) t b u) :
    Returns (m >>= f) s b u := by
  obtain ⟨ho, hs⟩ := hm
  subst hs
  rw [Returns, bind_of_ok ho]
  exact hf

theorem Returns.bind_iff (hm : Returns m s a t) :
    Returns (m >>= f) s b u ↔ Returns (f a) t b u := by
  obtain ⟨ho, rfl⟩ := hm
  rw [Returns, bind_of_ok ho, Returns]

theorem Returns.out_bind (hm : Returns m s a t) : ((m >>= f) s).out = (f a t).out := by
  obtain ⟨ho, rfl⟩ := hm
  rw [bind_of_ok ho]

@[simp] theorem returns_bind :
    Returns (m >>= f) s b u ↔ ∃ a t, Returns m s a t ∧ Returns (f a) t b u := by
  constructor
  · intro h
    cases ho : (m s).out with
    | error e =>
      rw [Returns, bind_of_error ho] at h
      cases h.1
    | ok a =>
      rw [Returns, bind_of_ok ho] at h
      exact ⟨a, (m s).state, ⟨ho, rfl⟩, h⟩
  · rintro ⟨a, t, hm, hf⟩
    exact hm.bind hf

@[simp] theorem returns_zoom {m : Exec ε ω τ α} {part : σ → Option τ} {put : τ → σ → σ} :
    Returns (zoom part put e m) s a t ↔
      ∃ x y, part s = some x ∧ Returns m x a y ∧ t = put y s := by
  cases hp : part s with
  | none => simp [Returns, zoom, hp]
  | some x =>
    simp only [Returns, zoom, hp, Option.some.injEq]
    constructor
    · rintro ⟨ho, rfl⟩
      exact ⟨x, _, rfl, ⟨ho, rfl⟩, rfl⟩
    · rintro ⟨x, y, rfl, ⟨ho, rfl⟩, rfl⟩
      exact ⟨ho, rfl⟩

@[simp] theorem returns_mapLog {ω' : Type} {g : ω → ω'} :
    Returns (mapLog g m) s a t ↔ Returns m s a t := Iff.rfl

@[simp] theorem returns_quietly {ε' ω' : Type} {g : ε → ε'} :
    Returns (quietly g m : Exec ε' ω' σ α) s a t ↔ Returns m s a t := by
  refine and_congr_left fun _ => ?_
  change (m s).out.mapError g = .ok a ↔ (m s).out = .ok a
  cases (m s).out with
  | error e =>
    constructor <;>
      · intro h
        cases h
  | ok b =>
    constructor <;>
      · intro h
        cases h
        rfl

@[simp] theorem returns_when_false {r : Unit} : Returns (when false m) s r t ↔ t = s := by
  simp [when]

@[simp] theorem returns_when_true {r : Unit} :
    Returns (when true m) s r t ↔ ∃ a, Returns m s a t := by
  simp [when]

theorem returns_congr {m' : Exec ε ω σ α} (h : m s = m' s) : Returns m s a t ↔ Returns m' s a t := by
  rw [Returns, h, Returns]

theorem Returns.det {a' : α} {t' : σ} (h : Returns m s a t) (h' : Returns m s a' t') :
    a' = a ∧ t' = t := by
  obtain ⟨ho, hs⟩ := h
  obtain ⟨ho', hs'⟩ := h'
  rw [ho] at ho'
  cases ho'
  exact ⟨rfl, hs'.symm.trans hs⟩

theorem exists_returns_of_isOk (h : (m s).out.isOk) : ∃ a, Returns m s a (m s).state := by
  cases ho : (m s).out with
  | ok a => exact ⟨a, ho, rfl⟩
  | error e =>
    rw [ho] at h
    cases h

theorem returns_of_isOk {m : Exec ε ω σ Unit} (h : (m s).out.isOk) : Returns m s () (m s).state := by
  obtain ⟨⟨⟩, hm⟩ := exists_returns_of_isOk h
  exact hm

end Returns

/-- Every entry that is logged from `s` satisfies `P`. -/
def Logs (P : ω → Prop) (m : Exec ε ω σ α) (s : σ) : Prop := ∀ w ∈ (m s).log, P w

section Logs

variable {P : ω → Prop} {m : Exec ε ω σ α} {f : α → Exec ε ω σ β} {s : σ} {e : ε}

@[simp] theorem logs_pure {a : α} : Logs P (pure a : Exec ε ω σ α) s := by
  simp [Logs]

@[simp] theorem logs_halt : Logs P (halt e : Exec ε ω σ α) s := by
  simp [Logs]

@[simp] theorem logs_tell {w : ω} : Logs P (tell w : Exec ε ω σ Unit) s ↔ P w := by
  simp [Logs]

@[simp] theorem logs_gets {g : σ → τ} : Logs P (gets g : Exec ε ω σ τ) s := by
  simp [Logs]

@[simp] theorem logs_modify {g : σ → σ} : Logs P (modify g : Exec ε ω σ Unit) s := by
  simp [Logs]

@[simp] theorem logs_demand {x : Option α} : Logs P (demand e x : Exec ε ω σ α) s := by
  cases x <;> simp

@[simp] theorem logs_ofExcept {x : Except ε α} : Logs P (ofExcept x : Exec ε ω σ α) s := by
  cases x <;> simp

theorem logs_bind : Logs P (m >>= f) s ↔
    Logs P m s ∧ ∀ a t, Returns m s a t → Logs P (f a) t := by
  cases ho : (m s).out with
  | error e =>
    simp only [Logs, bind_of_error ho, Returns, ho]
    simp
  | ok a =>
    simp only [Logs, bind_of_ok ho, Returns, ho, List.mem_append, Except.ok.injEq]
    constructor
    · rintro h
      refine ⟨fun w hw => h w (.inl hw), ?_⟩
      rintro _ _ ⟨rfl, rfl⟩ w hw
      exact h w (.inr hw)
    · rintro ⟨hm, hf⟩ w (hw | hw)
      · exact hm w hw
      · exact hf a _ ⟨rfl, rfl⟩ w hw

theorem Logs.bind (hm : Logs P m s) (hf : ∀ a t, Returns m s a t → Logs P (f a) t) :
    Logs P (m >>= f) s :=
  logs_bind.mpr ⟨hm, hf⟩

theorem Returns.logs_bind {a : α} {t : σ} (hm : Returns m s a t) :
    Logs P (m >>= f) s ↔ Logs P m s ∧ Logs P (f a) t := by
  rw [Exec.logs_bind]
  constructor
  · exact fun ⟨h, hf⟩ => ⟨h, hf a t hm⟩
  · rintro ⟨h, hf⟩
    refine ⟨h, fun a' t' hm' => ?_⟩
    obtain ⟨rfl, rfl⟩ := hm.det hm'
    exact hf

theorem logs_zoom {m : Exec ε ω τ α} {part : σ → Option τ} {put : τ → σ → σ} :
    Logs P (zoom part put e m) s ↔ ∀ x, part s = some x → Logs P m x := by
  cases hp : part s with
  | none => simp [Logs, zoom, hp]
  | some x => simp [Logs, zoom, hp]

theorem Logs.zoom {m : Exec ε ω τ α} {part : σ → Option τ} {put : τ → σ → σ}
    (hm : ∀ x, Logs P m x) : Logs P (zoom part put e m) s :=
  logs_zoom.mpr fun x _ => hm x

theorem logs_mapLog {ω' : Type} {P : ω' → Prop} {g : ω → ω'} :
    Logs P (mapLog g m) s ↔ Logs (fun w => P (g w)) m s := List.forall_mem_map

theorem Logs.when {c : Bool} (hm : Logs P m s) : Logs P (when c m) s := by
  cases c with
  | false => simp [Exec.when]
  | true => exact hm.bind fun _ _ _ => logs_pure

end Logs

def Runs (P : ω → Prop) (m : Exec ε ω σ α) (s : σ) (a : α) (t : σ) : Prop :=
  Returns m s a t ∧ Logs P m s

section Runs

variable {P : ω → Prop} {m : Exec ε ω σ α} {f : α → Exec ε ω σ β} {s t u : σ} {a : α} {b : β}
  {e : ε}

@[simp] theorem runs_pure {a' : α} :
    Runs P (pure a : Exec ε ω σ α) s a' t ↔ a' = a ∧ t = s := by
  simp [Runs]

@[simp] theorem runs_halt : ¬Runs P (halt e : Exec ε ω σ α) s a t := by
  simp [Runs]

@[simp] theorem runs_tell {w : ω} {r : Unit} :
    Runs P (tell w : Exec ε ω σ Unit) s r t ↔ P w ∧ t = s := by
  simp [Runs, and_comm]

@[simp] theorem runs_gets {g : σ → τ} {a : τ} :
    Runs P (gets g : Exec ε ω σ τ) s a t ↔ a = g s ∧ t = s := by
  simp [Runs]

@[simp] theorem runs_modify {g : σ → σ} {r : Unit} :
    Runs P (modify g : Exec ε ω σ Unit) s r t ↔ t = g s := by
  simp [Runs]

@[simp] theorem runs_demand {x : Option α} :
    Runs P (demand e x : Exec ε ω σ α) s a t ↔ x = some a ∧ t = s := by
  simp [Runs]

theorem Returns.runs (h : Returns m s a t) : Runs (fun _ => True) m s a t :=
  ⟨h, fun _ _ => trivial⟩

theorem Runs.det {a' : α} {t' : σ} (h : Runs P m s a t) (h' : Runs P m s a' t') :
    a' = a ∧ t' = t := h.1.det h'.1

theorem Runs.bind (hm : Runs P m s a t) (hf : Runs P (f a) t b u) : Runs P (m >>= f) s b u :=
  ⟨hm.1.bind hf.1, hm.1.logs_bind.mpr ⟨hm.2, hf.2⟩⟩

@[simp] theorem runs_bind :
    Runs P (m >>= f) s b u ↔ ∃ a t, Runs P m s a t ∧ Runs P (f a) t b u := by
  constructor
  · rintro ⟨hr, hl⟩
    obtain ⟨a, t, hm, hf⟩ := returns_bind.mp hr
    obtain ⟨hlm, hlf⟩ := logs_bind.mp hl
    exact ⟨a, t, ⟨hm, hlm⟩, hf, hlf a t hm⟩
  · rintro ⟨a, t, hm, hf⟩
    exact hm.bind hf

theorem exists_runs_bind_iff {m : Exec ε ω Unit α} {f : α → Exec ε ω Unit β} :
    (∃ b, Runs P (m >>= f) () b ()) ↔ ∃ a, Runs P m () a () ∧ ∃ b, Runs P (f a) () b () := by
  simp only [runs_bind]
  constructor
  · rintro ⟨b, a, ⟨⟩, hm, hf⟩
    exact ⟨a, hm, b, hf⟩
  · rintro ⟨a, hm, b, hf⟩
    exact ⟨b, a, (), hm, hf⟩

theorem Runs.exists_bind_iff {m : Exec ε ω Unit α} {f : α → Exec ε ω Unit β}
    (hm : Runs P m () a ()) : (∃ b, Runs P (m >>= f) () b ()) ↔ ∃ b, Runs P (f a) () b () := by
  rw [exists_runs_bind_iff]
  constructor
  · rintro ⟨a', hm', hf⟩
    rwa [(hm.det hm').1] at hf
  · exact fun hf => ⟨a, hm, hf⟩

@[simp] theorem runs_when_false {r : Unit} : Runs P (when false m) s r t ↔ t = s := by
  simp [when]

@[simp] theorem runs_when_true {r : Unit} : Runs P (when true m) s r t ↔ ∃ a, Runs P m s a t := by
  simp [when]

end Runs

/-- A run from `s` that stops does so for a reason in `E`, or has logged an entry that
satisfies `Q`. -/
def Stops (E : ε → Prop) (Q : ω → Prop) (m : Exec ε ω σ α) (s : σ) : Prop :=
  ∀ e, (m s).out = .error e → E e ∨ ∃ w ∈ (m s).log, Q w

section Stops

variable {E : ε → Prop} {Q : ω → Prop} {m : Exec ε ω σ α} {f : α → Exec ε ω σ β} {s : σ} {e : ε}

@[simp] theorem stops_pure {a : α} : Stops E Q (pure a : Exec ε ω σ α) s := by
  simp [Stops]

@[simp] theorem stops_halt : Stops E Q (halt e : Exec ε ω σ α) s ↔ E e := by
  simp [Stops]

@[simp] theorem stops_tell {w : ω} : Stops E Q (tell w : Exec ε ω σ Unit) s := by
  simp [Stops]

@[simp] theorem stops_gets {g : σ → τ} : Stops E Q (gets g : Exec ε ω σ τ) s := by
  simp [Stops]

@[simp] theorem stops_modify {g : σ → σ} : Stops E Q (modify g : Exec ε ω σ Unit) s := by
  simp [Stops]

theorem Returns.stops {a : α} {t : σ} (h : Returns m s a t) : Stops E Q m s := by
  intro e he
  rw [h.1] at he
  cases he

theorem stops_demand {x : Option α} (h : E e) : Stops E Q (demand e x : Exec ε ω σ α) s := by
  cases x with
  | none => exact stops_halt.mpr h
  | some a => exact stops_pure

theorem stops_ofExcept {x : Except ε α} (h : ∀ e, x = .error e → E e) :
    Stops E Q (ofExcept x : Exec ε ω σ α) s := by
  cases x with
  | error e => exact stops_halt.mpr (h e rfl)
  | ok a => exact stops_pure

theorem Stops.bind (hm : Stops E Q m s) (hf : ∀ a t, Returns m s a t → Stops E Q (f a) t) :
    Stops E Q (m >>= f) s := by
  intro e he
  cases ho : (m s).out with
  | error e' =>
    rw [bind_of_error ho] at he ⊢
    cases he
    exact hm e ho
  | ok a =>
    rw [bind_of_ok ho] at he ⊢
    refine (hf a _ ⟨ho, rfl⟩ e he).imp_right ?_
    rintro ⟨w, hw, hq⟩
    exact ⟨w, List.mem_append_right _ hw, hq⟩

theorem Stops.tell_bind {w : ω} {f : Unit → Exec ε ω σ β} (hf : ¬Q w → Stops E Q (f ()) s) :
    Stops E Q (tell w >>= f) s := by
  intro e he
  rw [bind_of_ok (a := ()) rfl] at he ⊢
  by_cases hq : Q w
  · exact .inr ⟨w, by simp, hq⟩
  · refine (hf hq e he).imp_right ?_
    rintro ⟨v, hv, hv'⟩
    exact ⟨v, List.mem_append_right _ hv, hv'⟩

theorem Stops.zoom {m : Exec ε ω τ α} {part : σ → Option τ} {put : τ → σ → σ} (he : E e)
    (hm : ∀ x, Stops E Q m x) : Stops E Q (zoom part put e m) s := by
  intro e' h
  cases hp : part s with
  | none =>
    simp only [Exec.zoom, hp] at h ⊢
    cases h
    exact .inl he
  | some x =>
    simp only [Exec.zoom, hp] at h ⊢
    exact hm x e' h

theorem Stops.mapLog {ω' : Type} {g : ω → ω'} {Q : ω' → Prop} (hm : Stops E (fun w => Q (g w)) m s) :
    Stops E Q (mapLog g m) s := by
  intro e he
  refine (hm e he).imp_right ?_
  rintro ⟨w, hw, hq⟩
  exact ⟨g w, List.mem_map_of_mem hw, hq⟩

theorem stops_quietly {ε' ω' : Type} {m : Exec ε' ω' σ α} {g : ε' → ε} (h : ∀ e, E (g e)) :
    Stops E Q (quietly g m) s := by
  intro e he
  replace he : (m s).out.mapError g = .error e := he
  cases ho : (m s).out with
  | ok a =>
    rw [ho] at he
    cases he
  | error e' =>
    rw [ho] at he
    exact .inl (Except.error.inj he ▸ h e')

theorem Stops.when {c : Bool} (hm : Stops E Q m s) : Stops E Q (when c m) s := by
  cases c with
  | false => simp [Exec.when]
  | true => exact hm.bind fun _ _ _ => stops_pure

end Stops

end Exec

end EvioTool.Lib
