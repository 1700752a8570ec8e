/-! A location that is written by some of the steps of a run: it holds the last write, or
what it held before. -/

namespace EvioTool.Lib

variable {α ε σ : Type}

/-- What a location that held `x` holds after the writes; `none` leaves it as it is. -/
def written (ws : List (Option α)) (x : α) : α := ws.foldl (fun x w => w.getD x) x

@[simp] theorem written_nil (x : α) : written [] x = x := rfl

@[simp] theorem written_cons_none (ws : List (Option α)) (x : α) :
    written (none :: ws) x = written ws x := rfl

@[simp] theorem written_cons_some (ws : List (Option α)) (v x : α) :
    written (some v :: ws) x = written ws v := rfl

theorem written_append (vs ws : List (Option α)) (x : α) :
    written (vs ++ ws) x = written ws (written vs x) := by
  simp [written, List.foldl_append]

theorem written_of_none {ws : List (Option α)} (h : ∀ w ∈ ws, w = none) (x : α) :
    written ws x = x := by
  induction ws with
  | nil => rfl
  | cons w ws ih =>
    obtain rfl := h w (.head _)
    exact ih fun w hw => h w (.tail _ hw)

theorem written_of_const {ws : List (Option α)} {v : α} (h : ∀ w ∈ ws, w = none ∨ w = some v)
    (hv : some v ∈ ws) (x : α) : written ws x = v := by
  induction ws generalizing x with
  | nil => cases hv
  | cons w ws ih =>
    have hws : ∀ w ∈ ws, w = none ∨ w = some v := fun w hw => h w (.tail _ hw)
    by_cases hmem : some v ∈ ws
    · exact ih hws hmem _
    · have hnone : ∀ w ∈ ws, w = none := fun w hw => (hws w hw).resolve_right fun h => hmem (h ▸ hw)
      obtain rfl : some v = w := (List.mem_cons.mp hv).resolve_right hmem
      exact written_of_none hnone v

theorem written_eq_iff (ws : List (Option α)) (x y : α) :
    written ws x = written ws y ↔ x = y ∨ ∃ w ∈ ws, w ≠ none := by
  induction ws generalizing x y with
  | nil => simp
  | cons w ws ih =>
    cases w with
    | none => simp [ih]
    | some v => simp

/-- The last of the steps that write something writes `v`. -/
def LastWrites {ι : Type} (write : ι → Option α) (is : List ι) (v : α) : Prop :=
  ∃ is₁ i is₂, is = is₁ ++ i :: is₂ ∧ write i = some v ∧ ∀ j ∈ is₂, write j = none

section LastWrites

variable {ι : Type} {write : ι → Option α} {i : ι} {is : List ι} {v : α}

theorem not_lastWrites_nil : ¬LastWrites write [] v := by
  simp [LastWrites]

theorem lastWrites_cons :
    LastWrites write (i :: is) v ↔
      LastWrites write is v ∨ write i = some v ∧ ∀ j ∈ is, write j = none := by
  constructor
  · rintro ⟨is₁, j, is₂, hsplit, hj, hnone⟩
    cases is₁ with
    | nil =>
      cases hsplit
      exact .inr ⟨hj, hnone⟩
    | cons k is₁ =>
      cases hsplit
      exact .inl ⟨is₁, j, is₂, rfl, hj, hnone⟩
  · rintro (⟨is₁, j, is₂, rfl, hj, hnone⟩ | ⟨hi, hnone⟩)
    · exact ⟨i :: is₁, j, is₂, rfl, hj, hnone⟩
    · exact ⟨[], i, is, rfl, hi, hnone⟩

theorem written_eq_some_iff (x : Option α) :
    written (is.map fun i => (write i).map some) x = some v ↔
      LastWrites write is v ∨ x = some v ∧ ∀ j ∈ is, write j = none := by
  induction is generalizing x with
  | nil => simp [not_lastWrites_nil]
  | cons i is ih =>
    rw [lastWrites_cons, List.map_cons]
    cases hi : write i with
    | none => simp [ih, hi]
    | some w => simp [ih, hi]

theorem lastWrites_iff :
    written (is.map fun i => (write i).map some) none = some v ↔ LastWrites write is v := by
  simp [written_eq_some_iff]

end LastWrites

theorem foldl_written {β : Type} (step : σ → ε → σ) (field : σ → β) (write : ε → Option β)
    {I : σ → Prop} (hI : ∀ s e, I s → I (step s e))
    (hw : ∀ s e, I s → field (step s e) = (write e).getD (field s)) (es : List ε) {s : σ}
    (hs : I s) : field (es.foldl step s) = written (es.map write) (field s) := by
  induction es generalizing s with
  | nil => rfl
  | cons e es ih =>
    rw [List.foldl_cons, ih (hI s e hs), hw s e hs]
    rfl

theorem foldlM_written {β : Type} {step : σ → ε → Option σ} (field : σ → β) {write : ε → Option β}
    {es : List ε} {s t : σ}
    (hw : ∀ e ∈ es, ∀ s t, step s e = some t → field t = (write e).getD (field s))
    (h : es.foldlM step s = some t) : field t = written (es.map write) (field s) := by
  induction es generalizing s with
  | nil =>
    cases h
    rfl
  | cons e es ih =>
    obtain ⟨s', hstep, hrest⟩ := Option.bind_eq_some_iff.mp h
    rw [ih (fun e' he' => hw e' (.tail _ he')) hrest, hw e (.head _) s s' hstep]
    rfl

end EvioTool.Lib
