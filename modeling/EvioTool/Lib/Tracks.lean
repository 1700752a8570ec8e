import EvioTool.Lib.Exec

/-! Executions that return if and only if an option has a value. -/

namespace EvioTool.Lib.Exec

variable {ε ω σ τ α β γ δ : Type}

/-- From `s` the execution ends as `P` says of the value of `o`, and it does not return when there
is none. -/
def Tracks (m : Exec ε ω σ α) (o : Option β) (P : β → α → σ → Prop) (s : σ) : Prop :=
  match o with
  | some b => ∃ a t, Returns m s a t ∧ P b a t
  | none => ∀ a t, ¬Returns m s a t

section Tracks

variable {m : Exec ε ω σ α} {f : α → Exec ε ω σ γ} {o : Option β} {g : β → Option δ} {s t : σ}
  {P Q : β → α → σ → Prop} {R : δ → γ → σ → Prop} {a : α} {b : β} {e : ε}

theorem Returns.tracks (h : Returns m s a t) (hP : P b a t) : Tracks m (some b) P s := ⟨a, t, h, hP⟩

theorem tracks_pure (h : P b a s) : Tracks (pure a : Exec ε ω σ α) (some b) P s :=
  Returns.tracks (returns_pure.mpr ⟨rfl, rfl⟩) h

theorem tracks_modify {k : σ → σ} {P : β → Unit → σ → Prop} (h : P b () (k s)) :
    Tracks (modify k : Exec ε ω σ Unit) (some b) P s :=
  Returns.tracks (returns_modify.mpr rfl) h

theorem tracks_halt : Tracks (halt e : Exec ε ω σ α) (none : Option β) P s :=
  fun _ _ => returns_halt

theorem tracks_demand (x : Option α) :
    Tracks (demand e x : Exec ε ω σ α) x (fun b a t => a = b ∧ t = s) s := by
  cases x with
  | none => exact tracks_halt
  | some a => exact tracks_pure ⟨rfl, rfl⟩

namespace Tracks

theorem mono (h : Tracks m o P s) (hPQ : ∀ b a t, P b a t → Q b a t) : Tracks m o Q s := by
  cases o with
  | none => exact h
  | some b =>
    obtain ⟨a, t, hm, hP⟩ := h
    exact ⟨a, t, hm, hPQ b a t hP⟩

theorem relabel {l : β → δ} {Q : δ → α → σ → Prop} (h : Tracks m o P s)
    (hPQ : ∀ b a t, P b a t → Q (l b) a t) : Tracks m (o.map l) Q s := by
  cases o with
  | none => exact h
  | some b =>
    obtain ⟨a, t, hm, hP⟩ := h
    exact ⟨a, t, hm, hPQ b a t hP⟩

theorem bind_none (hm : Tracks m (none : Option β) P s) :
    Tracks (m >>= f) (none : Option δ) R s := by
  intro c u h
  obtain ⟨a, t, ha, -⟩ := returns_bind.mp h
  exact hm a t ha

theorem bind (hm : Tracks m o P s) (hf : ∀ b a t, o = some b → P b a t → Tracks (f a) (g b) R t) :
    Tracks (m >>= f) (o >>= g) R s := by
  cases o with
  | none => exact hm.bind_none
  | some b =>
    obtain ⟨a, t, ha, hP⟩ := hm
    have hrest : Tracks (f a) (g b) R t := hf b a t rfl hP
    rw [Option.bind_eq_bind, Option.bind_some]
    cases hg : g b with
    | none =>
      rw [hg] at hrest
      intro c u h
      exact hrest c u (ha.bind_iff.mp h)
    | some d =>
      rw [hg] at hrest
      obtain ⟨c, u, hc, hR⟩ := hrest
      exact ⟨c, u, ha.bind hc, hR⟩

theorem map {k : α → γ} {l : β → δ} (hm : Tracks m o P s) (hR : ∀ b a t, P b a t → R (l b) (k a) t) :
    Tracks (m >>= fun a => pure (k a)) (o.map l) R s := by
  rw [Option.map_eq_bind]
  exact hm.bind fun b a t _ hP => tracks_pure (hR b a t hP)

theorem after {o : Option δ} (hm : Returns m s a t) (hf : Tracks (f a) o R t) :
    Tracks (m >>= f) o R s :=
  bind (o := some ()) (g := fun _ => o) (P := fun _ a' t' => a' = a ∧ t' = t)
    (hm.tracks ⟨rfl, rfl⟩) fun _ _ _ _ ⟨ha, ht⟩ => ha ▸ ht ▸ hf

theorem gets_bind {k : σ → α} {o : Option δ} (h : Tracks (f (k s)) o R s) : Tracks (gets k >>= f) o R s :=
  after (returns_gets.mpr ⟨rfl, rfl⟩) h

theorem modify_bind {k : σ → σ} {f : Unit → Exec ε ω σ γ} {o : Option δ}
    (h : Tracks (f ()) o R (k s)) : Tracks (modify k >>= f) o R s :=
  after (returns_modify.mpr rfl) h

theorem tell_bind {w : ω} {f : Unit → Exec ε ω σ γ} {o : Option δ} (h : Tracks (f ()) o R s) :
    Tracks (tell w >>= f) o R s :=
  after (returns_tell.mpr rfl) h

theorem congr {m' : Exec ε ω σ α} {s' : σ} (h : Tracks m' o P s') (hm : m s = m' s') :
    Tracks m o P s := by
  have hiff (a : α) (t : σ) : Returns m s a t ↔ Returns m' s' a t := by rw [Returns, hm, Returns]
  cases o with
  | none => exact fun a t ha => h a t ((hiff a t).mp ha)
  | some b =>
    obtain ⟨a, t, ha, hP⟩ := h
    exact ⟨a, t, (hiff a t).mpr ha, hP⟩

theorem zoom {m : Exec ε ω τ α} {part : σ → Option τ} {put : τ → σ → σ} {P : β → α → τ → Prop} {x : τ}
    (hx : part s = some x) (hm : Tracks m o P x) (hQ : ∀ b a y, P b a y → Q b a (put y s)) :
    Tracks (Exec.zoom part put e m) o Q s := by
  cases o with
  | none =>
    intro a t h
    obtain ⟨x', y, hx', hy, -⟩ := returns_zoom.mp h
    obtain rfl := Option.some.inj (hx.symm.trans hx')
    exact hm a y hy
  | some b =>
    obtain ⟨a, y, ha, hP⟩ := hm
    exact ⟨a, put y s, returns_zoom.mpr ⟨x, y, hx, ha, rfl⟩, hQ b a y hP⟩

theorem mapLog {ω' : Type} {k : ω → ω'} (hm : Tracks m o P s) : Tracks (Exec.mapLog k m) o P s := hm

theorem quietly {ε' ω' : Type} {g : ε → ε'} (hm : Tracks m o P s) :
    Tracks (Exec.quietly g m : Exec ε' ω' σ α) o P s := by
  cases o with
  | none => exact fun a t h => hm a t (returns_quietly.mp h)
  | some b =>
    obtain ⟨a, t, h, hP⟩ := hm
    exact ⟨a, t, returns_quietly.mpr h, hP⟩

theorem and {S : α → σ → Prop} (hm : Tracks m o P s) (h : ∀ a t, Returns m s a t → S a t) :
    Tracks m o (fun b a t => P b a t ∧ S a t) s := by
  cases o with
  | none => exact hm
  | some b =>
    obtain ⟨a, t, ha, hP⟩ := hm
    exact ⟨a, t, ha, hP, h a t ha⟩

theorem ite {c : Prop} [Decidable c] {n : Exec ε ω σ α} {o' : Option β} (h : c → Tracks m o P s)
    (h' : ¬c → Tracks n o' P s) : Tracks (if c then m else n) (if c then o else o') P s := by
  split
  · exact h ‹_›
  · exact h' ‹_›

theorem when {m : Exec ε ω σ Unit} {o' : Option β} {c : Bool} {P : β → Unit → σ → Prop}
    (h : c = true → Tracks m o P s) (h' : c = false → Tracks (pure () : Exec ε ω σ Unit) o' P s) :
    Tracks (Exec.when c m) (if c = true then o else o') P s := by
  cases c with
  | false => exact h' rfl
  | true => exact (h rfl).congr (congrFun (bind_pure m) s)

theorem isSome_iff (h : Tracks m o P s) : (∃ a t, Returns m s a t) ↔ o.isSome = true := by
  cases o with
  | none => exact iff_of_false (fun ⟨a, t, ha⟩ => h a t ha) (by simp)
  | some b =>
    obtain ⟨a, t, ha, -⟩ := h
    exact iff_of_true ⟨a, t, ha⟩ rfl

theorem returns (h : Tracks m o P s) (ha : Returns m s a t) : ∃ b, o = some b ∧ P b a t := by
  cases o with
  | none => exact absurd ha (h a t)
  | some b =>
    obtain ⟨a', t', ha', hP⟩ := h
    obtain ⟨rfl, rfl⟩ := ha'.det ha
    exact ⟨b, rfl, hP⟩

theorem of_unit {ω' : Type} {m' : Exec ε ω' σ Unit} {P : β → σ → Prop}
    (h : Tracks m' o (fun b _ t => P b t) s) (hiff : ∀ t, Returns m' s () t ↔ ∃ a, Returns m s a t) :
    Tracks m o (fun b _ t => P b t) s := by
  cases o with
  | none => exact fun a t ha => h () t ((hiff t).mpr ⟨a, ha⟩)
  | some b =>
    obtain ⟨_, t, ht, hP⟩ := h
    obtain ⟨a, ha⟩ := (hiff t).mp ht
    exact ⟨a, t, ha, hP⟩

theorem of_some (h : Tracks m (some b) P s) : ∃ a t, Returns m s a t ∧ P b a t := h

end Tracks

end Tracks

end EvioTool.Lib.Exec
