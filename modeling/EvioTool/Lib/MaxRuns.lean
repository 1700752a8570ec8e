import Mathlib.Data.List.TakeWhile

/-! The maximal runs of a list whose elements satisfy a predicate, up to a stop that starts a
piece. -/

namespace EvioTool.Lib

variable {α : Type} {p stop : α → Bool} {x : α} {s xs ys rest : List α} {ss : List (List α)}

def maxRuns (p : α → Bool) (xs : List α) : List (List α) :=
  (xs.splitOnP fun a => !p a).filter fun s => !s.isEmpty

@[simp] theorem maxRuns_nil : maxRuns p [] = [] := rfl

theorem maxRuns_of_forall (hs : s ≠ []) (hp : ∀ a ∈ s, p a) : maxRuns p s = [s] := by
  rw [maxRuns, List.splitOnP_eq_singleton fun a ha => by simp [hp a ha]]
  simp [hs]

def addRun (s : List α) (ss : List (List α)) : List (List α) :=
  if 0 < s.length then s :: ss else ss

@[simp] theorem addRun_nil (ss : List (List α)) : addRun [] ss = ss := rfl

@[simp] theorem addRun_cons (a : α) (s : List α) (ss : List (List α)) :
    addRun (a :: s) ss = (a :: s) :: ss := rfl

theorem addRun_append (s : List α) (ss ts : List (List α)) :
    addRun s (ss ++ ts) = addRun s ss ++ ts := by
  cases s <;> rfl

theorem maxRuns_append_cons (hp : ∀ a ∈ s, p a) (hx : p x = false) (xs : List α) :
    maxRuns p (s ++ x :: xs) = addRun s (maxRuns p xs) := by
  have hsplit : maxRuns p (s ++ x :: xs) = maxRuns p s ++ maxRuns p xs := by
    rw [maxRuns, List.splitOnP_append_cons s xs (by simp [hx]), List.filter_append]
    rfl
  cases s with
  | nil => exact hsplit
  | cons a s => rw [hsplit, maxRuns_of_forall (List.cons_ne_nil a s) hp, addRun_cons,
      List.singleton_append]

/-- A stop at `k`, which is the first position or lies behind an element that does not
satisfy `p`. -/
def stopsAt (p stop : α → Bool) (xs : List α) : Nat → Bool
  | 0 => xs[0]?.any stop
  | k + 1 => xs[k]?.any (fun a => !p a) && xs[k + 1]?.any stop

/-- The runs before the first stop. -/
def runsTo (p stop : α → Bool) (xs : List α) : List (List α) :=
  maxRuns p (xs.take (((List.range xs.length).find? (stopsAt p stop xs)).getD xs.length))

theorem stopsAt_append (hs : p x = false) (k : Nat) :
    stopsAt p stop (s ++ x :: xs) (s.length + 1 + k) = stopsAt p stop xs k := by
  cases k with
  | zero =>
    have h₀ : (s ++ x :: xs)[s.length + 1]? = xs[0]? := by
      rw [List.getElem?_append_right (by omega), Nat.add_sub_cancel_left, List.getElem?_cons_succ]
    simp only [stopsAt, h₀]
    simp [hs]
  | succ k =>
    have h₁ : (s ++ x :: xs)[s.length + 1 + k]? = xs[k]? := by
      rw [List.getElem?_append_right (by omega), Nat.add_assoc, Nat.add_sub_cancel_left,
        Nat.add_comm 1, List.getElem?_cons_succ]
    have h₂ : (s ++ x :: xs)[s.length + 1 + k + 1]? = xs[k + 1]? := by
      rw [List.getElem?_append_right (by omega), Nat.add_assoc, Nat.add_assoc,
        Nat.add_sub_cancel_left, Nat.add_comm 1, List.getElem?_cons_succ]
    rw [← Nat.add_assoc, stopsAt, stopsAt, h₁, h₂]

theorem stopsAt_run (hstop : ∀ a, stop a → p a = false) (hp : ∀ a ∈ s, p a)
    (hx : s = [] → stop x = false) {k : Nat} (hk : k ≤ s.length) :
    stopsAt p stop (s ++ x :: xs) k = false := by
  have hrun (j : Nat) (hj : j < s.length) : (s ++ x :: xs)[j]? = some s[j] := by
    rw [List.getElem?_append_left hj, List.getElem?_eq_getElem hj]
  cases k with
  | zero =>
    cases s with
    | nil => simp [stopsAt, hx rfl]
    | cons a s =>
      have ha : stop a = false := Bool.eq_false_iff.mpr fun hst => by
        have := hp a List.mem_cons_self
        rw [hstop a hst] at this
        cases this
      simp [stopsAt, ha]
  | succ k => simp [stopsAt, hrun k hk, hp _ (List.getElem_mem hk)]

/-- From `xs` on, the runs `ss` and the element behind each piece are passed, and `rest` is
left. -/
inductive Scans (p stop : α → Bool) : List α → List (List α) → List α → Prop
  | done (xs : List α) : Scans p stop xs [] xs
  | step {s : List α} {x : α} {xs rest : List α} {ss : List (List α)} : (∀ a ∈ s, p a) →
    p x = false → (s = [] → stop x = false) → Scans p stop xs ss rest →
    Scans p stop (s ++ x :: xs) (addRun s ss) rest

theorem exists_scans (p stop : α → Bool) (xs : List α) : ∃ ss rest, Scans p stop xs ss rest ∧
    ((∃ x ys, rest = x :: ys ∧ stop x) ∨ ∀ a ∈ rest, p a) := by
  induction hn : xs.length using Nat.strongRecOn generalizing xs with
  | _ n ih =>
    subst hn
    rcases hd : xs.dropWhile p with _ | ⟨x, ys⟩
    · exact ⟨[], xs, .done xs, .inr (List.dropWhile_eq_nil_iff.mp hd)⟩
    · have hx : p x = false := by
        simpa [hd] using List.head_dropWhile_not p (l := xs) (by simp [hd])
      have hxs : xs.takeWhile p ++ x :: ys = xs := by rw [← hd, List.takeWhile_append_dropWhile]
      by_cases hst : xs.takeWhile p = [] ∧ stop x
      · rw [hst.1, List.nil_append] at hxs
        exact ⟨[], xs, .done xs, .inl ⟨x, ys, hxs.symm, hst.2⟩⟩
      · have hlen : ys.length < xs.length := by
          rw [← hxs, List.length_append, List.length_cons]
          omega
        obtain ⟨ss, rest, hss, hrest⟩ := ih _ hlen ys rfl
        have hp (a : α) (ha : a ∈ xs.takeWhile p) : p a := List.mem_takeWhile_imp ha
        have hstep := Scans.step hp hx
          (fun hs => Bool.eq_false_iff.mpr fun h => hst ⟨hs, h⟩) hss
        rw [hxs] at hstep
        exact ⟨_, rest, hstep, hrest⟩

theorem Scans.split (h : Scans p stop xs ss rest) (hstop : ∀ a, stop a → p a = false) :
    ∃ pre, xs = pre ++ rest ∧ (∀ ys, maxRuns p (pre ++ ys) = ss ++ maxRuns p ys) ∧
      (∀ k < pre.length, stopsAt p stop xs k = false) ∧
      ∀ k, stopsAt p stop xs (pre.length + k) = stopsAt p stop rest k := by
  induction h with
  | done xs => exact ⟨[], rfl, fun _ => rfl, fun k hk => absurd hk (Nat.not_lt_zero k), by simp⟩
  | @step s x xs rest ss hp hx hst _ ih =>
    obtain ⟨pre, rfl, hruns, hfree, hshift⟩ := ih
    refine ⟨s ++ x :: pre, by simp, fun ys => ?_, fun k hk => ?_, fun k => ?_⟩
    · rw [List.append_assoc, List.cons_append, maxRuns_append_cons hp hx, hruns, addRun_append]
    · rcases Nat.lt_or_ge s.length k with hsk | hsk
      · obtain ⟨j, rfl⟩ := Nat.exists_eq_add_of_le hsk
        rw [stopsAt_append hx, hfree j (by simp at hk; omega)]
      · exact stopsAt_run hstop hp hst hsk
    · have hk : (s ++ x :: pre).length + k = s.length + 1 + (pre.length + k) := by
        simp
        omega
      rw [hk, stopsAt_append hx, hshift]

theorem Scans.eq_append (h : Scans p stop xs ss rest) :
    xs = rest ∨ ∃ pre x, xs = pre ++ x :: rest ∧ p x = false := by
  induction h with
  | done xs => exact .inl rfl
  | @step s x _ _ _ _ hx _ _ ih =>
    rcases ih with rfl | ⟨pre, y, rfl, hy⟩
    · exact .inr ⟨s, x, rfl, hx⟩
    · exact .inr ⟨s ++ x :: pre, y, by simp, hy⟩

theorem Scans.length_le (h : Scans p stop xs ss rest) : rest.length ≤ xs.length := by
  rcases h.eq_append with rfl | ⟨pre, x, rfl, -⟩
  · exact le_rfl
  · simp
    omega

theorem Scans.eq_nil_iff (h : Scans p stop xs ss rest) (hrest : ∀ a ∈ rest, p a) :
    rest = [] ↔ ∀ x ∈ xs.getLast?, p x = false := by
  constructor
  · rintro rfl x hx
    rcases h.eq_append with rfl | ⟨pre, y, rfl, hy⟩
    · simp at hx
    · obtain rfl : y = x := by simpa using hx
      exact hy
  · intro hlast
    by_contra hne
    have hmem : rest.getLast hne ∈ xs.getLast? := by
      rcases h.eq_append with rfl | ⟨pre, y, rfl, -⟩
      · exact List.getLast?_eq_some_getLast hne
      · rw [List.append_cons, List.getLast?_append, List.getLast?_eq_some_getLast hne]
        rfl
    have hp := hrest _ (List.getLast_mem hne)
    rw [hlast _ hmem] at hp
    cases hp

theorem Scans.runsTo_stop (h : Scans p stop xs ss (x :: ys)) (hstop : ∀ a, stop a → p a = false)
    (hx : stop x) : runsTo p stop xs = ss ∧ ∃ k, stopsAt p stop xs k := by
  obtain ⟨pre, rfl, hruns, hfree, hshift⟩ := h.split hstop
  have hat : stopsAt p stop (pre ++ x :: ys) pre.length := by
    have h₀ := hshift 0
    rw [Nat.add_zero] at h₀
    rw [h₀]
    exact hx
  have hfind : (List.range (pre ++ x :: ys).length).find? (stopsAt p stop (pre ++ x :: ys)) =
      some pre.length := by
    rw [List.find?_range_eq_some]
    exact ⟨hat, by simp, fun j hj => by simp [hfree j hj]⟩
  refine ⟨?_, pre.length, hat⟩
  rw [runsTo, hfind, Option.getD_some, List.take_left]
  simpa using hruns []

theorem Scans.runsTo_open (h : Scans p stop xs ss rest) (hstop : ∀ a, stop a → p a = false)
    (hrest : ∀ a ∈ rest, p a) :
    runsTo p stop xs = ss ++ maxRuns p rest ∧ ∀ k, stopsAt p stop xs k = false := by
  obtain ⟨pre, rfl, hruns, hfree, hshift⟩ := h.split hstop
  have hno (a : α) (ha : a ∈ rest) : stop a = false := by
    cases hst : stop a with
    | false => rfl
    | true =>
      have hpa := hrest a ha
      rw [hstop a hst] at hpa
      cases hpa
  have hany (k : Nat) : (rest[k]?.any stop) = false := by
    cases hk : rest[k]? with
    | none => rfl
    | some a => simpa using hno a (List.mem_of_getElem? hk)
  have hat (k : Nat) : stopsAt p stop (pre ++ rest) k = false := by
    rcases Nat.lt_or_ge k pre.length with hk | hk
    · exact hfree k hk
    · obtain ⟨j, rfl⟩ := Nat.exists_eq_add_of_le hk
      rw [hshift]
      cases j <;> simp [stopsAt, hany]
  refine ⟨?_, hat⟩
  rw [runsTo, List.find?_eq_none.mpr (by simp [hat]), Option.getD_none, List.take_length, hruns]

end EvioTool.Lib
