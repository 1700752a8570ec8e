import EvioTool.Laws.EvioNumbers

namespace EvioTool

open Lib

section Numbers

variable {w : Nat} {bytes bytes' p q xs old : List UInt8} {n : Int}

theorem load_append (hn : n = p.length) (hx : xs.length = w) : load w (p ++ (xs ++ q)) n = some xs := by
  subst hn
  rw [load, if_pos ⟨by omega, by simp; omega⟩]
  simp [← hx]

theorem swapNumber_append (hw : w = 2 ∨ w = 4 ∨ w = 8) (hn : n = p.length) (hx : xs.length = w) :
    swapNumber w (p ++ (xs ++ q)) n = some (xs, p ++ (xs.reverse ++ q)) := by
  subst hn
  have hload : load w (p ++ (xs ++ q)) p.length = some xs := load_append rfl hx
  have hlt : leNat xs < 256 ^ w := hx ▸ leNat_lt xs
  have hrev {y : Nat} (h : Reverses w (leNat xs) y) : toBytes w y = xs.reverse := by
    rw [toBytes_reverse h, ← hx, toBytes_leNat]
  have hpoke : poke (p ++ (xs ++ q)) p.length xs.reverse = some (p ++ (xs.reverse ++ q)) :=
    poke_append rfl (by simp)
  rw [swapNumber, hload]
  rcases hw with rfl | rfl | rfl
  · have := reverses_swap16 (UInt16.ofNat (leNat xs))
    rw [UInt16.toNat_ofNat_of_lt' hlt] at this
    simp [hrev this, hpoke]
  · have := reverses_swap32 (UInt32.ofNat (leNat xs))
    rw [UInt32.toNat_ofNat_of_lt' hlt] at this
    simp [hrev this, hpoke]
  · have := reverses_swap64 (UInt64.ofNat (leNat xs))
    rw [UInt64.toNat_ofNat_of_lt' hlt] at this
    simp [hrev this, hpoke]

theorem append_of_load (h : load w bytes n = some xs) :
    ∃ p q, n = p.length ∧ xs.length = w ∧ bytes = p ++ (xs ++ q) := by
  unfold load at h
  split at h
  case isTrue hroom =>
    obtain rfl := Option.some.inj h
    refine ⟨bytes.take n.toNat, (bytes.drop n.toNat).drop w, ?_, ?_, ?_⟩
    · rw [List.length_take]
      omega
    · rw [List.length_take, List.length_drop]
      omega
    · rw [List.take_append_drop, List.take_append_drop]
  case isFalse => simp at h

theorem append_of_swapNumber (hw : w = 2 ∨ w = 4 ∨ w = 8)
    (h : swapNumber w bytes n = some (old, bytes')) :
    ∃ p q, n = p.length ∧ old.length = w ∧ bytes = p ++ (old ++ q) ∧ bytes' = p ++ (old.reverse ++ q) := by
  obtain ⟨xs, hload⟩ : ∃ xs, load w bytes n = some xs := by
    cases hload : load w bytes n with
    | none => simp [swapNumber, hload] at h
    | some xs => exact ⟨xs, rfl⟩
  obtain ⟨p, q, hn, hx, rfl⟩ := append_of_load hload
  rw [swapNumber_append hw hn hx] at h
  obtain ⟨rfl, rfl⟩ := Prod.mk.inj (Option.some.inj h)
  exact ⟨p, q, hn, hx, rfl, rfl⟩

end Numbers

variable {α β : Type} {f : Bool → Swapping → Option (α × Swapping)}
  {tolocal : Bool} {s t u : Swapping} {a : α} {b : β}

def Undoes (f : Bool → Swapping → Option (α × Swapping)) (tolocal : Bool) (s : Swapping) (a : α)
    (t : Swapping) : Prop :=
  ∃ p xs ys q : List UInt8, ys.length = xs.length ∧ s.bytes = p ++ (xs ++ q) ∧
    t.bytes = p ++ (ys ++ q) ∧
    p.length = min s.b8.toNat s.bytes.length ∧ (p ++ xs).length = min t.b8.toNat s.bytes.length ∧
    0 ≤ t.b8 ∧ ∀ p' q', p'.length = p.length →
      f (!tolocal) { s with bytes := p' ++ (ys ++ q') } = some (a, { t with bytes := p' ++ (xs ++ q') })

namespace Undoes

theorem congr {f' : Bool → Swapping → Option (α × Swapping)} (h : Undoes f tolocal s a t)
    (hf : ∀ bytes, f' (!tolocal) { s with bytes } = f (!tolocal) { s with bytes }) :
    Undoes f' tolocal s a t := by
  obtain ⟨p, xs, ys, q, hlen, hs, ht, hp, hxs, hb8, hback⟩ := h
  exact ⟨p, xs, ys, q, hlen, hs, ht, hp, hxs, hb8,
    fun p' q' hp' => (hf _).trans (hback p' q' hp')⟩

theorem bind (g : α → Bool → Swapping → Option (β × Swapping)) (h : Undoes f tolocal s a t)
    (h' : Undoes (g a) tolocal t b u) :
    Undoes (fun d v => (f d v).bind fun r => g r.1 d r.2) tolocal s b u := by
  obtain ⟨p, xs, ys, q, hlen, hs, ht, hp, hxs, hb8, hback⟩ := h
  obtain ⟨p₂, xs₂, ys₂, q₂, hlen₂, hs₂, ht₂, hp₂, hxs₂, hb8₂, hback₂⟩ := h'
  have htotal : t.bytes.length = s.bytes.length := by
    rw [hs, ht]
    simp [hlen]
  have hmid : (p ++ ys).length = p₂.length := by
    rw [hp₂, htotal, ← hxs]
    simp [hlen]
  have hbytes : (p ++ ys) ++ q = p₂ ++ (xs₂ ++ q₂) := by
    rw [List.append_assoc, ← ht, hs₂]
  obtain ⟨rfl, rfl⟩ := List.append_inj hbytes hmid
  refine ⟨p, xs ++ xs₂, ys ++ ys₂, q₂, ?_, ?_, ?_, hp, ?_, hb8₂, fun p' q' hp' => ?_⟩
  · simp [hlen, hlen₂]
  · rw [hs, List.append_assoc]
  · rw [ht₂, List.append_assoc, List.append_assoc]
  · rw [← htotal, ← hxs₂]
    simp [hlen]
  · have h₁ := hback p' (ys₂ ++ q') hp'
    have h₂ := hback₂ (p' ++ xs) q' (by simp [hlen, hp'])
    simp only [List.append_assoc] at h₁ h₂ ⊢
    rw [h₁, Option.bind_some, h₂]

theorem skip (hs : 0 ≤ s.b8) (hle : s.b8 ≤ t.b8) (hbytes : t.bytes = s.bytes)
    (h : ∀ bytes, f (!tolocal) { s with bytes } = some (a, { t with bytes })) : Undoes f tolocal s a t := by
  let n := s.b8.toNat
  let m := t.b8.toNat - s.b8.toNat
  refine ⟨s.bytes.take n, (s.bytes.drop n).take m, (s.bytes.drop n).take m, (s.bytes.drop n).drop m, rfl,
    ?_, ?_, ?_, ?_, by omega, fun p' q' _ => h _⟩
  · rw [List.take_append_drop, List.take_append_drop]
  · rw [hbytes, List.take_append_drop, List.take_append_drop]
  · rw [List.length_take]
  · simp only [List.length_append, List.length_take, List.length_drop, n, m]
    omega

theorem back_append (h : Undoes f tolocal s a t) (hs : s.b8 = 0) (cs : List UInt8) :
    f (!tolocal) { s with bytes := t.bytes ++ cs } = some (a, { t with bytes := s.bytes ++ cs }) := by
  obtain ⟨p, xs, ys, q, -, hsb, htb, hp, -, -, hback⟩ := h
  have hnil : p = [] := List.eq_nil_of_length_eq_zero (by rw [hp, hs]; simp)
  rw [hsb, htb, hnil, List.nil_append, List.nil_append, List.append_assoc, List.append_assoc]
  exact hback [] (q ++ cs) (by rw [hnil])

theorem b8_nonneg (h : Undoes f tolocal s a t) : 0 ≤ t.b8 := by
  obtain ⟨p, xs, ys, q, -, -, -, -, -, hb8, -⟩ := h
  exact hb8

end Undoes

theorem count_append {p xs : List UInt8} (tolocal : Bool) (s : Swapping) (q : List UInt8)
    (hn : s.b8 = p.length) (hx : xs.length = 4) :
    Swapping.count tolocal { s with bytes := p ++ (xs ++ q) } =
      some (toInt32 (leNat (if tolocal then xs.reverse else xs)),
        { s with bytes := p ++ (xs.reverse ++ q), b8 := s.b8 + 4 }) := by
  have hswap : swapNumber 4 (p ++ (xs ++ q)) s.b8 = some (xs, p ++ (xs.reverse ++ q)) :=
    swapNumber_append (.inr (.inl rfl)) hn hx
  have hload : load 4 (p ++ (xs.reverse ++ q)) s.b8 = some xs.reverse := load_append hn (by simp [hx])
  cases tolocal <;> simp [Swapping.count, hswap, hload]

theorem undoes_count {n : Int} (h : s.count tolocal = some (n, t)) :
    Undoes (fun d v => v.count d) tolocal s n t := by
  obtain ⟨⟨old, bytes'⟩, hswap⟩ : ∃ r, swapNumber 4 s.bytes s.b8 = some r := by
    cases hswap : swapNumber 4 s.bytes s.b8 with
    | none => simp [Swapping.count, hswap] at h
    | some r => exact ⟨r, rfl⟩
  obtain ⟨p, q, hn, hx, hs, -⟩ := append_of_swapNumber (.inr (.inl rfl)) hswap
  have hcount := count_append tolocal s q hn hx
  rw [← hs] at hcount
  obtain ⟨hval, ht⟩ := Prod.mk.inj (Option.some.inj (h.symm.trans hcount))
  rw [hval, ht]
  have hlen : s.bytes.length = p.length + (4 + q.length) := by
    rw [hs, List.length_append, List.length_append, hx]
  refine ⟨p, old, old.reverse, q, List.length_reverse, hs, rfl, by omega, ?_, ?_, fun p' q' hp' => ?_⟩
  · rw [List.length_append, hx]
    show _ = min (s.b8 + 4).toNat _
    omega
  · show 0 ≤ s.b8 + 4
    omega
  · have := count_append (!tolocal) s q' (hn.trans (by rw [hp'])) (show old.reverse.length = 4 by simp [hx])
    rw [List.reverse_reverse] at this
    refine this.trans ?_
    cases tolocal <;> rfl

def swapOne (w : Nat) (_ : Bool) (s : Swapping) : Option (Unit × Swapping) :=
  (swapNumber w s.bytes s.b8).map fun r => ((), { s with bytes := r.2, b8 := s.b8 + w })

theorem undoes_swapOne {w : Nat} (hw : w = 2 ∨ w = 4 ∨ w = 8) (h : swapOne w tolocal s = some ((), t)) :
    Undoes (swapOne w) tolocal s () t := by
  obtain ⟨⟨old, bytes'⟩, hswap, ht⟩ := Option.map_eq_some_iff.mp h
  obtain rfl := (Prod.mk.inj ht).2
  obtain ⟨p, q, hn, hx, hs, rfl⟩ := append_of_swapNumber hw hswap
  have hlen : s.bytes.length = p.length + (w + q.length) := by
    rw [hs, List.length_append, List.length_append, hx]
  refine ⟨p, old, old.reverse, q, List.length_reverse, hs, rfl, by omega, ?_, ?_, fun p' q' hp' => ?_⟩
  · rw [List.length_append, hx]
    show _ = min (s.b8 + w).toNat _
    omega
  · show 0 ≤ s.b8 + w
    omega
  · have : swapNumber w (p' ++ (old.reverse ++ q')) s.b8 =
        some (old.reverse, p' ++ (old.reverse.reverse ++ q')) :=
      swapNumber_append hw (hn.trans (by rw [hp'])) (by simp [hx])
    simp [swapOne, this]

def swapAll (w : Nat) (stop : Int) (fuel : Nat) (_ : Bool) (s : Swapping) : Option (Unit × Swapping) :=
  (swapNumbers w stop fuel s.bytes s.b8).map fun r => ((), { s with bytes := r.1, b8 := r.2 })

theorem swapAll_of_le {w fuel : Nat} {stop : Int} {d : Bool} (h : ¬s.b8 < stop) :
    swapAll w stop fuel d s = some ((), s) := by
  cases fuel <;> simp [swapAll, swapNumbers, h]

theorem swapAll_succ {w fuel : Nat} {stop : Int} {d : Bool} (h : s.b8 < stop) :
    swapAll w stop (fuel + 1) d s = (swapOne w d s).bind fun r => swapAll w stop fuel d r.2 := by
  rw [swapAll, swapNumbers, if_pos h, swapOne]
  cases swapNumber w s.bytes s.b8 <;> simp [swapAll]

theorem undoes_swapAll {w : Nat} (hw : w = 2 ∨ w = 4 ∨ w = 8) (stop : Int) (fuel : Nat) :
    ∀ s, 0 ≤ s.b8 → swapAll w stop fuel tolocal s = some ((), t) →
      Undoes (swapAll w stop fuel) tolocal s () t := by
  induction fuel with
  | zero =>
    intro s hn h
    by_cases hlt : s.b8 < stop
    · simp [swapAll, swapNumbers, hlt] at h
    · rw [swapAll_of_le hlt] at h
      obtain rfl := (Prod.mk.inj (Option.some.inj h)).2
      exact .skip hn le_rfl rfl fun bytes => swapAll_of_le hlt
  | succ fuel ih =>
    intro s hn h
    by_cases hlt : s.b8 < stop
    · rw [swapAll_succ hlt] at h
      obtain ⟨⟨⟨⟩, u⟩, hu, h⟩ := Option.bind_eq_some_iff.mp h
      have hone := undoes_swapOne hw hu
      refine (hone.bind (fun _ => swapAll w stop fuel) (ih u hone.b8_nonneg h)).congr fun bytes => ?_
      exact swapAll_succ hlt
    · rw [swapAll_of_le hlt] at h
      obtain rfl := (Prod.mk.inj (Option.some.inj h)).2
      exact .skip hn le_rfl rfl fun bytes => swapAll_of_le hlt

def Fetch.code : Fetch → Option (Nat × Int)
  | again _ => none
  | found kcnf ncnf _ => some (kcnf, ncnf)

def Fetch.state : Fetch → Swapping
  | again s => s
  | found _ _ s => s

def fetchFrom (ifmt : List UInt8) (tolocal : Bool) (s : Swapping) :
    Option (Option (Nat × Int) × Swapping) :=
  (fetch tolocal ifmt s).map fun r => (r.code, r.state)

def fetchStill (ifmt : List UInt8) (c : FmtCursor) : Option (Option (Nat × Int) × FmtCursor) :=
  (fetchFrom ifmt false { cursor := c, bytes := [] }).map fun r => (r.1, r.2.cursor)

def openLevel (n : Int) (_ : Bool) (s : Swapping) : Option (Option (Nat × Int) × Swapping) :=
  if s.cursor.lv.length < 10 then
    let l := { left := s.cursor.imt + 1, nrepeat := n, irepeat := 0 }
    some (none, { s with cursor := { s.cursor with imt := s.cursor.imt + 1, lv := l :: s.cursor.lv } })
  else none

variable {ifmt : List UInt8} {c : Option (Nat × Int)}

theorem fetchFrom_still (s : Swapping) (h : ∀ code ∈ ifmt[s.cursor.imt]?, code.toNat % 16 ≠ 15) (d : Bool) :
    fetchFrom ifmt d s = (fetchStill ifmt s.cursor).map fun r => (r.1, { s with cursor := r.2 }) := by
  simp only [fetchStill, fetchFrom, fetch, Nat.add_sub_cancel]
  by_cases hend : ifmt.length < s.cursor.imt + 1
  · simp [hend, Fetch.code, Fetch.state]
  cases hcode : ifmt[s.cursor.imt]? with
  | none => simp [hend]
  | some code =>
    have h15 := h code hcode
    by_cases h0 : code.toNat = 0
    · cases hlv : s.cursor.lv with
      | nil => simp [hend, h0]
      | cons l lv =>
        simp only [hend, h0, if_false, if_true, Option.bind_eq_bind, Option.bind_some]
        split <;> simp [Fetch.code, Fetch.state]
    · simp only [hend, h0, h15, if_false, Option.bind_eq_bind, Option.bind_some, Option.pure_def]
      split
      · split <;> simp [Fetch.code, Fetch.state]
      · simp [Fetch.code, Fetch.state]

theorem cursor_count {n : Int} {d : Bool} (h : s.count d = some (n, t)) : t.cursor = s.cursor := by
  obtain ⟨r, -, h⟩ := Option.bind_eq_some_iff.mp h
  dsimp only at h
  split at h
  · obtain ⟨l, -, h⟩ := Option.bind_eq_some_iff.mp h
    rw [← (Prod.mk.inj (Option.some.inj h)).2]
  · rw [← (Prod.mk.inj (Option.some.inj h)).2]

theorem fetchFrom_count (s : Swapping) {code : UInt8} (hcode : ifmt[s.cursor.imt]? = some code)
    (h : code.toNat % 16 = 15) (d : Bool) :
    fetchFrom ifmt d s = (s.count d).bind fun r => openLevel r.1 d r.2 := by
  have hend : ¬ifmt.length < s.cursor.imt + 1 := by
    have := (List.getElem?_eq_some_iff.mp hcode).1
    omega
  have h0 : code.toNat ≠ 0 := by
    intro h0
    simp [h0] at h
  simp only [fetchFrom, fetch, Nat.add_sub_cancel, hend, hcode, h0, h, if_false, if_true, Option.bind_eq_bind,
    Option.bind_some, Option.pure_def]
  cases hcount : s.count d with
  | none => simp
  | some r =>
    obtain ⟨n, t⟩ := r
    have hc := cursor_count hcount
    simp only [Option.bind_some, openLevel, hc]
    split <;> simp [Fetch.code, Fetch.state]

theorem undoes_fetchFrom (hn : 0 ≤ s.b8) (h : fetchFrom ifmt tolocal s = some (c, t)) :
    Undoes (fetchFrom ifmt) tolocal s c t := by
  by_cases hcount : ∃ code, ifmt[s.cursor.imt]? = some code ∧ code.toNat % 16 = 15
  · -- the number of repeats is in the data
    obtain ⟨code, hcode, h15⟩ := hcount
    rw [fetchFrom_count s hcode h15] at h
    obtain ⟨⟨n, u⟩, hu, h⟩ := Option.bind_eq_some_iff.mp h
    have hundo := undoes_count hu
    refine (hundo.bind openLevel ?_).congr fun bytes => fetchFrom_count { s with bytes } hcode h15 _
    simp only [openLevel] at h
    split at h
    case isTrue hroom =>
      obtain ⟨rfl, rfl⟩ := Prod.mk.inj (Option.some.inj h)
      exact .skip hundo.b8_nonneg le_rfl rfl fun bytes => if_pos hroom
    case isFalse => simp at h
  · have hstill : ∀ code ∈ ifmt[s.cursor.imt]?, code.toNat % 16 ≠ 15 :=
      fun code hcode h15 => hcount ⟨code, hcode, h15⟩
    rw [fetchFrom_still s hstill] at h
    obtain ⟨r, hr, h⟩ := Option.map_eq_some_iff.mp h
    obtain ⟨rfl, rfl⟩ := Prod.mk.inj h
    refine .skip hn le_rfl rfl fun bytes => ?_
    rw [fetchFrom_still { s with bytes } hstill, hr]
    rfl

def fetchAll (ifmt : List UInt8) (fuel : Nat) (tolocal : Bool) (s : Swapping) :
    Option ((Nat × Int) × Swapping) :=
  (fetchLoop tolocal ifmt fuel s).map fun r => ((r.1, r.2.1), r.2.2)

def fetchRest (ifmt : List UInt8) (fuel : Nat) :
    Option (Nat × Int) → Bool → Swapping → Option ((Nat × Int) × Swapping)
  | none => fetchAll ifmt fuel
  | some code => fun _ s => some (code, s)

theorem fetchAll_succ (fuel : Nat) (d : Bool) (s : Swapping) :
    fetchAll ifmt (fuel + 1) d s = (fetchFrom ifmt d s).bind fun r => fetchRest ifmt fuel r.1 d r.2 := by
  rw [fetchAll, fetchLoop, fetchFrom]
  cases fetch d ifmt s with
  | none => rfl
  | some r => cases r <;> rfl

theorem undoes_fetchAll (fuel : Nat) {code : Nat × Int} :
    ∀ s, 0 ≤ s.b8 → fetchAll ifmt fuel tolocal s = some (code, t) →
      Undoes (fetchAll ifmt fuel) tolocal s code t := by
  induction fuel with
  | zero =>
    intro s _ h
    simp [fetchAll, fetchLoop] at h
  | succ fuel ih =>
    intro s hn h
    rw [fetchAll_succ] at h
    obtain ⟨⟨c, u⟩, hu, h⟩ := Option.bind_eq_some_iff.mp h
    have hfetch := undoes_fetchFrom hn hu
    refine (hfetch.bind (fetchRest ifmt fuel) ?_).congr fun bytes => fetchAll_succ fuel _ _
    cases c with
    | none => exact ih u hfetch.b8_nonneg h
    | some r =>
      obtain ⟨rfl, rfl⟩ := Prod.mk.inj (Option.some.inj h)
      exact .skip hfetch.b8_nonneg le_rfl rfl fun bytes => rfl

theorem text_of_fetchFrom (htext : CountsNoText ifmt) {code : Nat × Int}
    (h : fetchFrom ifmt tolocal s = some (some code, t)) (hw : formatWidth code.1 = 1) : 0 < code.2 := by
  cases hb : ifmt[s.cursor.imt]? with
  | none => simp [fetchFrom, fetch, hb, Fetch.code] at h
  | some b =>
    by_cases h15 : b.toNat % 16 = 15
    · rw [fetchFrom_count s hb h15] at h
      obtain ⟨r, -, h⟩ := Option.bind_eq_some_iff.mp h
      simp [openLevel] at h
    have hend : ¬ifmt.length < s.cursor.imt + 1 := by
      have := (List.getElem?_eq_some_iff.mp hb).1
      omega
    have hpos := htext b (List.mem_of_getElem? hb)
    simp only [fetchFrom, fetch, Nat.add_sub_cancel, hend, hb, h15, if_false, Option.bind_eq_bind,
      Option.bind_some, Option.pure_def] at h
    split at h
    · -- a parenthesis is closed
      split at h
      · simp at h
      · split at h <;> simp [Fetch.code] at h
    · split at h
      · split at h <;> simp [Fetch.code] at h
      · obtain ⟨hcode, -⟩ := Prod.mk.inj (Option.some.inj h)
        obtain rfl := Option.some.inj hcode
        have := hpos hw
        dsimp only
        split
        · omega
        · split
          · omega
          · split <;> omega

theorem text_of_fetchAll (htext : CountsNoText ifmt) (fuel : Nat) {code : Nat × Int} :
    ∀ s, fetchAll ifmt fuel tolocal s = some (code, t) → formatWidth code.1 = 1 → 0 < code.2 := by
  induction fuel with
  | zero =>
    intro s h
    simp [fetchAll, fetchLoop] at h
  | succ fuel ih =>
    intro s h
    rw [fetchAll_succ] at h
    obtain ⟨⟨c, u⟩, hu, h⟩ := Option.bind_eq_some_iff.mp h
    cases c with
    | none => exact ih u h
    | some r =>
      obtain ⟨rfl, rfl⟩ := Prod.mk.inj (Option.some.inj h)
      exact text_of_fetchFrom htext hu

def convertAll (b8end : Int) (code : Nat × Int) (_ : Bool) (s : Swapping) : Option (Unit × Swapping) :=
  (convert b8end code.1 code.2 s).map fun t => ((), t)

theorem undoes_convertAll {b8end : Int} {code : Nat × Int} (hw : formatWidth code.1 = 1 → 0 ≤ code.2)
    (hn : 0 ≤ s.b8) (h : convertAll b8end code tolocal s = some ((), t)) :
    Undoes (convertAll b8end code) tolocal s () t := by
  have hwidth : formatWidth code.1 = 0 ∨ formatWidth code.1 = 1 ∨ formatWidth code.1 = 2 ∨
      formatWidth code.1 = 4 ∨ formatWidth code.1 = 8 := by
    unfold formatWidth
    repeat' split
    all_goals simp
  by_cases h0 : formatWidth code.1 = 0
  · have hconv (d : Bool) (u : Swapping) : convertAll b8end code d u = some ((), u) := by
      simp [convertAll, convert, h0]
    rw [hconv] at h
    obtain rfl := (Prod.mk.inj (Option.some.inj h)).2
    exact .skip hn le_rfl rfl fun bytes => hconv _ _
  by_cases h1 : formatWidth code.1 = 1
  · have hconv (d : Bool) (u : Swapping) :
        convertAll b8end code d u = some ((), { u with b8 := u.b8 + code.2 }) := by
      simp [convertAll, convert, h1]
    rw [hconv] at h
    obtain rfl := (Prod.mk.inj (Option.some.inj h)).2
    have := hw h1
    exact .skip hn (show s.b8 ≤ s.b8 + code.2 by omega) rfl fun bytes => hconv _ _
  · let stop (u : Swapping) := min (u.b8 + formatWidth code.1 * code.2) b8end
    have hconv (d : Bool) (u : Swapping) :
        convertAll b8end code d u = swapAll (formatWidth code.1) (stop u) (stop u - u.b8).toNat d u := by
      rw [convertAll, convert, swapAll]
      simp only [h0, h1, if_false, Option.bind_eq_bind, Option.pure_def]
      cases swapNumbers (formatWidth code.1) (stop u) (stop u - u.b8).toNat u.bytes u.b8 <;> rfl
    rw [hconv] at h
    exact (undoes_swapAll (by omega) _ _ s hn h).congr fun bytes => hconv _ _

def convertCode (b8end : Int) (code : Nat × Int) (tolocal : Bool) (s : Swapping) : Option (Unit × Swapping) :=
  if code.2 = 0 then (s.count tolocal).bind fun r => convertAll b8end (code.1, r.1) tolocal r.2
  else convertAll b8end code tolocal s

def roundAll (ifmt : List UInt8) (b8end : Int) (fuel : Nat) (tolocal : Bool) (s : Swapping) :
    Option (Unit × Swapping) :=
  (swapRound tolocal ifmt b8end fuel s).map fun t => ((), t)

theorem roundAll_eq (b8end : Int) (fuel : Nat) (d : Bool) (s : Swapping) :
    roundAll ifmt b8end fuel d s =
      (fetchAll ifmt fuel d s).bind fun r => convertCode b8end r.1 d r.2 := by
  rw [roundAll, swapRound, fetchAll]
  cases fetchLoop d ifmt fuel s with
  | none => rfl
  | some r =>
    obtain ⟨kcnf, ncnf, u⟩ := r
    simp only [Option.bind_eq_bind, Option.bind_some, Option.map_some, convertCode]
    split
    · cases u.count d <;> rfl
    · rfl

theorem undoes_convertCode {b8end : Int} {code : Nat × Int} (hw : formatWidth code.1 = 1 → 0 < code.2)
    (hn : 0 ≤ s.b8) (h : convertCode b8end code tolocal s = some ((), t)) :
    Undoes (convertCode b8end code) tolocal s () t := by
  unfold convertCode at h
  split at h
  case isTrue hzero =>
    obtain ⟨⟨n, u⟩, hu, h⟩ := Option.bind_eq_some_iff.mp h
    have hcount := undoes_count hu
    have hconv : Undoes (convertAll b8end (code.1, n)) tolocal u () t := by
      refine undoes_convertAll (fun h1 => ?_) hcount.b8_nonneg h
      have := hw h1
      omega
    exact (hcount.bind (fun n => convertAll b8end (code.1, n)) hconv).congr fun bytes => if_pos hzero
  case isFalse hzero =>
    exact (undoes_convertAll (fun h1 => (hw h1).le) hn h).congr fun bytes => if_neg hzero

theorem undoes_roundAll (htext : CountsNoText ifmt) {b8end : Int} {fuel : Nat} (hn : 0 ≤ s.b8)
    (h : roundAll ifmt b8end fuel tolocal s = some ((), t)) :
    Undoes (roundAll ifmt b8end fuel) tolocal s () t := by
  rw [roundAll_eq] at h
  obtain ⟨⟨code, u⟩, hu, h⟩ := Option.bind_eq_some_iff.mp h
  have hfetch := undoes_fetchAll fuel s hn hu
  have hconv := undoes_convertCode (text_of_fetchAll htext fuel s hu) hfetch.b8_nonneg h
  exact (hfetch.bind (convertCode b8end) hconv).congr fun bytes => roundAll_eq b8end fuel _ _

def roundsAll (ifmt : List UInt8) (b8end : Int) (fetchFuel fuel : Nat) (tolocal : Bool) (s : Swapping) :
    Option (Unit × Swapping) :=
  (swapRounds tolocal ifmt b8end fetchFuel fuel s).map fun t => ((), t)

theorem roundsAll_of_le {b8end : Int} {fetchFuel fuel : Nat} {d : Bool} (h : ¬s.b8 < b8end) :
    roundsAll ifmt b8end fetchFuel fuel d s = some ((), s) := by
  cases fuel <;> simp [roundsAll, swapRounds, h]

theorem roundsAll_succ {b8end : Int} {fetchFuel fuel : Nat} {d : Bool} (h : s.b8 < b8end) :
    roundsAll ifmt b8end fetchFuel (fuel + 1) d s =
      (roundAll ifmt b8end fetchFuel d s).bind fun r => roundsAll ifmt b8end fetchFuel fuel d r.2 := by
  rw [roundsAll, swapRounds, if_pos h, roundAll]
  cases swapRound d ifmt b8end fetchFuel s <;> rfl

theorem undoes_roundsAll (htext : CountsNoText ifmt) (b8end : Int) (fetchFuel fuel : Nat) :
    ∀ s, 0 ≤ s.b8 → roundsAll ifmt b8end fetchFuel fuel tolocal s = some ((), t) →
      Undoes (roundsAll ifmt b8end fetchFuel fuel) tolocal s () t := by
  induction fuel with
  | zero =>
    intro s hn h
    by_cases hlt : s.b8 < b8end
    · simp [roundsAll, swapRounds, hlt] at h
    · rw [roundsAll_of_le hlt] at h
      obtain rfl := (Prod.mk.inj (Option.some.inj h)).2
      exact .skip hn le_rfl rfl fun bytes => roundsAll_of_le hlt
  | succ fuel ih =>
    intro s hn h
    by_cases hlt : s.b8 < b8end
    · rw [roundsAll_succ hlt] at h
      obtain ⟨⟨_, u⟩, hu, h⟩ := Option.bind_eq_some_iff.mp h
      have hround := undoes_roundAll htext hn hu
      exact (hround.bind (fun _ => roundsAll ifmt b8end fetchFuel fuel) (ih u hround.b8_nonneg h)).congr
        fun bytes => roundsAll_succ hlt
    · rw [roundsAll_of_le hlt] at h
      obtain rfl := (Prod.mk.inj (Option.some.inj h)).2
      exact .skip hn le_rfl rfl fun bytes => roundsAll_of_le hlt

theorem eviofmtswap_back_append (htext : CountsNoText ifmt) {bytes bytes' : List UInt8} {nwrd stat : Int}
    {fetchFuel fuel : Nat} (h : eviofmtswap bytes nwrd ifmt tolocal fetchFuel fuel = some (stat, bytes'))
    (cs : List UInt8) :
    eviofmtswap (bytes' ++ cs) nwrd ifmt (!tolocal) fetchFuel fuel = some (stat, bytes ++ cs) := by
  unfold eviofmtswap at h
  split at h
  case isTrue hnone =>
    obtain ⟨rfl, rfl⟩ := Prod.mk.inj (Option.some.inj h)
    exact if_pos hnone
  case isFalse hsome =>
    obtain ⟨t, ht, h⟩ := Option.map_eq_some_iff.mp h
    obtain ⟨rfl, rfl⟩ := Prod.mk.inj h
    have hall : roundsAll ifmt (4 * nwrd) fetchFuel fuel tolocal { bytes } = some ((), t) := by
      rw [roundsAll, ht]
      rfl
    have hback := (undoes_roundsAll htext _ _ _ _ le_rfl hall).back_append rfl cs
    obtain ⟨u, hu, heq⟩ := Option.map_eq_some_iff.mp hback
    rw [eviofmtswap, if_neg hsome, hu, (Prod.mk.inj heq).2]
    rfl

theorem eviofmtswap_append (htext : CountsNoText ifmt) {bytes bytes' : List UInt8} {nwrd stat : Int}
    {fetchFuel fuel : Nat} (h : eviofmtswap bytes nwrd ifmt tolocal fetchFuel fuel = some (stat, bytes'))
    (cs : List UInt8) :
    eviofmtswap (bytes ++ cs) nwrd ifmt tolocal fetchFuel fuel = some (stat, bytes' ++ cs) := by
  have hback := eviofmtswap_back_append htext (eviofmtswap_back_append htext h cs) []
  rwa [List.append_nil, List.append_nil, Bool.not_not] at hback

/-- What `eviofmtswap` does is undone by a swap in the other direction, although the numbers of
repeats are found in what was swapped. -/
theorem eviofmtswap_back (htext : CountsNoText ifmt) {bytes bytes' : List UInt8} {nwrd stat : Int}
    {fetchFuel fuel : Nat} (h : eviofmtswap bytes nwrd ifmt tolocal fetchFuel fuel = some (stat, bytes')) :
    eviofmtswap bytes' nwrd ifmt (!tolocal) fetchFuel fuel = some (stat, bytes) := by
  have := eviofmtswap_back_append htext h []
  rwa [List.append_nil, List.append_nil] at this

theorem countsNoText_numbers : CountsNoText [15, 27, 0] := by
  intro code h
  simp only [List.mem_cons, List.not_mem_nil, or_false] at h
  rcases h with rfl | rfl | rfl <;> decide

theorem eviofmtswap_back_counted :
    eviofmtswap [2, 0, 0, 0, 4, 3, 2, 1, 8, 7, 6, 5] 3 [15, 27, 0] false 8 8 =
      some (0, [0, 0, 0, 2, 1, 2, 3, 4, 5, 6, 7, 8]) :=
  eviofmtswap_back countsNoText_numbers
    (show eviofmtswap [0, 0, 0, 2, 1, 2, 3, 4, 5, 6, 7, 8] 3 [15, 27, 0] true 8 8 =
      some (0, [2, 0, 0, 0, 4, 3, 2, 1, 8, 7, 6, 5]) by decide)

end EvioTool
