import Mathlib.Data.List.Basic
import Mathlib.Data.List.Induction
import Mathlib.Data.List.Pairwise
import Mathlib.Order.Basic

/-! Tables in which an entry that is hit is used again. -/

namespace EvioTool.Lib

variable {α : Type}

def register (hit : α → α → Bool) (xs : List α) (a : α) : Nat × List α :=
  match xs.findIdx? fun x => hit x a with
  | some i => (i, xs)
  | none => (xs.length, xs ++ [a])

def registerAll (hit : α → α → Bool) : List α → List α → List Nat × List α
  | xs, [] => ([], xs)
  | xs, a :: as =>
    let (i, ys) := register hit xs a
    let (is, zs) := registerAll hit ys as
    (i :: is, zs)

/-- Requests get the same place exactly when they are the same, and the first of those that are
the same becomes the entry. -/
structure ReusesSame (same : α → α → Prop) (as : List α) (is : List Nat) (xs : List α) : Prop where
  same_iff : ∀ (j k : Nat) (a b : α) (r s : Nat), j < k → as[j]? = some a → as[k]? = some b →
    is[j]? = some r → is[k]? = some s → (s = r ↔ same a b)
  new : ∀ (k : Nat) (b : α) (s : Nat), as[k]? = some b → is[k]? = some s →
    (∀ a ∈ as.take k, ¬same a b) → xs[s]? = some b

/-- Entries hit what is the same, and whatever is the same hits alike. -/
structure Hits (hit : α → α → Bool) (same : α → α → Prop) : Prop where
  equivalence : Equivalence same
  symm : ∀ {a b}, hit a b → hit b a
  of_same : ∀ {a b}, same a b → hit a b
  congr : ∀ {a a' b}, same a a' → hit a b → hit a' b

section Register

variable {hit : α → α → Bool} {same : α → α → Prop} {xs ys as : List α} {is : List Nat} {a b : α}
  {i : Nat}

theorem registerAll_cons (hit : α → α → Bool) (xs : List α) (a : α) (as : List α) :
    registerAll hit xs (a :: as) =
      ((register hit xs a).1 :: (registerAll hit (register hit xs a).2 as).1,
        (registerAll hit (register hit xs a).2 as).2) := rfl

theorem registerAll_append (hit : α → α → Bool) (xs as : List α) (b : α) :
    registerAll hit xs (as ++ [b]) =
      ((registerAll hit xs as).1 ++ [(register hit (registerAll hit xs as).2 b).1],
        (register hit (registerAll hit xs as).2 b).2) := by
  induction as generalizing xs with
  | nil => rfl
  | cons a as ih => rw [List.cons_append, registerAll_cons, registerAll_cons, ih, List.cons_append]

theorem length_registerAll (hit : α → α → Bool) (xs as : List α) :
    (registerAll hit xs as).1.length = as.length := by
  induction as generalizing xs with
  | nil => rfl
  | cons a as ih => rw [registerAll_cons, List.length_cons, ih, List.length_cons]

theorem register_cases (hit : α → α → Bool) (xs : List α) (a : α) :
    (∃ i x, register hit xs a = (i, xs) ∧ xs[i]? = some x ∧ hit x a) ∨
      (register hit xs a = (xs.length, xs ++ [a]) ∧ ∀ x ∈ xs, ¬hit x a) := by
  unfold register
  cases hf : xs.findIdx? fun x => hit x a with
  | some i =>
    obtain ⟨hlt, hhit, -⟩ := List.findIdx?_eq_some_iff_getElem.mp hf
    exact .inl ⟨i, xs[i], rfl, List.getElem?_eq_getElem hlt, hhit⟩
  | none =>
    refine .inr ⟨rfl, fun x hx => ?_⟩
    simpa using List.findIdx?_eq_none_iff.mp hf x hx

theorem register_of_hit {x : α} (hx : x ∈ xs) (h : hit x a) :
    ∃ i y, register hit xs a = (i, xs) ∧ xs[i]? = some y ∧ hit y a := by
  obtain h' | ⟨-, hno⟩ := register_cases hit xs a
  · exact h'
  · exact (hno x hx h).elim

theorem register_lt (hit : α → α → Bool) (xs : List α) (a : α) :
    (register hit xs a).1 < (register hit xs a).2.length ∧ xs <+: (register hit xs a).2 := by
  obtain ⟨i, x, hr, hx, -⟩ | ⟨hr, -⟩ := register_cases hit xs a
  · rw [hr]
    exact ⟨(List.getElem?_eq_some_iff.mp hx).1, List.prefix_rfl⟩
  · rw [hr]
    exact ⟨by simp, List.prefix_append ..⟩

theorem registerAll_lt (hit : α → α → Bool) (xs as : List α) :
    (∀ i ∈ (registerAll hit xs as).1, i < (registerAll hit xs as).2.length) ∧
      xs <+: (registerAll hit xs as).2 := by
  induction as generalizing xs with
  | nil => exact ⟨fun _ h => (List.not_mem_nil h).elim, List.prefix_rfl⟩
  | cons a as ih =>
    obtain ⟨hlt, hpre⟩ := register_lt hit xs a
    obtain ⟨hrest, hall⟩ := ih (register hit xs a).2
    rw [registerAll_cons]
    refine ⟨List.forall_mem_cons.mpr ⟨?_, hrest⟩, hpre.trans hall⟩
    exact Nat.lt_of_lt_of_le hlt hall.length_le

theorem getElem?_mono (h : xs <+: ys) (ha : xs[i]? = some a) : ys[i]? = some a := by
  obtain ⟨hlt, rfl⟩ := List.getElem?_eq_some_iff.mp ha
  exact List.prefix_iff_getElem?.mp h i hlt

def Distinct (same : α → α → Prop) (xs : List α) : Prop :=
  ∀ (i j : Nat) (a b : α), xs[i]? = some a → xs[j]? = some b → same a b → i = j

theorem Distinct.concat (h : Distinct same xs) (hsymm : ∀ {a b}, same a b → same b a)
    (ha : ∀ x ∈ xs, ¬same x a) : Distinct same (xs ++ [a]) := by
  have hlast {i : Nat} {b : α} (hb : (xs ++ [a])[i]? = some b) :
      xs[i]? = some b ∨ i = xs.length ∧ b = a := by
    rw [List.getElem?_append] at hb
    split at hb
    · exact .inl hb
    · rw [List.getElem?_singleton] at hb
      split at hb
      · exact .inr ⟨by omega, (Option.some.inj hb).symm⟩
      · cases hb
  intro i j b c hb hc hsame
  obtain hxb | ⟨hi, rfl⟩ := hlast hb
  · obtain hxc | ⟨-, rfl⟩ := hlast hc
    · exact h i j b c hxb hxc hsame
    · exact (ha b (List.mem_of_getElem? hxb) hsame).elim
  · obtain hxc | ⟨hj, -⟩ := hlast hc
    · exact (ha c (List.mem_of_getElem? hxc) (hsymm hsame)).elim
    · rw [hi, hj]

/-- What the requests leave in the table, and where they find it. -/
structure Booked (same : α → α → Prop) (xs as : List α) (is : List Nat) (ys : List α) : Prop where
  distinct : Distinct same ys
  mem : ∀ y ∈ ys, y ∈ xs ∨ y ∈ as
  found : ∀ (k : Nat) (a : α) (i : Nat), as[k]? = some a → is[k]? = some i →
    ∃ y, ys[i]? = some y ∧ same y a
  new : ∀ (k : Nat) (a : α) (i : Nat), as[k]? = some a → is[k]? = some i →
    (∀ x ∈ xs ++ as.take k, ¬same x a) → ys[i]? = some a

theorem Booked.reuse (h : Booked same xs as is ys) (hmem : b ∈ xs) (hb : ys[i]? = some b)
    (hsame : same b a) : Booked same xs (a :: as) (i :: is) ys where
  distinct := h.distinct
  mem y hy := (h.mem y hy).imp_right (List.mem_cons_of_mem _)
  found k c j hc hj := by
    cases k with
    | zero =>
      cases Option.some.inj hc
      cases Option.some.inj hj
      exact ⟨b, hb, hsame⟩
    | succ k => exact h.found k c j hc hj
  new k c j hc hj hnew := by
    cases k with
    | zero =>
      cases Option.some.inj hc
      exact (hnew b (by simpa using hmem) hsame).elim
    | succ k =>
      refine h.new k c j hc hj fun y hy => hnew y ?_
      simp only [List.take_succ_cons, List.mem_append, List.mem_cons] at hy ⊢
      exact hy.imp_right .inr

theorem Booked.add (h : Booked same (xs ++ [a]) as is ys) (ha : ys[i]? = some a)
    (hsame : same a a) : Booked same xs (a :: as) (i :: is) ys where
  distinct := h.distinct
  mem y hy := by
    have hy := h.mem y hy
    simp only [List.mem_append, List.mem_singleton] at hy
    rw [List.mem_cons]
    tauto
  found k c j hc hj := by
    cases k with
    | zero =>
      cases Option.some.inj hc
      cases Option.some.inj hj
      exact ⟨a, ha, hsame⟩
    | succ k => exact h.found k c j hc hj
  new k c j hc hj hnew := by
    cases k with
    | zero =>
      cases Option.some.inj hc
      cases Option.some.inj hj
      exact ha
    | succ k =>
      refine h.new k c j hc hj fun y hy => hnew y ?_
      simpa only [List.take_succ_cons, List.append_assoc, List.singleton_append] using hy

theorem Hits.booked (h : Hits hit same) (hxs : Distinct same xs)
    (hhit : ∀ x ∈ xs, ∀ a ∈ as, hit x a → same x a)
    (hpair : as.Pairwise fun a b => hit a b → same a b) :
    Booked same xs as (registerAll hit xs as).1 (registerAll hit xs as).2 := by
  induction as generalizing xs with
  | nil =>
    exact ⟨hxs, fun _ hy => .inl hy, fun _ _ _ h => by simp at h, fun _ _ _ h => by simp at h⟩
  | cons a as ih =>
    obtain ⟨ha, hpair⟩ := List.pairwise_cons.mp hpair
    have hpre := (registerAll_lt hit (register hit xs a).2 as).2
    rw [registerAll_cons]
    obtain ⟨i, x, hr, hx, hxa⟩ | ⟨hr, hno⟩ := register_cases hit xs a
    · rw [hr] at hpre ⊢
      have hmem := List.mem_of_getElem? hx
      have hsame := hhit x hmem a List.mem_cons_self hxa
      have hrest := ih hxs (fun x hx b hb => hhit x hx b (List.mem_cons_of_mem _ hb)) hpair
      exact hrest.reuse hmem (getElem?_mono hpre hx) hsame
    · rw [hr] at hpre ⊢
      have hdistinct := hxs.concat h.equivalence.symm fun x hx hs => hno x hx (h.of_same hs)
      have hrest := ih hdistinct (fun x hx b hb => ?_) hpair
      · exact hrest.add (getElem?_mono hpre (by simp)) (h.equivalence.refl a)
      · obtain hx | hx := List.mem_append.mp hx
        · exact hhit x hx b (List.mem_cons_of_mem _ hb)
        · obtain rfl := List.mem_singleton.mp hx
          exact ha b hb

theorem Hits.booked_nil (h : Hits hit same) (hpair : as.Pairwise fun a b => hit a b → same a b) :
    Booked same [] as (registerAll hit [] as).1 (registerAll hit [] as).2 := by
  refine h.booked ?_ (fun _ h => (List.not_mem_nil h).elim) hpair
  intro i j a b ha
  simp at ha

theorem Booked.reusesSame (h : Booked same [] as is ys) (hsame : Equivalence same) :
    ReusesSame same as is ys := by
  refine ⟨fun j k a b r s _ ha hb hr hs => ?_, fun k b s hb hs hnew => h.new k b s hb hs hnew⟩
  obtain ⟨y, hy, hya⟩ := h.found j a r ha hr
  obtain ⟨z, hz, hzb⟩ := h.found k b s hb hs
  constructor
  · rintro rfl
    obtain rfl := Option.some.inj (hy.symm.trans hz)
    exact hsame.trans (hsame.symm hya) hzb
  · intro hab
    exact h.distinct s r z y hz hy (hsame.trans hzb (hsame.trans (hsame.symm hab) (hsame.symm hya)))

theorem ReusesSame.init (h : ReusesSame same (as ++ [a]) (registerAll hit [] (as ++ [a])).1
    (registerAll hit [] (as ++ [a])).2) :
    ReusesSame same as (registerAll hit [] as).1 (registerAll hit [] as).2 := by
  rw [registerAll_append] at h
  have hlen := length_registerAll hit [] as
  obtain ⟨hlt, -⟩ := registerAll_lt hit [] as
  generalize (registerAll hit [] as).1 = is, (registerAll hit [] as).2 = xs at h hlen hlt
  have has {k : Nat} {b : α} (hb : as[k]? = some b) : (as ++ [a])[k]? = some b :=
    getElem?_mono (List.prefix_append ..) hb
  have his {k r : Nat} (hr : is[k]? = some r) : (is ++ [(register hit xs a).1])[k]? = some r :=
    getElem?_mono (List.prefix_append ..) hr
  refine ⟨fun j k b c r s hjk hb hc hr hs =>
    h.same_iff j k b c r s hjk (has hb) (has hc) (his hr) (his hs), fun k b s hb hs hnew => ?_⟩
  have hk : k ≤ as.length := Nat.le_of_lt (List.getElem?_eq_some_iff.mp hb).1
  have hget := h.new k b s (has hb) (his hs) (by rwa [List.take_append_of_le_length hk])
  rw [← hget]
  obtain ⟨zs, hzs⟩ := (register_lt hit xs a).2
  rw [← hzs, List.getElem?_append_left (hlt s (List.mem_of_getElem? hs))]

theorem Hits.reusesSame_iff (h : Hits hit same) (as : List α) :
    ReusesSame same as (registerAll hit [] as).1 (registerAll hit [] as).2 ↔
      as.Pairwise fun a b => hit a b → same a b := by
  refine ⟨fun hreuse => ?_, fun hpair => (h.booked_nil hpair).reusesSame h.equivalence⟩
  induction as using List.reverseRecOn with
  | nil => exact .nil
  | append_singleton as b ih =>
    have hpair := ih hreuse.init
    refine List.pairwise_append.mpr ⟨hpair, List.pairwise_singleton _ _, fun a ha c hc hab => ?_⟩
    obtain rfl := List.mem_singleton.mp hc
    by_contra hno
    have hbooked := h.booked_nil hpair
    -- no earlier request is the same as the last one
    have hfresh : ∀ d ∈ as, ¬same d c := by
      intro d hd hdc
      have hsymm : Std.Symm fun a b => hit a b → same a b :=
        ⟨fun x y hxy hyx => h.equivalence.symm (hxy (h.symm hyx))⟩
      have hall := List.Pairwise.forall_of_forall (fun x _ _ => h.equivalence.refl x) hpair
      have hda : hit d a := h.congr (h.equivalence.symm hdc) (h.symm hab)
      exact hno (h.equivalence.trans (h.equivalence.symm (hall hd ha hda)) hdc)
    -- the entry for `a` is hit
    obtain ⟨k, hk⟩ := List.getElem?_of_mem ha
    have hlt : k < (registerAll hit [] as).1.length := by
      rw [length_registerAll]
      exact (List.getElem?_eq_some_iff.mp hk).1
    obtain ⟨y, hy, hya⟩ := hbooked.found k a _ hk (List.getElem?_eq_getElem hlt)
    have hyc : hit y c := h.congr (h.equivalence.symm hya) hab
    obtain ⟨i, z, hr, hz, -⟩ := register_of_hit (List.mem_of_getElem? hy) hyc
    rw [registerAll_append, hr] at hreuse
    have hlast := hreuse.new as.length c i (by simp) (by simp [length_registerAll])
      (by simpa using hfresh)
    obtain rfl := Option.some.inj (hz.symm.trans hlast)
    obtain hmem | hmem := hbooked.mem z (List.mem_of_getElem? hz)
    · cases hmem
    · exact hfresh z hmem (h.equivalence.refl z)

end Register

end EvioTool.Lib
