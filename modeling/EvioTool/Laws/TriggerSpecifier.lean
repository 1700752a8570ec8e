import EvioTool.Defs.TriggerSpecifier

namespace EvioTool.TriggerSpecifier

open Lib Str

variable {s : Str} {c : UInt8} {p : Nat} {f : TriggerFilter}

theorem named_of_names :
    ∀ e ∈ names, named e.1 = some { e.2.1.foldl TriggerFilter.set {} with Filter_FCup := e.2.2 } := by
  decide +kernel

theorem named_of_not_mem (h : ∀ e ∈ names, s ≠ e.1) : named s = none := by
  simp only [names, List.forall_mem_cons] at h
  simp [named, h]

theorem find_eq_none (h : c ∉ s) : s.find c 0 = none := by
  have hnone : (s.drop 0).findIdx? (· == c) = none := by
    rw [List.findIdx?_eq_none_iff]
    rintro d hd
    exact beq_eq_false_iff_ne.mpr fun heq => h (heq ▸ hd)
  rw [Str.find, hnone, Option.map_none]

theorem digitValue_lt (h : isDigitIn p c) : digitValue c < p := of_decide_eq_true h

theorem converted_decimal (hs : ∀ c ∈ s, isDigitIn 10 c) : converted s = (10, s) := by
  have hx : (120 : UInt8) ∉ s := fun h => absurd (digitValue_lt (hs _ h)) (by decide)
  have hb : (98 : UInt8) ∉ s := fun h => absurd (digitValue_lt (hs _ h)) (by decide)
  rw [converted, find_eq_none hx]
  dsimp only
  rw [find_eq_none hb]

theorem converted_binary (hs : ∀ c ∈ s, isDigitIn 2 c) : converted (48 :: 98 :: s) = (2, s) := by
  have hx : (120 : UInt8) ∉ 48 :: 98 :: s := by
    simp only [List.mem_cons, not_or]
    exact ⟨by decide, by decide, fun h => absurd (digitValue_lt (hs _ h)) (by decide)⟩
  rw [converted, find_eq_none hx]
  rfl

theorem Literal.digits (h : Literal s p) :
    (converted s).1 ≤ 16 ∧ (converted s).2 ≠ [] ∧
      (∀ c ∈ (converted s).2, isDigitIn (converted s).1 c) ∧
      natIn (converted s).1 (converted s).2 = p := by
  cases h with
  | decimal hne hs =>
    rw [converted_decimal hs]
    exact ⟨Nat.le_of_ble_eq_true rfl, hne, hs, rfl⟩
  | hex hne hs => exact ⟨Nat.le_of_ble_eq_true rfl, hne, hs, rfl⟩
  | binary hne hs =>
    rw [converted_binary hs]
    exact ⟨Nat.le_of_ble_eq_true rfl, hne, hs, rfl⟩

theorem Literal.stoiIn (h : Literal s p) : Str.stoiIn (converted s).1 (converted s).2 =
    if p < 2 ^ 31 then .ok p else .error .out_of_range := by
  obtain ⟨hbase, hne, hdigits, rfl⟩ := h.digits
  exact stoiIn_digits hbase hne hdigits

theorem Literal.startsNumber (h : Literal s p) : StartsNumber (converted s).1 (converted s).2 := by
  obtain ⟨hbase, hne, hdigits, -⟩ := h.digits
  exact startsNumber_of_digits hbase hne hdigits

theorem Literal.unique {q : Nat} (h : Literal s p) (h' : Literal s q) : q = p :=
  h'.digits.2.2.2.symm.trans h.digits.2.2.2

theorem Literal.not_name (h : Literal s p) : ∀ e ∈ names, s ≠ e.1 := by
  have hnames : ∀ e ∈ names, (∀ c ∈ e.1.head?, ¬isDigitIn 10 c) ∨ (109 : UInt8) ∈ e.1 := by
    decide +kernel
  have hhead : ∃ c ∈ s.head?, isDigitIn 10 c := by
    cases h with
    | decimal hne hs =>
      obtain ⟨c, s, rfl⟩ := List.exists_cons_of_ne_nil hne
      exact ⟨c, rfl, hs c List.mem_cons_self⟩
    | hex => exact ⟨48, rfl, by decide⟩
    | binary => exact ⟨48, rfl, by decide⟩
  have hm : (109 : UInt8) ∉ s := by
    cases h with
    | decimal hne hs => exact fun h => absurd (digitValue_lt (hs _ h)) (by decide)
    | hex hne hs =>
      simp only [List.mem_cons, not_or]
      exact ⟨by decide, by decide, fun h => absurd (digitValue_lt (hs _ h)) (by decide)⟩
    | binary hne hs =>
      simp only [List.mem_cons, not_or]
      exact ⟨by decide, by decide, fun h => absurd (digitValue_lt (hs _ h)) (by decide)⟩
  rintro e he rfl
  obtain hno | hmem := hnames e he
  · obtain ⟨c, hc, hdigit⟩ := hhead
    exact hno c hc hdigit
  · exact hm hmem

theorem StandsFor.cases (h : StandsFor s f) :
    named s = some f ∨ ∃ p < 2 ^ 32, Literal s p ∧ f = { trigger_setting := .ofNat p } := by
  cases h with
  | name hmem => exact .inl (named_of_names _ hmem)
  | number hp hlt => exact .inr ⟨_, hlt, hp, rfl⟩

theorem follows_of_name {e : Str × List TriggerBit × Bool} (he : e ∈ names) :
    Follows e.1 (parse e.1) := by
  have hparse : parse e.1 =
      .filter { e.2.1.foldl TriggerFilter.set {} with Filter_FCup := e.2.2 } := by
    rw [parse, named_of_names e he]
  have hname : StandsFor e.1 { e.2.1.foldl TriggerFilter.set {} with Filter_FCup := e.2.2 } :=
    .name he
  refine ⟨fun f hf => ?_, fun hno => (hno _ hname).elim⟩
  obtain hf | ⟨p, -, hp, -⟩ := hf.cases
  · rw [hparse, ← Option.some.inj (hf.symm.trans (named_of_names e he))]
  · exact (hp.not_name e he rfl).elim

theorem not_follows_uncaught {e : StoiError} : ¬Follows s (.uncaught e) := by
  rintro ⟨hfilter, hexit⟩
  by_cases h : ∃ f, StandsFor s f
  · obtain ⟨f, hf⟩ := h
    cases hfilter f hf
  · obtain ⟨first, hfirst⟩ := hexit fun f hf => h ⟨f, hf⟩
    cases hfirst

theorem parse_of_not_name (h : ∀ e ∈ names, s ≠ e.1) :
    parse s = setNumber s (Str.stoiIn (converted s).1 (converted s).2) := by
  rw [parse, named_of_not_mem h]

theorem follows_of_literal_iff (h : Literal s p) : Follows s (parse s) ↔ p < 2 ^ 31 := by
  have hparse := parse_of_not_name h.not_name
  rw [h.stoiIn] at hparse
  by_cases hp : p < 2 ^ 31
  · rw [if_pos hp] at hparse
    have hstands : StandsFor s { trigger_setting := .ofNat p } := .number h (by omega)
    refine iff_of_true ⟨fun f hf => ?_, fun hno => (hno _ hstands).elim⟩ hp
    obtain hf | ⟨q, -, hq, rfl⟩ := hf.cases
    · rw [named_of_not_mem h.not_name] at hf
      cases hf
    · have hmod : ((p : Int) % 2 ^ 32).toNat = p := by omega
      rw [hparse, h.unique hq, setNumber, UInt32.ofInt, hmod]
  · rw [if_neg hp] at hparse
    rw [hparse]
    exact iff_of_false not_follows_uncaught hp

/-- A specifier is parsed as what it stands for exactly when it is a name, or a number below
`2 ^ 31`, or when there is no number in what is converted. -/
theorem parse_follows_iff (s : Str) : Follows s (parse s) ↔
    (∃ e ∈ names, s = e.1) ∨ (∃ p < 2 ^ 31, Literal s p) ∨
      ¬StartsNumber (converted s).1 (converted s).2 := by
  by_cases hname : ∃ e ∈ names, s = e.1
  · obtain ⟨e, he, rfl⟩ := hname
    exact iff_of_true (follows_of_name he) (.inl ⟨e, he, rfl⟩)
  · rw [or_iff_right hname]
    push Not at hname
    by_cases hlit : ∃ p, Literal s p
    · obtain ⟨p, hp⟩ := hlit
      rw [follows_of_literal_iff hp, or_iff_left (not_not_intro hp.startsNumber)]
      constructor
      · exact fun hlt => ⟨p, hlt, hp⟩
      · rintro ⟨q, hlt, hq⟩
        rwa [hp.unique hq] at hlt
    · have hno : ∀ f, ¬StandsFor s f := by
        intro f hf
        obtain hf | ⟨p, -, hp, -⟩ := hf.cases
        · rw [named_of_not_mem hname] at hf
          cases hf
        · exact hlit ⟨p, hp⟩
      rw [or_iff_right fun ⟨p, _, hp⟩ => hlit ⟨p, hp⟩, ← stoiIn_invalid_iff]
      rw [parse_of_not_name hname]
      rcases Str.stoiIn (converted s).1 (converted s).2 with (_ | _) | n
      · exact iff_of_true ⟨fun f hf => (hno f hf).elim, fun _ => ⟨[_, _, _], rfl⟩⟩ rfl
      · exact iff_of_false not_follows_uncaught nofun
      · refine iff_of_false (fun h => ?_) nofun
        obtain ⟨first, hfirst⟩ := h.2 hno
        cases hfirst

theorem parse_uncaught : ¬Follows (str "0x80000000") (parse (str "0x80000000")) := by
  rw [show parse (str "0x80000000") = .uncaught .out_of_range by decide +kernel]
  exact not_follows_uncaught

/-- A number is taken although it is followed by something else. -/
example : parse (str "12pair") = .filter { trigger_setting := 12 } := by decide +kernel

end EvioTool.TriggerSpecifier
