import EvioTool.Defs.DataSet

namespace EvioTool

open Lib Placed

namespace HPSEvioReader

variable {A : Allocator} {r s t : HPSEvioReader} {o p : Nat} {ps : List Nat} {b : Bank}
  {base : List (Placed Bank)}

def rest (r : HPSEvioReader) : HPSEvioReader := { r with banks := [], made := 0 }

structure Adds (r : HPSEvioReader) (o : Nat) (ps : List Nat) (b : Bank) (s : HPSEvioReader) :
    Prop where
  banks : s.banks = r.banks ++ [⟨o, ps, b⟩]
  distinct : Distinct s.banks
  rest : s.rest = r.rest

theorem Adds.members (h : Adds r o ps b s) : s.members = r.members :=
  show s.rest.members = r.rest.members from congrArg _ h.rest

theorem Adds.time (h : Adds r o ps b s) : s.isEngineeringRun = r.isEngineeringRun :=
  show s.rest.isEngineeringRun = r.rest.isEngineeringRun from congrArg _ h.rest

theorem Adds.label (h : Adds r o ps b s) : s.info = r.info :=
  show s.rest.info = r.rest.info from congrArg _ h.rest

theorem Adds.ecalCrate (h : Adds r o ps b s) : s.ecalCrate = r.ecalCrate :=
  show s.rest.ecalCrate = r.rest.ecalCrate from congrArg _ h.rest

theorem adds_newBank (hd : Distinct r.banks) (h : r.newBank A b = (o, s)) : Adds r o [] b s := by
  cases h
  exact ⟨rfl, hd.concat (A.fresh _ _), rfl⟩

theorem Adds.update (h : Adds r o ps b s) (ps' : List Nat) (b' : Bank) (n : Nat)
    {f : Placed Bank → Placed Bank} (hf : f ⟨o, ps, b⟩ = ⟨o, ps', b'⟩) :
    Adds r o ps' b' { s with banks := Placed.update s.banks o f, made := n } := by
  have hd := h.distinct
  rw [h.banks] at hd
  have hbanks : Placed.update s.banks o f = r.banks ++ [⟨o, ps', b'⟩] := by
    rw [h.banks, ← hf]
    exact update_concat hd
  refine ⟨hbanks, ?_, h.rest⟩
  simp only [hbanks]
  obtain ⟨hbase, hne⟩ := distinct_append_cons.mp hd
  exact distinct_append_cons.mpr ⟨hbase, hne⟩

theorem Adds.newLeaf (h : Adds r o ps b s) {add : BankInfo → BankInfo}
    (hleaf : s.newLeaf A o add = (p, t)) : Adds r o (ps ++ [p]) (b.setLabel (add b.label)) t := by
  cases hleaf
  exact h.update _ _ _ rfl

theorem adds_addBank (hd : Distinct r.banks) {c : BankCall}
    (hnone : r.bank.findBank c.itag c.inum = none) (h : r.addBank A c = (o, s)) :
    Adds r o [] c.newbank s := by
  rw [addBank, hnone] at h
  exact adds_newBank hd h

def svtBank (tags : List UInt16) (cls : BankClass) (tag : Int) : Bank :=
  .node
    { name := "SVT", title := "SVT banks", tags, cls, nameIndex := [("SVTLeaf", 0)],
      leafs := [uintLeaf "SVTLeaf" "SVT unsigned int data" tag] }
    []

theorem adds_newSVTBank (hd : Distinct r.banks) {tags : List UInt16} {cls : BankClass}
    (h : r.newSVTBank A tags cls = (o, s)) : ∃ p, Adds r o [p] (svtBank tags cls 57648) s := by
  rcases hbank : r.newBank A (.node { name := "SVT", title := "SVT banks", tags, cls } [])
    with ⟨o', r₁⟩
  rcases hleaf : r₁.newLeaf A o' fun b =>
    b.addLeaf (.prim .uint32) "SVTLeaf" 57648 0 "SVT unsigned int data" with ⟨p, r₂⟩
  simp only [newSVTBank, hbank, hleaf, Prod.mk.injEq] at h
  obtain ⟨rfl, rfl⟩ := h
  exact ⟨p, (adds_newBank hd hbank).newLeaf hleaf⟩

theorem adds_newSVTBank2016 (hd : Distinct r.banks) {tags : List UInt16}
    (h : r.newSVTBank2016 A tags = (o, s)) :
    ∃ p, Adds r o [p] (svtBank tags (.svtBank2016 {}) 3) s := by
  rcases hsvt : r.newSVTBank A tags (.svtBank2016 {}) with ⟨o', r₁⟩
  obtain ⟨p, hadds⟩ := adds_newSVTBank hd hsvt
  simp only [newSVTBank2016, hsvt, Prod.mk.injEq] at h
  obtain ⟨rfl, rfl⟩ := h
  exact ⟨p, hadds.update _ _ _ rfl⟩

theorem adds_vtpCrate (hd : Distinct r.banks) {c : BankCall}
    (hnone : r.bank.findBank c.itag c.inum = none) (hbank : r.addBank A c = (o, s))
    (hleaf : s.newVTPBank A o = (p, t)) :
    Adds r o [p] (c.newbank.setLabel (c.newbank.label.addThisLeaf vtpLeaf)) t :=
  (adds_addBank hd hnone hbank).newLeaf hleaf

theorem findBank_bank {bs : List Bank} (h : r.banks.map value = bs) (tag : UInt16) (num : UInt8) :
    r.bank.findBank tag num = Bank.findBank (.node r.info bs) tag num := by
  rw [bank, h]

theorem Adds.values (h : Adds r o ps b s) {bs : List Bank} (hr : r.banks.map value = bs) :
    s.banks.map value = bs ++ [b] := by
  rw [h.banks, List.map_append, hr]
  rfl

structure Has (base own : List (Placed Bank)) (members : List (Option Nat)) (time : Bool)
    (r : HPSEvioReader) : Prop where
  banks : r.banks = base ++ own
  distinct : Distinct r.banks
  members : r.members = members
  time : r.isEngineeringRun = time

def IsPlain (base : List (Placed Bank)) (r : HPSEvioReader) : Prop :=
  r.Has base [] [none, none, none, none, none] false

def Is2019 (base : List (Placed Bank)) (r : HPSEvioReader) : Prop :=
  ∃ svt top bot l t b,
    r.Has base [⟨svt, [l], svtBank [2, 3] (.svtBank {}) 57648⟩,
      ⟨top, [t], vtpCrate 11 "Trigger Bank top"⟩, ⟨bot, [b], vtpCrate 12 "Trigger Bank bottom"⟩]
      [some svt, some top, some bot, some t, some b] false

def Is2016 (base : List (Placed Bank)) (r : HPSEvioReader) : Prop :=
  ∃ svt l, r.Has base
    [⟨svt, [l], svtBank [51, 52, 53, 54, 55, 56, 57, 58, 59, 60, 61, 62, 63, 64, 65]
      (.svtBank2016 {}) 3⟩]
    [some svt, none, none, none, none] true

def crates : List Bank :=
  [trigCrate,
    .node
      { name := "ECAL", title := "Ecal banks", tags := [37, 39], nameIndex := [("FADC", 0)],
        leafs :=
          [⟨.fadc, { name := "FADC", title := "FADC mode 1 data", tag := 57601, num := 0 }⟩] }
      []]

theorem isPlain_makeCrates (h : IsPlain [] r) : ∃ trig ecal : Placed Bank,
    [trig, ecal].map value = crates ∧ IsPlain [trig, ecal] (r.makeCrates A) ∧
      (r.makeCrates A).ecalCrate = some ecal.address ∧ (r.makeCrates A).info = r.info := by
  rcases htrig : r.addBank A ⟨"Trig", 46, 0, "Trigger bank"⟩ with ⟨trig, r₁⟩
  rcases hhead : r₁.newLeaf A trig fun b =>
    b.addThisLeaf (uintLeaf "Headbank" "Headbank data" 57615) with ⟨l, r₂⟩
  rcases hts : r₂.newLeaf A trig fun b =>
    b.addThisLeaf (uintLeaf "TSBank" "TSBank data" 57610) with ⟨m, r₃⟩
  rcases hecal : r₃.newBank A (.node { name := "ECAL", title := "Ecal banks", tags := [37, 39] } [])
    with ⟨ecal, r₄⟩
  rcases hfadc : r₄.newLeaf A ecal fun b => b.addLeaf .fadc "FADC" 57601 0 "FADC mode 1 data"
    with ⟨f, r₅⟩
  have hvalues : r.banks.map value = [] := by rw [h.banks]; rfl
  have h₁ := adds_addBank h.distinct (by rw [findBank_bank hvalues]; rfl) htrig
  have h₃ := (h₁.newLeaf hhead).newLeaf hts
  have h₅ := (adds_newBank h₃.distinct hecal).newLeaf hfadc
  refine ⟨⟨trig, [l, m], _⟩, ⟨ecal, [f], _⟩, rfl, ?_⟩
  simp only [makeCrates, htrig, hhead, hts, hecal, hfadc]
  refine ⟨⟨?_, h₅.distinct, ?_, ?_⟩, trivial, ?_⟩
  · rw [h₅.banks, h₃.banks, h.banks]
    rfl
  · exact h₅.members.trans (h₃.members.trans h.members)
  · rw [h₅.time, h₃.time, h.time]
  · rw [h₅.label, h₃.label]

def topInfo (trigfile : Bool) : BankInfo :=
  let head := uintLeaf "Header" "Event Header data" 49152
  if trigfile then
    { name := "EvioTool", title := "The top node of the EVIO tree", tags := [128, 17],
      tagMasks := [128, 17], nameIndex := [("Header", 0)], leafs := [head] }
  else filterTop.label

theorem setup_isPlain (A : Allocator) (trigfile : Bool) : ∃ trig ecal : Placed Bank,
    [trig, ecal].map value = crates ∧ IsPlain [trig, ecal] (setup A trigfile) ∧
      (setup A trigfile).ecalCrate = some ecal.address ∧
        (setup A trigfile).info = topInfo trigfile := by
  obtain ⟨trig, ecal, hcrates, hplain, hecal, hinfo⟩ :=
    isPlain_makeCrates (A := A) (r := { info := topInfo trigfile })
      ⟨rfl, List.nodup_nil, rfl, rfl⟩
  cases trigfile with
  | false => exact ⟨trig, ecal, hcrates, hplain, hecal, hinfo⟩
  | true => exact ⟨trig, ecal, hcrates, hplain, hecal, hinfo⟩

theorem removeIf_eq (r : HPSEvioReader) (p : Option Nat) :
    r.removeIf p = { r with banks := p.elim r.banks (remove r.banks) } := by
  cases p <;> rfl

theorem cleanUp_eq (r : HPSEvioReader) : r.cleanUp = { r with
    banks := [r.svt, r.trigTop, r.trigBot].foldl (fun xs p => p.elim xs (remove xs)) r.banks } := by
  simp only [cleanUp, removeIf_eq]
  rfl

@[simp] theorem members_cleanUp (r : HPSEvioReader) : r.cleanUp.members = r.members := by
  rw [cleanUp_eq]
  rfl

@[simp] theorem time_cleanUp (r : HPSEvioReader) :
    r.cleanUp.isEngineeringRun = r.isEngineeringRun := by rw [cleanUp_eq]

theorem Has.distinct_append {own : List (Placed Bank)} {ms : List (Option Nat)} {time : Bool}
    (h : r.Has base own ms time) : Distinct (base ++ own) := by
  rw [← h.banks]
  exact h.distinct

theorem Has.pointers {own : List (Placed Bank)} {time : Bool} {p₀ p₁ p₂ p₃ p₄ : Option Nat}
    (h : r.Has base own [p₀, p₁, p₂, p₃, p₄] time) :
    r.svt = p₀ ∧ r.trigTop = p₁ ∧ r.trigBot = p₂ ∧ r.vtpTop = p₃ ∧ r.vtpBot = p₄ := by
  simpa [HPSEvioReader.members] using h.members

theorem Has.banks_cleanUp {own : List (Placed Bank)} {time : Bool} {p₀ p₁ p₂ p₃ p₄ : Option Nat}
    (h : r.Has base own [p₀, p₁, p₂, p₃, p₄] time)
    (hown : ∀ xs : List (Placed Bank), [p₀, p₁, p₂].foldl (fun xs p => p.elim xs (remove xs)) xs =
      (own.map address).foldl remove xs) : r.cleanUp.banks = base ∧ Distinct base := by
  obtain ⟨h₀, h₁, h₂, -⟩ := h.pointers
  have hremoved := foldl_remove h.distinct_append
  refine ⟨?_, h.distinct_append.left⟩
  rw [cleanUp_eq]
  simp only [h₀, h₁, h₂, h.banks, hown, hremoved]

theorem cleanUp_banks (h : IsPlain base r ∨ Is2019 base r ∨ Is2016 base r) :
    r.cleanUp.banks = base ∧ Distinct base := by
  rcases h with h | ⟨svt, top, bot, l, t, b, h⟩ | ⟨svt, l, h⟩
  · exact h.banks_cleanUp fun _ => rfl
  · exact h.banks_cleanUp fun _ => rfl
  · exact h.banks_cleanUp fun _ => rfl

theorem set2019Data_isPlain (hbase : base.map value = crates) (h : r.cleanUp.banks = base)
    (hd : Distinct base) (ht : r.cleanUp.isEngineeringRun = false) :
    Is2019 base (r.set2019Data A) ∧ (r.set2019Data A).info = r.cleanUp.info ∧
      (r.set2019Data A).ecalCrate = r.cleanUp.ecalCrate := by
  subst h
  rcases hsvt : r.cleanUp.newSVTBank A [2, 3] (.svtBank {}) with ⟨svt, r₁⟩
  rcases htop : r₁.addBank A ⟨"TrigTop", 11, 0, "Trigger Bank top"⟩ with ⟨top, r₂⟩
  rcases hvtpTop : r₂.newVTPBank A top with ⟨t, r₃⟩
  rcases hbot : r₃.addBank A ⟨"TrigTop", 12, 0, "Trigger Bank bottom"⟩ with ⟨bot, r₄⟩
  rcases hvtpBot : r₄.newVTPBank A bot with ⟨b, r₅⟩
  obtain ⟨l, h₁⟩ := adds_newSVTBank hd hsvt
  have hvalues := h₁.values hbase
  have h₃ := adds_vtpCrate h₁.distinct (by rw [findBank_bank hvalues]; rfl) htop hvtpTop
  have h₅ := adds_vtpCrate h₃.distinct (by rw [findBank_bank (h₃.values hvalues)]; rfl) hbot hvtpBot
  simp only [set2019Data, hsvt, htop, hvtpTop, hbot, hvtpBot]
  refine ⟨⟨svt, top, bot, l, t, b, ?_, h₅.distinct, rfl, ?_⟩, ?_, ?_⟩
  · rw [h₅.banks, h₃.banks, h₁.banks, List.append_assoc, List.append_assoc]
    rfl
  · rw [h₅.time, h₃.time, h₁.time, ht]
  · rw [h₅.label, h₃.label, h₁.label]
  · rw [h₅.ecalCrate, h₃.ecalCrate, h₁.ecalCrate]

theorem set2016Data_isPlain (h : r.cleanUp.banks = base) (hd : Distinct base)
    (hm : r.cleanUp.members.tail = [none, none, none, none]) : Is2016 base (r.set2016Data A) := by
  subst h
  rcases hsvt : r.cleanUp.newSVTBank2016 A
    [51, 52, 53, 54, 55, 56, 57, 58, 59, 60, 61, 62, 63, 64, 65] with ⟨svt, r₁⟩
  obtain ⟨l, h₁⟩ := adds_newSVTBank2016 hd hsvt
  refine ⟨svt, l, ?_⟩
  simp only [set2016Data, hsvt]
  refine ⟨h₁.banks, h₁.distinct, ?_, rfl⟩
  rw [← h₁.members] at hm
  exact congrArg (some svt :: ·) hm

theorem unlink_construct (A : Allocator) : (construct A false 2019).unlink.bank = filterTop := by
  obtain ⟨trig, ecal, hcrates, hplain, hecal, hinfo⟩ := setup_isPlain A false
  obtain ⟨hbanks, hd⟩ := cleanUp_banks (.inl hplain)
  have hcleaned : (setup A false).cleanUp = setup A false := by
    rw [cleanUp_eq]
    obtain ⟨h₀, h₁, h₂, -⟩ := hplain.pointers
    rw [h₀, h₁, h₂]
    rfl
  obtain ⟨⟨svt, top, bot, l, t, b, h⟩, hinfo', hecal'⟩ :=
    set2019Data_isPlain (A := A) hcrates hbanks hd (by rw [time_cleanUp, hplain.time])
  rw [hcleaned, hinfo] at hinfo'
  rw [hcleaned, hecal] at hecal'
  have hset : construct A false 2019 = (setup A false).set2019Data A := rfl
  have hdist := h.distinct_append
  have hcrate : Distinct ([trig] ++ ecal :: [⟨top, [t], vtpCrate 11 "Trigger Bank top"⟩,
      ⟨bot, [b], vtpCrate 12 "Trigger Bank bottom"⟩]) := (distinct_append_cons.mp hdist).1
  have hbanks' : (construct A false 2019).unlink.banks = [trig,
      ⟨top, [t], vtpCrate 11 "Trigger Bank top"⟩,
      ⟨bot, [b], vtpCrate 12 "Trigger Bank bottom"⟩] := by
    rw [hset, unlink, removeIf_eq, removeIf_eq, hecal', h.pointers.1, h.banks]
    simp only [Option.elim_some]
    rw [remove_append_cons hdist]
    exact remove_append_cons hcrate
  have hlabel : (construct A false 2019).unlink.info = topInfo false := by
    rw [hset, unlink, removeIf_eq, removeIf_eq, hinfo']
  have htrig : trig.value = trigCrate := (List.cons.inj hcrates).1
  rw [bank, hbanks', hlabel, List.map_cons, htrig]
  rfl

@[simp] theorem time_addBank (r : HPSEvioReader) (c : BankCall) :
    (r.addBank A c).2.isEngineeringRun = r.isEngineeringRun := by
  unfold addBank
  split <;> rfl

@[simp] theorem time_newLeaf (r : HPSEvioReader) (o : Nat) (add : BankInfo → BankInfo) :
    (r.newLeaf A o add).2.isEngineeringRun = r.isEngineeringRun := rfl

@[simp] theorem time_newSVTBank (r : HPSEvioReader) (tags : List UInt16) (cls : BankClass) :
    (r.newSVTBank A tags cls).2.isEngineeringRun = r.isEngineeringRun := rfl

theorem time_set2019Data (r : HPSEvioReader) :
    (r.set2019Data A).isEngineeringRun = r.isEngineeringRun := by
  simp [set2019Data, newVTPBank]

theorem trigTop_set2016Data (r : HPSEvioReader) : (r.set2016Data A).trigTop = r.trigTop := by
  have h : (r.set2016Data A).trigTop = r.cleanUp.trigTop := rfl
  rw [h, cleanUp_eq]

theorem SetUpAlike.time_eq (h : SetUpAlike r s) : r.isEngineeringRun = s.isEngineeringRun := by
  have htime := h.time 1 0
  unfold getTrigTime at htime
  cases hr : r.isEngineeringRun <;> cases hs : s.isEngineeringRun <;> simp_all

theorem Has.alike {base' own own' : List (Placed Bank)} {ms ms' : List (Option Nat)} {time : Bool}
    (h : r.Has base own ms time) (h' : s.Has base' own' ms' time)
    (hbase : base.map value = base'.map value) (hown : own.map value = own'.map value)
    (hms : List.Forall₂ (fun p p' => r.PointsToLive p ↔ s.PointsToLive p') ms ms') :
    SetUpAlike r s where
  banks := by simp [bank, h.banks, h'.banks, hbase, hown]
  members := by rwa [h.members, h'.members]
  time head trigger := by rw [getTrigTime, getTrigTime, h.time, h'.time]

theorem SetUpAlike.trigTop_eq_none (h : SetUpAlike r s) (hlive : ∀ p ∈ r.members, ¬r.Dangles p)
    (hnone : s.trigTop = none) : r.trigTop = none := by
  cases hp : r.trigTop with
  | none => rfl
  | some a =>
    have hmem : some a ∈ r.members := by simp [HPSEvioReader.members, hp]
    have ha : a ∈ r.live := by
      by_contra hgone
      exact hlive _ hmem ⟨a, rfl, hgone⟩
    have halike := h.members
    simp only [HPSEvioReader.members, hp, hnone, List.forall₂_cons] at halike
    obtain ⟨_, hnull, -⟩ := halike.2.1.mp ⟨a, rfl, ha⟩
    cases hnull

end HPSEvioReader

namespace DataSet

open HPSEvioReader

variable {A : Allocator} {r r' : HPSEvioReader} {base base' : List (Placed Bank)} {d : DataSet}
  {calls : List DataSet}

theorem setAll_cons (r : HPSEvioReader) (c : DataSet) (calls : List DataSet) :
    setAll A r (c :: calls) = setAll A (set A r c) calls := rfl

theorem time_setAll :
    (setAll A r calls).isEngineeringRun ↔ r.isEngineeringRun ∨ .set2016 ∈ calls := by
  induction calls generalizing r with
  | nil => simp [setAll]
  | cons c calls ih =>
    rw [setAll_cons, ih]
    cases c with
    | set2019 => simp [set, time_set2019Data]
    | set2016 => simp [set, set2016Data]

theorem trigTop_setAll :
    (setAll A r calls).trigTop.isSome ↔ r.trigTop.isSome ∨ .set2019 ∈ calls := by
  induction calls generalizing r with
  | nil => simp [setAll]
  | cons c calls ih =>
    rw [setAll_cons, ih]
    cases c with
    | set2019 => simp [set, set2019Data]
    | set2016 => simp [set, trigTop_set2016Data]

def Is (base : List (Placed Bank)) (r : HPSEvioReader) : DataSet → Prop
  | .set2019 => Is2019 base r
  | .set2016 => Is2016 base r

theorem is_set (hbase : base.map Placed.value = crates) (h : IsPlain base r ∨ Is base r d) :
    Is base (set A r d) d := by
  cases d with
  | set2019 =>
    obtain ⟨hbanks, hd⟩ := cleanUp_banks (h.imp_right .inl)
    refine (set2019Data_isPlain hbase hbanks hd ?_).1
    rw [time_cleanUp]
    rcases h with h | ⟨_, _, _, _, _, _, h⟩
    · exact h.time
    · exact h.time
  | set2016 =>
    obtain ⟨hbanks, hd⟩ := cleanUp_banks (h.imp_right .inr)
    refine set2016Data_isPlain hbanks hd ?_
    rw [members_cleanUp]
    rcases h with h | ⟨_, _, h⟩
    · rw [h.members]
      rfl
    · rw [h.members]
      rfl

theorem is_setAll (hbase : base.map Placed.value = crates) (h : IsPlain base r ∨ Is base r d)
    (hcalls : ∀ c ∈ calls, c = d) : Is base (setAll A r (calls ++ [d])) d := by
  induction calls generalizing r with
  | nil => exact is_set hbase h
  | cons c calls ih =>
    obtain rfl := hcalls c List.mem_cons_self
    exact ih (.inr (is_set hbase h)) fun c' hc' => hcalls c' (List.mem_cons_of_mem _ hc')

theorem Is.not_dangles (h : Is base r d) : ∀ p ∈ r.members, ¬r.Dangles p := by
  cases d with
  | set2019 =>
    obtain ⟨svt, top, bot, l, t, b, h⟩ := h
    rw [h.members]
    simp [Dangles, HPSEvioReader.live, Placed.live, h.banks]
  | set2016 =>
    obtain ⟨svt, l, h⟩ := h
    rw [h.members]
    simp [Dangles, HPSEvioReader.live, Placed.live, h.banks]

theorem Is.alike (h : Is base r d) (h' : Is base' r' d)
    (hbase : base.map Placed.value = base'.map Placed.value) : SetUpAlike r r' := by
  cases d with
  | set2019 =>
    obtain ⟨svt, top, bot, l, t, b, h⟩ := h
    obtain ⟨svt', top', bot', l', t', b', h'⟩ := h'
    refine h.alike h' hbase rfl ?_
    simp [PointsToLive, HPSEvioReader.live, Placed.live, h.banks, h'.banks]
  | set2016 =>
    obtain ⟨svt, l, h⟩ := h
    obtain ⟨svt', l', h'⟩ := h'
    refine h.alike h' hbase rfl ?_
    simp [PointsToLive, HPSEvioReader.live, Placed.live, h.banks, h'.banks]

theorem construct_eq (A : Allocator) (trigfile : Bool) (dataset : Int) :
    construct A trigfile dataset = setAll A (setup A trigfile) (ofDataset dataset).toList := by
  unfold construct ofDataset
  split
  · rfl
  · split
    · rfl
    · rfl

/-- The reader is set up as by the last call alone, and no member points to a bank that was
removed, if and only if the constructor and all calls have chosen the same data set. -/
theorem setAll_alike_iff (A : Allocator) (trigfile : Bool) (dataset : Int) (calls : List DataSet)
    (last : DataSet) :
    (SetUpAlike (setAll A (construct A trigfile dataset) (calls ++ [last]))
        (set A (construct A trigfile 0) last) ∧
      ∀ p ∈ (setAll A (construct A trigfile dataset) (calls ++ [last])).members,
        ¬(setAll A (construct A trigfile dataset) (calls ++ [last])).Dangles p) ↔
      ∀ c ∈ (ofDataset dataset).toList ++ calls, c = last := by
  obtain ⟨trig, ecal, hbase, hplain, -⟩ := setup_isPlain A trigfile
  have hrun : setAll A (construct A trigfile dataset) (calls ++ [last]) =
      setAll A (setup A trigfile) ((ofDataset dataset).toList ++ calls ++ [last]) := by
    rw [construct_eq]
    simp [setAll, List.foldl_append]
  have halone : construct A trigfile 0 = setup A trigfile := rfl
  rw [hrun, halone]
  constructor
  · rintro ⟨halike, hlive⟩ c hc
    have hcalls : c ∈ (ofDataset dataset).toList ++ calls ++ [last] := List.mem_append_left _ hc
    cases last with
    | set2019 =>
      cases c with
      | set2019 => rfl
      | set2016 =>
        have htime := halike.time_eq
        rw [time_setAll.mpr (.inr hcalls), set, time_set2019Data, hplain.time] at htime
        cases htime
    | set2016 =>
      cases c with
      | set2016 => rfl
      | set2019 =>
        have hnone : (set A (setup A trigfile) .set2016).trigTop = none := by
          rw [set, trigTop_set2016Data]
          exact hplain.pointers.2.1
        have htop := (trigTop_setAll (A := A) (r := setup A trigfile)).mpr (.inr hcalls)
        rw [halike.trigTop_eq_none hlive hnone] at htop
        cases htop
  · intro hcalls
    have h := is_setAll hbase (.inl hplain) (A := A) hcalls
    exact ⟨h.alike (is_set hbase (.inl hplain)) rfl, h.not_dangles⟩

theorem setAll_not_alike : ¬∀ (A : Allocator) (trigfile : Bool) (dataset : Int)
    (calls : List DataSet) (last : DataSet),
    SetUpAlike (setAll A (construct A trigfile dataset) (calls ++ [last]))
        (set A (construct A trigfile 0) last) ∧
      ∀ p ∈ (setAll A (construct A trigfile dataset) (calls ++ [last])).members,
        ¬(setAll A (construct A trigfile dataset) (calls ++ [last])).Dangles p := by
  intro h
  obtain ⟨-, hlive⟩ := h .above false 2019 [] .set2016
  exact absurd hlive (by decide)

example : ((construct .above false 2016).set2019Data .above).getTrigTime 16 19 = 16 := by decide

end DataSet

end EvioTool
