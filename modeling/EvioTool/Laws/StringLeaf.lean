import EvioTool.Lib.MaxRuns
import EvioTool.Laws.Fillers
import EvioTool.Laws.PrimitiveLeaf
import EvioTool.Laws.SVTReads

namespace EvioTool

open Lib Exec

variable {P : Obs → Prop} {mem : Mem} {σ : Type} {u v : σ} {s bs rest : List UInt8} {x : UInt8}
  {ss r : List (List UInt8)} {k : Nat} {c start len : Int}

def isStop (c : UInt8) : Bool := c == 0x4

theorem isStop_iff {c : UInt8} : isStop c ↔ c.toNat = 0x4 := by
  rw [isStop, beq_iff_eq, ← UInt8.toNat_inj]
  rfl

theorem isprint_of_isStop (c : UInt8) (hc : isStop c) : isprint c = false := by
  rw [isStop, beq_iff_eq] at hc
  subst hc
  rfl

/-- The strings of a payload of characters. -/
def payloadStrings (bs : List UInt8) : List (List UInt8) := runsTo isprint isStop bs

example : payloadStrings [0x61, 0x62, 0x0A, 0x63, 0x04, 0x64, 0x0A, 0x04, 0x65] =
    [[0x61, 0x62], [0x63], [0x64]] := by decide

def stringStr (tag : UInt16) (num : UInt8) : String :=
  "String-" ++ toString tag.toNat ++ "-" ++ toString num.toNat

theorem runs_readLE_iff {who : Reader} {w : Nat} (hm : mem.HoldsBytes c [x]) :
    Runs P (readLE mem who c 1) u w v ↔ P (.read who c 1) ∧ w = x.toNat ∧ v = u := by
  have hx : mem.bytes c 1 = some [x] := hm.bytes
  simp [readLE, hx, leNat, and_assoc]

theorem forall_le_succ_iff {Q : Nat → Prop} {n : Nat} :
    (∀ j ≤ n + 1, Q j) ↔ Q 0 ∧ ∀ j ≤ n, Q (j + 1) := by
  simp only [← Nat.lt_succ_iff]
  exact Nat.forall_lt_succ_left

theorem runs_readRun_iff {t : List UInt8} (hm : mem.HoldsBytes c (s ++ [x]))
    (hs : ∀ a ∈ s, isprint a) (hx : isprint x = false) :
    Runs P (readRun mem k c) u t v ↔
      s.length < k ∧ (∀ j ≤ s.length, P (.read .string (c + (j : Nat)) 1)) ∧ t = s ∧ v = u := by
  induction s generalizing c k t u v with
  | nil =>
    cases k with
    | zero => simp [readRun]
    | succ k => simp [readRun, runs_readLE_iff hm, hx, and_assoc]
  | cons a s ih =>
    cases k with
    | zero => simp [readRun]
    | succ k =>
      obtain ⟨ha, hm⟩ := hm.cons
      have hrest (t : List UInt8) (u v : σ) := ih (u := u) (v := v) (k := k) (t := t) hm fun b hb =>
        hs b (List.mem_cons_of_mem a hb)
      have hprint : isprint a = true := hs a List.mem_cons_self
      have hreads : (∀ j ≤ s.length + 1, P (.read .string (c + (j : Nat)) 1)) ↔
          P (.read .string c 1) ∧ ∀ j ≤ s.length, P (.read .string (c + 1 + (j : Nat)) 1) := by
        rw [forall_le_succ_iff]
        simp [Int.add_assoc, Int.add_comm 1]
      simp only [readRun, runs_bind, runs_readLE_iff ha, List.length_cons, hreads]
      constructor
      · rintro ⟨_, _, ⟨hP, rfl, rfl⟩, h⟩
        rw [UInt8.ofNat_toNat, if_pos hprint, runs_bind] at h
        obtain ⟨t', _, hrun, h⟩ := h
        obtain ⟨hk, hreads, rfl, rfl⟩ := (hrest t' _ _).mp hrun
        obtain ⟨rfl, rfl⟩ := runs_pure.mp h
        exact ⟨by omega, ⟨hP, hreads⟩, rfl, rfl⟩
      · rintro ⟨hk, ⟨hP, hreads⟩, rfl, rfl⟩
        refine ⟨_, _, ⟨hP, rfl, rfl⟩, ?_⟩
        rw [UInt8.ofNat_toNat, if_pos hprint, runs_bind]
        exact ⟨s, v, (hrest s v v).mpr ⟨by omega, hreads, rfl, rfl⟩, runs_pure.mpr ⟨rfl, rfl⟩⟩

theorem read_of_runs_readRun {t : List UInt8} (hm : mem.HoldsBytes c s)
    (hs : ∀ a ∈ s, isprint a) (h : Runs P (readRun mem k c) u t v) :
    P (.read .string (c + (s.length : Nat)) 1) := by
  induction s generalizing c k t u v with
  | nil =>
    cases k with
    | zero => simp [readRun] at h
    | succ k =>
      rw [readRun, readLE, bind_assoc, runs_bind] at h
      obtain ⟨_, _, htell, -⟩ := h
      simpa using (runs_tell.mp htell).1
  | cons a s ih =>
    cases k with
    | zero => simp [readRun] at h
    | succ k =>
      obtain ⟨ha, hm⟩ := hm.cons
      rw [readRun, runs_bind] at h
      obtain ⟨_, _, hread, h⟩ := h
      obtain ⟨-, rfl, rfl⟩ := (runs_readLE_iff ha).mp hread
      rw [UInt8.ofNat_toNat, if_pos (hs a List.mem_cons_self), runs_bind] at h
      obtain ⟨t', _, hrun, -⟩ := h
      have := ih hm (fun b hb => hs b (List.mem_cons_of_mem a hb)) hrun
      rwa [Int.add_assoc, Int.add_comm 1] at this

theorem runs_readStrings_iff (hm : mem.HoldsBytes c (s ++ [x])) (hs : ∀ a ∈ s, isprint a)
    (hx : isprint x = false) (hstop : s = [] → isStop x = false) (hc : c - start < len) :
    Runs P (readStrings mem start len (k + 1) c) u r v ↔
      s.length < k ∧ (∀ j ≤ s.length, P (.read .string (c + (j : Nat)) 1)) ∧
        ∃ r', Runs P (readStrings mem start len k (c + s.length + 1)) u r' v ∧
          r = addRun s r' := by
  obtain ⟨y, ys, hy, hhead⟩ : ∃ y ys, s ++ [x] = y :: ys ∧ isStop y = false := by
    cases s with
    | nil => exact ⟨x, [], rfl, hstop rfl⟩
    | cons a s =>
      refine ⟨a, s ++ [x], rfl, Bool.eq_false_iff.mpr fun ha => ?_⟩
      have hp := hs a List.mem_cons_self
      rw [isprint_of_isStop a ha] at hp
      cases hp
  have hgo : y.toNat ≠ 0x4 ∧ c - start < len := by
    refine ⟨fun h4 => ?_, hc⟩
    rw [isStop_iff.mpr h4] at hhead
    cases hhead
  have hm₀ : mem.HoldsBytes c [y] := (hy ▸ hm).cons.1
  rw [readStrings, runs_bind]
  constructor
  · rintro ⟨_, _, hread, h⟩
    obtain ⟨-, rfl, rfl⟩ := (runs_readLE_iff hm₀).mp hread
    rw [if_pos hgo, runs_bind] at h
    obtain ⟨t, _, hrun, h⟩ := h
    obtain ⟨hk, hreads, rfl, rfl⟩ := (runs_readRun_iff hm hs hx).mp hrun
    obtain ⟨r', _, hrest, h⟩ := runs_bind.mp h
    obtain ⟨rfl, rfl⟩ := runs_pure.mp h
    exact ⟨hk, hreads, r', hrest, rfl⟩
  · rintro ⟨hk, hreads, r', hrest, rfl⟩
    have h₀ := hreads 0 (Nat.zero_le _)
    rw [Int.natCast_zero, Int.add_zero] at h₀
    refine ⟨_, u, (runs_readLE_iff hm₀).mpr ⟨h₀, rfl, rfl⟩, ?_⟩
    rw [if_pos hgo]
    exact ((runs_readRun_iff hm hs hx).mpr ⟨hk, hreads, rfl, rfl⟩).bind
      (hrest.bind (runs_pure.mpr ⟨rfl, rfl⟩))

theorem runs_readStrings_stop (hm : mem.HoldsBytes c (x :: rest)) (hx : isStop x) :
    Runs P (readStrings mem start len (k + 1) c) u r v ↔
      P (.read .string c 1) ∧ r = [] ∧ v = u := by
  have h4 := isStop_iff.mp hx
  simp [readStrings, runs_readLE_iff hm.cons.1, h4, and_assoc]

theorem of_runs_readStrings_end (hc : ¬c - start < len)
    (h : Runs P (readStrings mem start len k c) u r v) : P (.read .string c 1) ∧ r = [] := by
  cases k with
  | zero => simp [readStrings] at h
  | succ k =>
    rw [readStrings, readLE, bind_assoc, runs_bind] at h
    obtain ⟨_, _, htell, h⟩ := h
    obtain ⟨_, _, -, h⟩ := runs_bind.mp h
    rw [if_neg fun h => hc h.2, runs_pure] at h
    exact ⟨(runs_tell.mp htell).1, h.1⟩

theorem runs_readStrings_end (hm : mem.HoldsBytes c [x]) (hc : ¬c - start < len)
    (hP : P (.read .string c 1)) : Runs P (readStrings mem start len (k + 1) c) u [] u := by
  simp [readStrings, runs_readLE_iff hm, hc, hP]

theorem read_of_runs_readStrings (hm : mem.HoldsBytes c rest) (hrest : ∀ a ∈ rest, isprint a)
    (hend : c - start + rest.length = len) (h : Runs P (readStrings mem start len k c) u r v) :
    P (.read .string (c + (rest.length : Nat)) 1) := by
  cases rest with
  | nil =>
    simp only [List.length_nil, Nat.cast_zero, add_zero] at hend ⊢
    exact (of_runs_readStrings_end (by omega) h).1
  | cons a s =>
    cases k with
    | zero => simp [readStrings] at h
    | succ k =>
      have ha : a.toNat ≠ 0x4 := fun h4 => by
        have hp := hrest a List.mem_cons_self
        rw [isprint_of_isStop a (isStop_iff.mpr h4)] at hp
        cases hp
      rw [readStrings, runs_bind] at h
      obtain ⟨_, _, hread, h⟩ := h
      obtain ⟨-, rfl, rfl⟩ := (runs_readLE_iff hm.cons.1).mp hread
      rw [if_pos ⟨ha, by simp at hend; omega⟩, runs_bind] at h
      obtain ⟨t, _, hrun, -⟩ := h
      exact read_of_runs_readRun hm hrest hrun

theorem of_runs_readStrings (hscan : Scans isprint isStop bs ss rest) (hm : mem.HoldsBytes c bs)
    (hlen : c - start + bs.length ≤ len) (h : Runs P (readStrings mem start len k c) u r v) :
    ∃ c' k' r', c' + rest.length = c + bs.length ∧ mem.HoldsBytes c' rest ∧ r = ss ++ r' ∧
      Runs P (readStrings mem start len k' c') u r' v := by
  induction hscan generalizing c k r with
  | done bs => exact ⟨c, k, r, rfl, hm, rfl, h⟩
  | @step s x bs rest ss hs hx hst _ ih =>
    cases k with
    | zero => simp [readStrings] at h
    | succ k =>
      rw [List.append_cons] at hm hlen ⊢
      obtain ⟨hmx, hm⟩ := hm.append
      simp only [List.length_append, List.length_singleton, Nat.cast_add, Nat.cast_one,
        ← add_assoc] at hlen hm ⊢
      obtain ⟨-, -, r', hloop, rfl⟩ := (runs_readStrings_iff hmx hs hx hst (by omega)).mp h
      obtain ⟨c', k', r'', hc', hm', rfl, h'⟩ := ih hm (by omega) hloop
      exact ⟨c', k', r'', hc', hm', addRun_append s ss r'', h'⟩

theorem runs_readStrings_of_scans {F : Nat} (hscan : Scans isprint isStop bs ss rest)
    (hm : mem.HoldsBytes c bs) (hlen : c - start + bs.length ≤ len)
    (hreads : ∀ j < bs.length, P (.read .string (c + (j : Nat)) 1))
    (hrest : ∀ c' k', c' + rest.length = c + bs.length → mem.HoldsBytes c' rest → F ≤ k' →
      Runs P (readStrings mem start len k' c') u r v) (hk : F + bs.length < k) :
    Runs P (readStrings mem start len k c) u (ss ++ r) v := by
  induction hscan generalizing c k with
  | done bs => exact hrest c k rfl hm (by omega)
  | @step s x bs rest ss hs hx hst _ ih =>
    rw [List.append_cons] at hm hlen hreads hrest hk
    obtain ⟨hmx, hm⟩ := hm.append
    simp only [List.length_append, List.length_singleton, Nat.cast_add, Nat.cast_one,
      ← add_assoc] at hlen hm hreads hrest hk
    obtain ⟨k, rfl⟩ := Nat.exists_eq_add_of_le' (show 1 ≤ k by omega)
    rw [← addRun_append]
    refine (runs_readStrings_iff hmx hs hx hst (by omega)).mpr
      ⟨by omega, fun j hj => hreads j (by omega), ss ++ r, ?_, rfl⟩
    refine ih hm (by omega) (fun j hj => ?_) (fun c' k' hc' => hrest c' k' hc') (by omega)
    have := hreads (s.length + 1 + j) (by omega)
    push_cast at this
    rwa [← add_assoc, ← add_assoc] at this

theorem runs_payload_iff (hm : mem.HoldsBytes c bs) :
    (∃ F, ∀ k, F ≤ k → Runs (Obs.Inside c (c + bs.length)) (readStrings mem c bs.length k c) u
      (payloadStrings bs) u) ↔ ∃ k, stopsAt isprint isStop bs k := by
  obtain ⟨ss, rest, hscan, ⟨x, ys, rfl, hx⟩ | hrest⟩ := exists_scans isprint isStop bs
  · obtain ⟨hss, hstop⟩ := hscan.runsTo_stop isprint_of_isStop hx
    refine iff_of_true ⟨bs.length + 2, fun k hk => ?_⟩ hstop
    rw [payloadStrings, hss, ← List.append_nil ss]
    refine runs_readStrings_of_scans (F := 1) hscan hm (by omega) (fun j hj => ?_)
      (fun c' k' hc' hm' hk' => ?_) (by omega)
    · simp only [Obs.Inside]
      omega
    · obtain ⟨k', rfl⟩ := Nat.exists_eq_add_of_le' hk'
      refine (runs_readStrings_stop hm' hx).mpr ⟨?_, rfl, rfl⟩
      have hle := hscan.length_le
      simp only [Obs.Inside, List.length_cons] at hc' hle ⊢
      omega
  · obtain ⟨-, hstop⟩ := hscan.runsTo_open isprint_of_isStop hrest
    refine iff_of_false ?_ (by simp [hstop])
    rintro ⟨F, hF⟩
    obtain ⟨c', k', r', hc', hm', -, h⟩ := of_runs_readStrings hscan hm (by omega) (hF F le_rfl)
    have hread := read_of_runs_readStrings hm' hrest (by omega) h
    simp only [Obs.Inside] at hread
    omega

theorem runs_of_returns {α : Type} {m : Exec Halt Obs σ α} {a : α} (h : Returns m u a v) :
    Runs (fun _ => True) m u a v :=
  ⟨h, fun _ _ => trivial⟩

theorem payloadStrings_of_returns (hm : mem.HoldsBytes c bs)
    (hbs : (∃ k, stopsAt isprint isStop bs k) ∨ ∀ x ∈ bs.getLast?, isprint x = false)
    (h : Returns (readStrings mem c bs.length k c) u r v) : r = payloadStrings bs := by
  obtain ⟨ss, rest, hscan, hrest⟩ := exists_scans isprint isStop bs
  obtain ⟨c', k', r', hc', hm', rfl, h'⟩ :=
    of_runs_readStrings hscan hm (by omega) (runs_of_returns h)
  obtain ⟨x, ys, rfl, hx⟩ | hrest := hrest
  · rw [payloadStrings, (hscan.runsTo_stop isprint_of_isStop hx).1]
    cases k' with
    | zero => simp [readStrings] at h'
    | succ k' => rw [((runs_readStrings_stop hm' hx).mp h').2.1, List.append_nil]
  · obtain ⟨hss, hno⟩ := hscan.runsTo_open isprint_of_isStop hrest
    rw [payloadStrings, hss]
    obtain rfl : rest = [] :=
      (hscan.eq_nil_iff hrest).mpr (hbs.resolve_left fun ⟨k, hk⟩ => by simp [hno k] at hk)
    rw [(of_runs_readStrings_end (by simp at hc'; omega) h').2, maxRuns_nil]

theorem exists_returns_ne (hno : ∀ k, stopsAt isprint isStop bs k = false)
    (hlast : x ∈ bs.getLast?) (hx : isprint x) : ∃ mem k r, mem.HoldsBytes c bs ∧
      Returns (readStrings mem c bs.length k c) u r u ∧ r ≠ payloadStrings bs := by
  obtain ⟨ss, rest, hscan, ⟨y, ys, rfl, hy⟩ | hrest⟩ := exists_scans isprint isStop bs
  · obtain ⟨k, hk⟩ := (hscan.runsTo_stop isprint_of_isStop hy).2
    rw [hno k] at hk
    cases hk
  · have hne : rest ≠ [] := fun hnil => by
      have hfalse := (hscan.eq_nil_iff hrest).mp hnil x hlast
      rw [hx] at hfalse
      cases hfalse
    obtain ⟨mem, hheld, htail⟩ : ∃ mem : Mem, mem.HoldsBytes c bs ∧
        mem.HoldsBytes (c + bs.length) [0x61, 0x0, 0x0] :=
      ⟨_, (Mem.holdsBytes_ofBytes c (bs ++ [0x61, 0x0, 0x0])).append⟩
    have hp : ∀ a ∈ rest ++ [0x61], isprint a := by
      intro a ha
      rcases List.mem_append.mp ha with ha | ha
      · exact hrest a ha
      · obtain rfl := List.mem_singleton.mp ha
        rfl
    refine ⟨mem, rest.length + 3 + bs.length + 1, ss ++ [rest ++ [0x61]], hheld, ?_, ?_⟩
    · refine (runs_readStrings_of_scans (P := fun _ => True) (F := rest.length + 3) hscan hheld
        (by omega) (fun _ _ => trivial) (fun c' k' hc' hm' hk' => ?_) (by omega)).1
      obtain ⟨k', rfl⟩ := Nat.exists_eq_add_of_le' (show 2 ≤ k' by omega)
      rw [← hc'] at htail
      have hall : mem.HoldsBytes c' (rest ++ [0x61] ++ [0x0] ++ [0x0]) := by
        simpa using hm'.join htail
      obtain ⟨hrun, hend⟩ := hall.append
      rw [List.length_append, List.length_singleton, Nat.cast_add, Nat.cast_one,
        ← add_assoc] at hend
      have hlen : ((rest ++ [0x61]).length : Int) = rest.length + 1 := by simp
      have hpos := List.length_pos_iff.mpr hne
      refine (runs_readStrings_iff hrun hp rfl (by simp) (by omega)).mpr
        ⟨by simp; omega, fun _ _ => trivial, [], ?_, ?_⟩
      · exact runs_readStrings_end hend (by omega) trivial
      · cases rest with
        | nil => exact absurd rfl hne
        | cons a s => rfl
    · rw [payloadStrings, (hscan.runsTo_open isprint_of_isStop hrest).1,
        maxRuns_of_forall hne hrest]
      simp

theorem runs_fillStrings_iff {buf : Int} {j d : BankInfo} {loc : Nat} {l : Leaf .string} {res : Int}
    (hl : j.leafs[loc]? = some ⟨.string, l⟩) (hP : ∀ S T, P (.filled S T)) :
    Runs P (fillLeaf .string loc (readStrings mem buf len k buf >>= pushLeaf loc .string)) j res d ↔
      res = 1 ∧ ∃ xs, Runs P (readStrings mem buf len k buf) j xs j ∧
        d = j.setLeaf loc ⟨.string, l.pushDataArray xs⟩ := by
  have hlt : loc < j.leafs.length := (List.getElem?_eq_some_iff.mp hl).1
  have hplain : l.cls = .leaf := by
    cases l.cls
    rfl
  have hcall (xs : List (List UInt8)) (e : BankInfo) :
      Returns (callBack loc) (j.setLeaf loc ⟨.string, l.pushDataArray xs⟩) () e ↔
        e = j.setLeaf loc ⟨.string, l.pushDataArray xs⟩ :=
    returns_callBack_plain (l := l.pushDataArray xs) (by simp [hlt]) hplain
  simp only [fillLeaf, runs_bind, runs_gets, runs_demand, runs_tell, hl, hP, Option.map_some]
  constructor
  · rintro ⟨_, _, ⟨rfl, rfl⟩, _, _, ⟨hT, rfl⟩, _, _, ⟨-, rfl⟩, hbody⟩
    cases hT
    rw [if_pos rfl] at hbody
    obtain ⟨_, e, hpush, hbody⟩ := runs_bind.mp hbody
    obtain ⟨xs, t, hread, hstore⟩ := runs_bind.mp hpush
    obtain rfl := hread.1.state_of_keeps fun _ => keeps_readStrings _ _ _ _
    have he := returns_pushLeaf.mp hstore.1
    obtain rfl := Option.some.inj ((BankInfo.pushLeaf_eq hl xs).symm.trans he)
    obtain ⟨_, e, hcb, hres⟩ := runs_bind.mp hbody
    obtain rfl := (hcall xs e).mp hcb.1
    obtain ⟨rfl, rfl⟩ := runs_pure.mp hres
    exact ⟨rfl, xs, hread, rfl⟩
  · rintro ⟨rfl, xs, hread, rfl⟩
    refine ⟨_, j, ⟨rfl, rfl⟩, .string, j, ⟨rfl, rfl⟩, (), j, ⟨trivial, rfl⟩, ?_⟩
    rw [if_pos rfl]
    have hpush : Runs P (pushLeaf loc .string xs) j () _ :=
      ⟨returns_pushLeaf.mpr (BankInfo.pushLeaf_eq hl xs), logs_pushLeaf _ _ _⟩
    exact (hread.bind hpush).bind (Runs.bind ⟨(hcall xs _).mpr rfl, logs_callBack loc⟩
      (runs_pure.mpr ⟨rfl, rfl⟩))

theorem runs_addOrFillLeafString_iff {fAutoAdd : Bool} {fill : Nat} {buf : Int} {tag : UInt16}
    {num : UInt8} {i j d : BankInfo} {loc : Nat} {l : Leaf .string} {res : Int}
    (hleaf : i.leafFor fAutoAdd .string (stringStr tag num) "Auto added string leaf" tag num =
      some (loc, j)) (hl : j.leafs[loc]? = some ⟨.string, l⟩) (hP : ∀ S T, P (.filled S T)) :
    Runs P (addOrFillLeafString fAutoAdd mem fill buf len tag num) i res d ↔
      res = 1 ∧ ∃ xs, Runs P (readStrings mem (4 * buf) len fill (4 * buf)) j xs j ∧
        d = j.setLeaf loc ⟨.string, l.pushDataArray xs⟩ := by
  have hfind : findOrAddLeaf fAutoAdd .string (stringStr tag num) "Auto added string leaf" tag num
      i = ⟨.ok (some loc), j, []⟩ := by rw [findOrAddLeaf_eq, hleaf]; rfl
  have hfound {x : Option Nat} {t : BankInfo} : Runs P (findOrAddLeaf fAutoAdd .string
      (stringStr tag num) "Auto added string leaf" tag num) i x t ↔ x = some loc ∧ t = j := by
    simp [Runs, Returns, Logs, hfind, eq_comm]
  constructor
  · intro h
    obtain ⟨x, t, hx, h⟩ := runs_bind.mp h
    obtain ⟨rfl, rfl⟩ := hfound.mp hx
    exact (runs_fillStrings_iff hl hP).mp h
  · exact fun h => (hfound.mpr ⟨rfl, rfl⟩).bind ((runs_fillStrings_iff hl hP).mpr h)

section Leaf

variable {fAutoAdd : Bool} {buf : Int} {tag : UInt16} {num : UInt8} {i j : BankInfo} {loc : Nat}
  {l : Leaf .string}

theorem pushStrings_inj {xs ys : List (List UInt8)} (hl : j.leafs[loc]? = some ⟨.string, l⟩)
    (h : j.setLeaf loc ⟨.string, l.pushDataArray xs⟩ =
      j.setLeaf loc ⟨.string, l.pushDataArray ys⟩) : xs = ys :=
  Leaf.pushDataArray_inj (BankInfo.setLeaf_inj (List.getElem?_eq_some_iff.mp hl).1 h)

/-- The strings of a payload are appended and nothing else is read, if and only if the payload
holds a `0x4` at its start or behind a character that is not printable. -/
theorem addOrFillLeafString_payload_iff (hm : mem.HoldsBytes (4 * buf) bs)
    (hleaf : i.leafFor fAutoAdd .string (stringStr tag num) "Auto added string leaf" tag num =
      some (loc, j)) (hl : j.leafs[loc]? = some ⟨.string, l⟩) :
    (∃ F, ∀ fill, F ≤ fill → Runs (Obs.Inside (4 * buf) (4 * buf + bs.length))
      (addOrFillLeafString fAutoAdd mem fill buf bs.length tag num) i 1
        (j.setLeaf loc ⟨.string, l.pushDataArray (payloadStrings bs)⟩)) ↔
      ∃ k, stopsAt isprint isStop bs k := by
  rw [← runs_payload_iff (u := j) hm]
  refine exists_congr fun F => forall₂_congr fun fill _ => ?_
  rw [runs_addOrFillLeafString_iff hleaf hl fun _ _ => trivial]
  constructor
  · rintro ⟨-, xs, hrun, hset⟩
    rwa [pushStrings_inj hl hset]
  · exact fun hrun => ⟨rfl, _, hrun, rfl⟩

def textLeaf : Leaf .string := { name := "Lines", title := "", tag := 1, num := 0 }

def textBank : BankInfo :=
  { name := "Text", title := "", tags := [0], leafs := [⟨.string, textLeaf⟩] }

def closedText : List UInt8 := [0x61, 0x62, 0x0A, 0x04]

theorem addOrFillLeafString_payload_closed : ∃ F, ∀ fill, F ≤ fill →
    Runs (Obs.Inside (4 * 0) (4 * 0 + closedText.length))
      (addOrFillLeafString true (Mem.ofBytes 0 closedText) fill 0 closedText.length 1 0) textBank 1
        (textBank.setLeaf 0 ⟨.string, textLeaf.pushDataArray (payloadStrings closedText)⟩) := by
  have hm : (Mem.ofBytes 0 closedText).HoldsBytes (4 * 0) closedText :=
    Mem.holdsBytes_ofBytes 0 closedText
  have hleaf : textBank.leafFor true .string (stringStr 1 0) "Auto added string leaf" 1 0 =
      some (0, textBank) := rfl
  exact (addOrFillLeafString_payload_iff hm hleaf rfl).mpr ⟨3, rfl⟩

theorem addOrFillLeafString_open : ∃ mem mem' : Mem,
    mem.HoldsBytes 0 [0x61, 0x62, 0x63, 0x64] ∧ mem'.HoldsBytes 0 [0x61, 0x62, 0x63, 0x64] ∧
      Returns (addOrFillLeafString true mem 8 0 4 1 0) textBank 1
        (textBank.setLeaf 0 ⟨.string, textLeaf.pushDataArray [[0x61, 0x62, 0x63, 0x64]]⟩) ∧
      Returns (addOrFillLeafString true mem' 8 0 4 1 0) textBank 1
        (textBank.setLeaf 0 ⟨.string, textLeaf.pushDataArray [[0x61, 0x62, 0x63, 0x64, 0x65]]⟩) :=
  ⟨Mem.ofBytes 0 [0x61, 0x62, 0x63, 0x64, 0x04], Mem.ofBytes 0 [0x61, 0x62, 0x63, 0x64, 0x65],
    (Mem.holdsBytes_ofBytes 0 ([0x61, 0x62, 0x63, 0x64] ++ [0x04])).append.1,
    (Mem.holdsBytes_ofBytes 0 ([0x61, 0x62, 0x63, 0x64] ++ [0x65])).append.1,
    ⟨rfl, rfl⟩, ⟨rfl, rfl⟩⟩

theorem addOrFillLeafString_strings_iff
    (hleaf : i.leafFor fAutoAdd .string (stringStr tag num) "Auto added string leaf" tag num =
      some (loc, j)) (hl : j.leafs[loc]? = some ⟨.string, l⟩) :
    (∀ mem fill res d, mem.HoldsBytes (4 * buf) bs →
      Returns (addOrFillLeafString fAutoAdd mem fill buf bs.length tag num) i res d →
        d = j.setLeaf loc ⟨.string, l.pushDataArray (payloadStrings bs)⟩) ↔
      (∃ k, stopsAt isprint isStop bs k) ∨ ∀ x ∈ bs.getLast?, isprint x = false := by
  have hiff (mem : Mem) (fill : Nat) (res : Int) (d : BankInfo) : Runs (fun _ => True)
      (addOrFillLeafString fAutoAdd mem fill buf bs.length tag num) i res d ↔ _ :=
    runs_addOrFillLeafString_iff hleaf hl fun _ _ => trivial
  constructor
  · intro h
    by_contra hbs
    simp only [not_or, not_exists, not_forall] at hbs
    obtain ⟨hno, x, hlast, hx⟩ := hbs
    obtain ⟨mem, k, r, hm, hr, hne⟩ := exists_returns_ne (u := j) (c := 4 * buf)
      (fun k => Bool.eq_false_iff.mpr (hno k)) hlast (by simpa using hx)
    have hrun := (hiff mem k 1 _).mpr ⟨rfl, r, runs_of_returns hr, rfl⟩
    exact hne (pushStrings_inj hl (h mem k 1 _ hm hrun.1))
  · intro hbs mem fill res d hm hd
    obtain ⟨-, xs, hxs, rfl⟩ := (hiff mem fill res d).mp (runs_of_returns hd)
    rw [payloadStrings_of_returns hm hbs hxs.1]

end Leaf

end EvioTool
