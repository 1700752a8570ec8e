import EvioTool.Laws.Finish
import EvioTool.Laws.Leak
import EvioTool.Laws.Mirror

/-! Events with illegal banks. -/

namespace EvioTool

open Lib Exec

def Obs.Fine : Obs → Prop
  | .returned stat => stat ≠ -4 ∧ stat ≠ -5
  | _ => True

instance : DecidablePred Obs.Fine := fun o => match o with
  | .returned _ => inferInstanceAs (Decidable (_ ∧ _))
  | .read _ _ _ | .child _ _ _ | .filled _ _ => .isTrue trivial

theorem Obs.fine_ofFillers : Obs.OfFillers Obs.Fine where
  svt _ _ := trivial
  string _ _ := trivial
  fadc _ _ := trivial
  filled _ _ := trivial

inductive Walk (mem : Mem) (contentType : Nat) (data bankLen : Int) : Int → Int → Prop
  | here : p < bankLen → Walk mem contentType data bankLen p p
  | next : p < bankLen → mem (data + p) = some w →
    Walk mem contentType data bankLen (nextPos p (w &&& childMask contentType)) q →
    Walk mem contentType data bankLen p q

/-- The bank at `buf`, or one in it that has a node to go to, has illegal contents. -/
inductive Damaged (set : Settings) (mem : Mem) : Bank → Int → Nat → Int → Prop
  | contents : headerAt mem buf bankType = some h → leafCase h.contentType h.padding = none →
    isContainer h.contentType = false → Damaged set mem b buf bankType depth
  | inside : headerAt mem buf bankType = some h → isContainer h.contentType = true →
    resolve set h.tag h.num depth b = some (t, d) → t.node d = some c →
    Walk mem h.contentType (buf + h.dataOffset) (h.length - h.dataOffset) 0 p →
    Damaged set mem c (buf + h.dataOffset + p) h.contentType (depth + 1) →
    Damaged set mem b buf bankType depth

def Accepted (set : Settings) (mem : Mem) (b : Bank) : Prop :=
  ∃ h, headerAt mem 0 0x10 = some h ∧ (set.fChopLevel > 0 →
    (h.contentType = 0x10 ∨ h.contentType = 0xE) ∧ b.label.checkTag h.tag = true)

section Nodes

variable {set : Settings} {mem : Mem} {tag : UInt16} {num : UInt8} {depth buf : Int}
  {bankType : Nat} {b b' c d : Bank} {t : Target}

def SameNodes (set : Settings) (b b' : Bank) : Prop :=
  set.fAutoAdd = true ∨ Bank.shape b' = Bank.shape b

theorem SameNodes.symm (h : SameNodes set b b') : SameNodes set b' b := h.imp id Eq.symm

theorem resolve_node (h : resolve set tag num depth b = some (t, d)) : ∃ c, t.node d = some c := by
  unfold resolve at h
  split at h
  · cases h
    exact ⟨_, rfl⟩
  · cases hf : Bank.findBank b tag num with
    | some i =>
      have hi := Bank.findBank_lt hf
      simp only [hf, List.getElem?_eq_getElem hi, Option.map_some, Option.some.injEq,
        Prod.mk.injEq] at h
      obtain ⟨rfl, rfl⟩ := h
      simp [Target.node, hi]
    | none =>
      simp only [hf, Option.ite_none_right_eq_some, Option.some.injEq, Prod.mk.injEq] at h
      obtain ⟨-, rfl, rfl⟩ := h
      simp [Target.node]

theorem findBank_shape (b : Bank) :
    Bank.findBank (Bank.shape b) tag num = Bank.findBank b tag num :=
  Bank.findBank_map (f := BankInfo.shape) (fun _ => ⟨rfl, rfl⟩) b tag num

theorem shape_mark : Bank.shape (Bank.mark tag num b) = Bank.shape b := by
  cases b
  simp [Bank.shape, Bank.mark, Rose.setLabel, BankInfo.setTag, BankInfo.shape, BankInfo.untagged,
    BankInfo.blank]

theorem shape_sub (h : Bank.shape b' = Bank.shape b) {i : Nat} (hc : b.subs[i]? = some c) :
    ∃ c', b'.subs[i]? = some c' ∧ Bank.shape c' = Bank.shape c := by
  have hsubs : (Bank.shape b').subs[i]? = (Bank.shape b).subs[i]? := by rw [h]
  simp only [Bank.shape, Rose.subs_map, List.getElem?_map, hc] at hsubs
  exact Option.map_eq_some_iff.mp hsubs

theorem resolve_sub (hprune : ¬set.Prunes depth) {i : Nat} (hf : Bank.findBank b tag num = some i)
    (hc : b.subs[i]? = some c) :
    resolve set tag num depth b = some (.sub i, b.setSub i (Bank.mark tag num c)) ∧
      Target.node (b.setSub i (Bank.mark tag num c)) (.sub i) = some (Bank.mark tag num c) := by
  cases b with
  | node j bs =>
    refine ⟨resolve_found hprune hf hc, ?_⟩
    obtain ⟨hlt, -⟩ := List.getElem?_eq_some_iff.mp hc
    exact List.getElem?_set_self hlt

theorem SameNodes.resolve (h : SameNodes set b b')
    (hr : resolve set tag num depth b = some (t, d)) (hn : t.node d = some c) :
    ∃ t' d' c', EvioTool.resolve set tag num depth b' = some (t', d') ∧ t'.node d' = some c' ∧
      SameNodes set c c' := by
  cases ha : set.fAutoAdd with
  | true =>
    have hsome : (EvioTool.resolve set tag num depth b').isSome := resolve_isSome ha
    obtain ⟨⟨t', d'⟩, hr'⟩ := Option.isSome_iff_exists.mp hsome
    obtain ⟨c', hn'⟩ := resolve_node hr'
    exact ⟨t', d', c', hr', hn', .inl ha⟩
  | false =>
    have hs : Bank.shape b' = Bank.shape b := h.resolve_left (by simp [ha])
    by_cases hprune : set.Prunes depth
    · rw [resolve_pruned hprune] at hr
      cases hr
      cases hn
      exact ⟨_, _, _, resolve_pruned hprune, rfl, .inr (by rw [shape_mark, shape_mark, hs])⟩
    · cases hf : Bank.findBank b tag num with
      | none =>
        have hnone : EvioTool.resolve set tag num depth b = none := by
          have hprune' : ¬(depth < set.fChopLevel ∨ depth > set.fMaxLevel) := hprune
          simp [EvioTool.resolve, hprune', hf, ha]
        rw [hnone] at hr
        cases hr
      | some i =>
        have hf' : Bank.findBank b' tag num = some i := by
          rw [← findBank_shape, hs, findBank_shape, hf]
        have hlt := List.getElem?_eq_getElem (Bank.findBank_lt hf)
        obtain ⟨e', he', hshape⟩ := shape_sub hs hlt
        obtain ⟨hres, hnode⟩ := resolve_sub hprune hf hlt
        obtain ⟨hres', hnode'⟩ := resolve_sub hprune hf' he'
        rw [hres] at hr
        cases hr
        rw [hnode] at hn
        cases hn
        exact ⟨_, _, _, hres', hnode', .inr (by rw [shape_mark, shape_mark, hshape])⟩

theorem Damaged.congr (hd : Damaged set mem b buf bankType depth) :
    ∀ b', SameNodes set b b' → Damaged set mem b' buf bankType depth := by
  induction hd with
  | contents hh hl hc => exact fun b' _ => .contents hh hl hc
  | inside hh hc hr hn hw _ ih =>
    intro b' hb
    obtain ⟨t', d', c', hr', hn', hcc⟩ := hb.resolve hr hn
    exact .inside hh hc hr' hn' hw (ih c' hcc)

theorem damaged_congr (h : SameNodes set b b') :
    Damaged set mem b' buf bankType depth ↔ Damaged set mem b buf bankType depth :=
  ⟨fun hd => hd.congr b h.symm, fun hd => hd.congr b' h⟩

end Nodes

section Parser

variable {set : Settings} {mem : Mem} {fill n : Nat} {depth buf data bankLen p q : Int}
  {bankType contentType : Nat} {b c d : Bank} {h : Header} {r : Int} {t : Target}

theorem leafCase_container {padding : Int} (hc : isContainer contentType = true) :
    leafCase contentType padding = none := by
  simp only [isContainer, decide_eq_true_eq, List.mem_cons, List.not_mem_nil, or_false] at hc
  rcases hc with rfl | rfl | rfl | rfl | rfl | rfl <;> rfl

theorem not_damaged_leaf {x : ElemType × Int × Int} (hh : headerAt mem buf bankType = some h)
    (hl : leafCase h.contentType h.padding = some x) : ¬Damaged set mem b buf bankType depth := by
  intro hd
  cases hd with
  | contents hh' hl' _ =>
    obtain rfl := Option.some.inj (hh.symm.trans hh')
    rw [hl] at hl'
    cases hl'
  | inside hh' hc' _ _ _ _ =>
    obtain rfl := Option.some.inj (hh.symm.trans hh')
    rw [leafCase_container hc'] at hl
    cases hl

theorem damaged_container_iff (hh : headerAt mem buf bankType = some h)
    (hc : isContainer h.contentType = true) :
    Damaged set mem b buf bankType depth ↔ ∃ t d c, resolve set h.tag h.num depth b = some (t, d) ∧
      t.node d = some c ∧ ∃ p, Walk mem h.contentType (buf + h.dataOffset)
        (h.length - h.dataOffset) 0 p ∧
        Damaged set mem c (buf + h.dataOffset + p) h.contentType (depth + 1) := by
  constructor
  · intro hd
    cases hd with
    | contents hh' _ hc' =>
      obtain rfl := Option.some.inj (hh.symm.trans hh')
      rw [hc] at hc'
      cases hc'
    | inside hh' _ hr hn hw hd =>
      obtain rfl := Option.some.inj (hh.symm.trans hh')
      exact ⟨_, _, _, hr, hn, _, hw, hd⟩
  · rintro ⟨t, d, c, hr, hn, p, hw, hd⟩
    exact .inside hh hc hr hn hw hd

theorem walk_iff {w : UInt32} (hp : p < bankLen) (hw : mem (data + p) = some w) :
    Walk mem contentType data bankLen p q ↔
      q = p ∨ Walk mem contentType data bankLen (nextPos p (w &&& childMask contentType)) q := by
  constructor
  · intro h
    cases h with
    | here _ => exact .inl rfl
    | next _ hw' hrest =>
      obtain rfl := Option.some.inj (hw.symm.trans hw')
      exact .inr hrest
  · rintro (rfl | hrest)
    · exact .here hp
    · exact .next hp hw hrest

theorem status_fillSwitch {T : ElemType} {m : Int} {i j : BankInfo}
    (hr : Returns (fillSwitch set mem fill T buf m h) i r j) : r = 0 ∨ r = 1 := by
  have hfill {S : ElemType} {loc : Nat} {push : Exec Halt Obs BankInfo Unit} {k : BankInfo}
      (hf : Returns (fillLeaf S loc push) k r j) : r = 1 := by
    simp only [fillLeaf, returns_bind] at hf
    obtain ⟨_, _, -, _, _, -, _, _, -, hf⟩ := hf
    split at hf
    · simp only [returns_bind, returns_pure] at hf
      obtain ⟨_, _, -, _, _, -, rfl, -⟩ := hf
      rfl
    · exact (returns_halt hf).elim
  cases T <;>
  · simp only [fillSwitch, addOrFillLeaf, addOrFillLeafString, addOrFillLeafFADCdata,
      returns_bind] at hr
    obtain ⟨loc, k, -, hr⟩ := hr
    cases loc with
    | none => exact .inl (returns_pure.mp hr).1
    | some loc => exact .inr (hfill hr)

theorem sameNodes_parseBank
    (hr : Returns (parseBank set mem fill n buf bankType depth) b r c) : SameNodes set b c := by
  cases ha : set.fAutoAdd with
  | true => exact .inl ha
  | false =>
    have hkeep : Exec.Keeps (Bank.TopTwins (Bank.shape b))
        (parseBank set mem fill n buf bankType depth) := (Bank.keeps_parse ha n).1 _ _ _ _
    have hstate := (hkeep.states (⟨⟨rfl, rfl⟩, rfl⟩ : Bank.TopTwins (Bank.shape b) b b)).shape
    rw [hr.2] at hstate
    exact .inr hstate

theorem headerAt_of_returns {x : Option Header} (hb : isContainer bankType = true)
    (hr : Returns (readHeader mem buf bankType) b x c) :
    ∃ h, headerAt mem buf bankType = some h ∧ x = some h ∧ c = b := by
  obtain ⟨hx, rfl⟩ := returns_readHeader_inv hr
  have hsome : ∃ h, x = some h := by
    unfold readHeader at hr
    split at hr
    case h_7 => simp_all [isContainer]
    all_goals
      simp only [returns_bind, returns_pure] at hr
      grind
  obtain ⟨h, rfl⟩ := hsome
  exact ⟨h, hx.symm, rfl, rfl⟩

theorem logs_onTarget_iff {P : Obs → Prop} {m : Exec Halt Obs Bank α} (hn : t.node d = some c) :
    Logs P (onTarget (some t) m) d ↔ Logs P m c := by
  cases t with
  | self =>
    cases hn
    rfl
  | sub i =>
    have hn : d.subs[i]? = some c := hn
    simp only [onTarget, onSub, logs_zoom, hn, Option.some.injEq, forall_eq']

theorem returns_onTarget_inv {m : Exec Halt Obs Bank Unit} {e : Bank} (hn : t.node d = some c)
    (hr : Returns (onTarget (some t) m) d () e) : ∃ c', Returns m c () c' := by
  cases t with
  | self =>
    cases hn
    exact ⟨e, hr⟩
  | sub i =>
    obtain ⟨x, y, hx, hm, -⟩ := returns_onSub.mp hr
    have hn : d.subs[i]? = some c := hn
    obtain rfl := Option.some.inj (hn.symm.trans hx)
    exact ⟨y, hm⟩

/-- A call of `ParseBank` reports an illegal bank exactly when the bank is damaged. -/
def ParseReports (set : Settings) (mem : Mem) (fill n : Nat) : Prop :=
  ∀ bankType buf depth r (b c : Bank), isContainer bankType = true →
    Returns (parseBank set mem fill n buf bankType depth) b r c →
    (Logs Obs.Fine (parseBank set mem fill n buf bankType depth) b ↔
      ¬Damaged set mem b buf bankType depth)

def WalkReports (set : Settings) (mem : Mem) (fill n : Nat) : Prop :=
  ∀ live data bankLen contentType depth p (b c : Bank), isContainer contentType = true →
    Returns (children set mem fill n live data bankLen contentType depth p) b () c →
    (Logs Obs.Fine (children set mem fill n live data bankLen contentType depth p) b ↔
      (live = true → ∀ q, Walk mem contentType data bankLen p q →
        ¬Damaged set mem b (data + q) contentType depth))

theorem logs_fine_leaf {T : ElemType} {len k s : Int} : Logs Obs.Fine (do
    let m ← elemCount len k s
    let stat ← onLabel (fillSwitch set mem fill T (buf + h.dataOffset) m h)
    return_ stat) b := by
  refine ((logs_int32 _).bind fun _ _ _ => logs_int32 _).bind fun m _ _ => ?_
  have hfill (i : BankInfo) : Logs Obs.Fine
      (fillSwitch set mem fill T (buf + h.dataOffset) m h) i :=
    logs_fillSwitch Obs.fine_ofFillers fun _ _ _ => trivial
  refine (Logs.zoom hfill).bind fun stat _ hstat => logs_return_ ?_
  obtain ⟨i, hstat, -⟩ := returns_onLabel.mp hstat
  rcases status_fillSwitch hstat with rfl | rfl <;> exact ⟨by decide, by decide⟩

theorem WalkReports.container (ih : WalkReports set mem fill n)
    (hh : headerAt mem buf bankType = some h) (hc : isContainer h.contentType = true)
    (hr : Returns (do
      let newNode ← containerNodeHandler set h.tag h.num depth
      onTarget newNode
        (children set mem fill n newNode.isSome (buf + h.dataOffset) (h.length - h.dataOffset)
          h.contentType (depth + 1) 0)
      return_ 0) b r c) :
    Logs Obs.Fine (do
      let newNode ← containerNodeHandler set h.tag h.num depth
      onTarget newNode
        (children set mem fill n newNode.isSome (buf + h.dataOffset) (h.length - h.dataOffset)
          h.contentType (depth + 1) 0)
      return_ 0) b ↔ ¬Damaged set mem b buf bankType depth := by
  rw [returns_bind] at hr
  obtain ⟨y, e, hy, hr⟩ := hr
  have hfine : Logs Obs.Fine (containerNodeHandler set h.tag h.num depth) b :=
    logs_containerNodeHandler
  rw [hy.logs_bind]
  simp only [hfine, true_and]
  have hhandler : Returns (containerNodeHandler set h.tag h.num depth) b _ _ :=
    returns_containerNodeHandler
  obtain ⟨rfl, rfl⟩ := hhandler.det hy
  rw [returns_bind] at hr
  obtain ⟨_, f, hkids, -⟩ := hr
  rw [hkids.logs_bind, damaged_container_iff hh hc]
  have hret {g : Bank} : Logs Obs.Fine (return_ 0 : Exec Halt Obs Bank Int) g :=
    logs_return_ ⟨by decide, by decide⟩
  cases hres : resolve set h.tag h.num depth b with
  | none =>
    rw [hres] at hkids
    simp only [hret, and_true, reduceCtorEq, false_and, exists_false, not_false_eq_true, iff_true]
    exact (ih _ _ _ _ _ _ _ _ hc hkids).mpr nofun
  | some td =>
    obtain ⟨t, d⟩ := td
    simp only [hres, Option.map_some, Option.getD_some] at hkids
    obtain ⟨k, hn⟩ := resolve_node hres
    obtain ⟨k', hk⟩ := returns_onTarget_inv hn hkids
    simp only [hret, and_true, Option.map_some, Option.getD_some, logs_onTarget_iff hn]
    rw [ih _ _ _ _ _ _ _ _ hc hk]
    constructor
    · rintro hall ⟨_, _, _, heq, hn', p, hw, hd⟩
      obtain ⟨rfl, rfl⟩ := Prod.mk.inj (Option.some.inj heq)
      obtain rfl := Option.some.inj (hn.symm.trans hn')
      exact hall rfl p hw hd
    · exact fun hnone _ p hw hd => hnone ⟨t, d, k, rfl, hn, p, hw, hd⟩

theorem WalkReports.parseBank (ih : WalkReports set mem fill n) :
    ParseReports set mem fill (n + 1) := by
  intro bankType buf depth r b c hb hr
  have hread : Logs Obs.Fine (readHeader mem buf bankType) b :=
    logs_readHeader_of fun _ _ => trivial
  rw [EvioTool.parseBank, returns_bind] at hr
  rw [EvioTool.parseBank]
  obtain ⟨x, b', hx, hr⟩ := hr
  rw [hx.logs_bind]
  obtain ⟨h, hh, rfl, hb'⟩ := headerAt_of_returns hb hx
  subst b'
  simp only [returns_bind, returns_int32] at hr
  obtain ⟨_, b', ⟨hfit, rfl, hb'⟩, hr⟩ := hr
  subst b'
  rw [(returns_int32.mpr ⟨hfit, rfl, rfl⟩).logs_bind]
  simp only [hread, logs_int32, true_and]
  cases hl : leafCase h.contentType h.padding with
  | some y => exact iff_of_true logs_fine_leaf (not_damaged_leaf hh hl)
  | none =>
    rw [hl] at hr
    dsimp only at hr ⊢
    cases hc : isContainer h.contentType with
    | false =>
      refine iff_of_false (fun hlogs => ?_) (not_not_intro (.contents hh hl hc))
      exact (hlogs (.returned (-5)) List.mem_cons_self).2 rfl
    | true =>
      rw [hc, if_pos rfl] at hr
      rw [if_pos rfl]
      exact ih.container hh hc hr

theorem WalkReports.succ (ih : WalkReports set mem fill n) (ihp : ParseReports set mem fill n) :
    WalkReports set mem fill (n + 1) := by
  intro live data bankLen contentType depth p b c hc hr
  rw [returns_children] at hr
  rw [children]
  split at hr <;> rename_i hp
  · obtain ⟨d, hparse, w, hlen, hrest⟩ := hr
    have htell : Returns (tell (.child p w (nextPos p w)) : Exec Halt Obs Bank Unit) d () d :=
      returns_tell.mpr rfl
    have hread : Logs Obs.Fine (readLength mem contentType (data + p)) d :=
      (logs_readWord_of (fun _ _ => trivial) _).bind fun _ _ _ => logs_pure
    have hstep : Logs Obs.Fine (tell (.child p w (nextPos p w)) : Exec Halt Obs Bank Unit) d :=
      logs_tell.mpr trivial
    rw [if_pos hp, hparse.logs_bind, hlen.logs_bind, htell.logs_bind,
      ih _ _ _ _ _ _ _ _ hc hrest]
    obtain ⟨v, hv, rfl, -⟩ := returns_readLength.mp hlen
    simp only [hread, hstep, true_and, walk_iff hp hv]
    cases live with
    | false => simp [Exec.when]
    | true =>
      obtain ⟨r, hparse⟩ := returns_when_true.mp hparse
      have hsame : SameNodes set b d := sameNodes_parseBank hparse
      have hlogs : Logs Obs.Fine (when true (EvioTool.parseBank set mem fill n (data + p)
          contentType depth)) b ↔ ¬Damaged set mem b (data + p) contentType depth := by
        rw [← ihp _ _ _ _ _ _ hc hparse, Exec.when, if_pos rfl, hparse.logs_bind]
        simp
      simp only [hlogs, forall_eq_or_imp, damaged_congr hsame, true_imp_iff]
  · rw [if_neg hp]
    simp only [logs_pure, true_iff]
    intro _ q hw
    cases hw <;> contradiction

theorem logs_fine_iff (n : Nat) : ParseReports set mem fill n ∧ WalkReports set mem fill n := by
  induction n with
  | zero =>
    constructor
    · intro bankType buf depth r b c _ hr
      exact (returns_halt hr).elim
    · intro live data bankLen contentType depth p b c _ hr
      exact (returns_halt hr).elim
  | succ n ih =>
    obtain ⟨ihp, ihc⟩ := ih
    exact ⟨ihc.parseBank, ihc.succ ihp⟩

end Parser

section Events

variable {set : Settings} {mem : Mem} {fill fuel : Nat} {b c : Bank} {stat : Int} {s t : World}
  {a : Answers}

theorem header_of_returns {n : Nat} {buf depth : Int} {bankType : Nat}
    (hb : isContainer bankType = true)
    (hr : Returns (parseBank set mem fill n buf bankType depth) b stat c) :
    ∃ h, headerAt mem buf bankType = some h := by
  cases n with
  | zero => exact (returns_halt hr).elim
  | succ n =>
    rw [parseBank, returns_bind] at hr
    obtain ⟨x, b', hx, -⟩ := hr
    obtain ⟨h, hh, -⟩ := headerAt_of_returns hb hx
    exact ⟨h, hh⟩

theorem accepted_iff {w0 w1 : UInt32} (h0 : mem 0 = some w0) (h1 : mem 1 = some w1) :
    Accepted set mem b ↔ (set.fChopLevel > 0 →
      (((w1 >>> 8) &&& 0x3F).toNat = 0x10 ∨ ((w1 >>> 8) &&& 0x3F).toNat = 0xE) ∧
        b.label.checkTag (w1 >>> 16).toUInt16 = true) := by
  have hh : headerAt mem 0 0x10 = some (bankHeader w0 w1) := by
    simp [headerAt, h0, h1]
  constructor
  · rintro ⟨h, hh', hacc⟩
    obtain rfl := Option.some.inj (hh.symm.trans hh')
    exact hacc
  · exact fun hacc => ⟨_, hh, hacc⟩

theorem parseEvioBuff_fine_iff (hr : Returns (parseEvioBuff set mem fill fuel) b stat c) :
    (stat = S_SUCCESS → Logs Obs.Fine (parseEvioBuff set mem fill fuel) b) ↔
      ¬(Accepted set mem b ∧ Damaged set mem b 0 0x10 0) := by
  have hread : Logs Obs.Fine (readWord mem .parser 1) b := logs_readWord_of (fun _ _ => trivial) _
  rw [parseEvioBuff, returns_bind] at hr
  obtain ⟨w1, b', hw, hr⟩ := hr
  rw [parseEvioBuff, hw.logs_bind]
  simp only [hread, true_and]
  obtain ⟨hw1, rfl⟩ := returns_readWord.mp hw
  rw [returns_bind] at hr
  obtain ⟨_, d, hmod, hr⟩ := hr
  rw [hmod.logs_bind]
  simp only [logs_modify, true_and]
  have hd := returns_modify.mp hmod
  rw [returns_bind] at hr
  obtain ⟨pass, d', hpass, hr⟩ := hr
  rw [hpass.logs_bind]
  simp only [logs_gets, true_and]
  obtain ⟨rfl, hd'⟩ := returns_gets.mp hpass
  subst d' d
  have hnot (hguard : ¬(set.fChopLevel > 0 →
      (((w1 >>> 8) &&& 0x3F).toNat = 0x10 ∨ ((w1 >>> 8) &&& 0x3F).toNat = 0xE) ∧
        b'.label.checkTag (w1 >>> 16).toUInt16 = true)) : ¬Accepted set mem b' := by
    intro hacc
    obtain ⟨h, hh, -⟩ := id hacc
    obtain ⟨w0, h0, -⟩ := Option.bind_eq_some_iff.mp hh
    exact hguard ((accepted_iff h0 hw1).mp hacc)
  split_ifs at hr ⊢ with htype htag
  · obtain ⟨rfl, -⟩ := returns_pure.mp hr
    have hno : ¬Accepted set mem b' := hnot fun h => by
      rcases (h htype.1).1 with h | h
      · exact htype.2.1 h
      · exact htype.2.2 h
    exact ⟨fun _ h => hno h.1, fun _ h => absurd h (by decide)⟩
  · have hno : ¬Accepted set mem b' := hnot fun h => by
      have hpass := (h htag.1).2
      simp [hpass] at htag
    exact ⟨fun _ h => hno h.1, fun _ _ => logs_pure⟩
  · rw [returns_bind] at hr
    obtain ⟨r, d, hparse, hr⟩ := hr
    obtain ⟨rfl, -⟩ := returns_pure.mp hr
    obtain ⟨h, hh⟩ := header_of_returns rfl hparse
    obtain ⟨w0, h0, -⟩ := Option.bind_eq_some_iff.mp hh
    have hacc : Accepted set mem b' := by
      rw [accepted_iff h0 hw1]
      intro hchop
      constructor
      · by_contra htype'
        exact htype ⟨hchop, not_or.mp htype'⟩
      · by_contra hpass
        exact htag ⟨hchop, by simpa using hpass⟩
    have hsame : SameNodes set b' (Bank.mark (w1 >>> 16).toUInt16 (w1 &&& 0xFF).toUInt8 b') :=
      .inr shape_mark
    rw [hparse.logs_bind, (logs_fine_iff fuel).1 _ _ _ _ _ _ rfl hparse]
    simp only [logs_pure, and_true, hacc, true_and]
    exact ⟨fun h hd => h rfl (hd.congr _ hsame), fun h _ hd => h (hd.congr _ hsame.symm)⟩

theorem logs_endEvent {P : Obs → Prop} {put : Int} : Logs P (endEvent put) s := by
  refine logs_gets.bind fun t u _ => ?_
  have hmove {v : World} : Logs P (do
      let c ← int32 (t.fCurrentChunk - 1)
      modifyTool fun t => { t with fEventValid := false, fCurrentChunk := c }
      pure ET_OK) v :=
    (logs_int32 _).bind fun _ _ _ => logs_modify.bind fun _ _ _ => logs_pure
  dsimp only
  split
  · refine Logs.bind (logs_gets.bind fun _ _ _ => logs_demand.bind fun _ _ _ =>
      logs_modify.bind fun _ _ _ => logs_pure) fun _ _ _ => ?_
    split
    · exact logs_pure
    · exact hmove
  · rw [pure_bind]
    exact hmove

theorem logs_et_events_get {P : Obs → Prop} {n : Nat} {g : GetAnswer} :
    Logs P (et_events_get n g) s := by
  refine logs_gets.bind fun _ _ _ => logs_modify.bind fun _ _ _ => logs_modify.bind fun _ _ _ =>
    logs_gets.bind fun _ _ _ => logs_demand.bind fun _ _ _ => ?_
  split
  · exact logs_modify.bind fun _ _ _ => logs_pure
  · exact logs_halt

theorem logs_getEvent {P : Obs → Prop} {g : GetAnswer} : Logs P (getEvent g) s := by
  refine logs_gets.bind fun _ _ _ => ?_
  split
  · split
    · exact logs_et_events_get.bind fun _ _ _ => logs_modify.bind fun _ _ _ => logs_pure
    · exact logs_pure
  · exact logs_et_events_get.bind fun _ _ _ => logs_modify.bind fun _ _ _ => logs_pure

theorem logs_checkEvent {P : Obs → Prop} : Logs P checkEvent s := by
  refine logs_gets.bind fun _ _ _ => ?_
  split
  · exact logs_pure
  · refine logs_demand.bind fun _ _ _ => logs_modify.bind fun _ _ _ =>
      logs_demand.bind fun _ _ _ => logs_modify.bind fun _ _ _ => ?_
    split
    · refine logs_demand.bind fun _ _ _ => ?_
      split
      · exact logs_modify.bind fun _ _ _ => logs_pure
      · exact logs_modify.bind fun _ _ _ => logs_pure
    · exact logs_pure

theorem logs_nextNoParse {P : Obs → Prop} : Logs P (nextNoParse a) s := by
  refine logs_gets.bind fun _ _ _ => ?_
  split
  · refine logs_endEvent.when.bind fun _ _ _ => logs_getEvent.bind fun _ _ _ => ?_
    split
    · exact logs_pure
    · exact logs_checkEvent
  · split
    · exact logs_pure
    · exact logs_pure
    · exact logs_modify.bind fun _ _ _ => logs_pure

theorem logs_onBank {P : Obs → Prop} {α : Type} {m : Exec Halt Obs Bank α} :
    Logs P (onBank m) s ↔ Logs P m s.tool.bank := by
  simp [onBank, logs_zoom]

theorem next_fine_iff (hr : Returns (next fill fuel a) s stat t) :
    (stat = S_SUCCESS → Logs Obs.Fine (next fill fuel a) s) ↔ ∀ buf, Reads a s buf →
      ¬(Accepted s.tool.set buf.mem (s.tool.clear s.tool.bank) ∧
        Damaged s.tool.set buf.mem (s.tool.clear s.tool.bank) 0 0x10 0) := by
  have hquiet : Logs Obs.Fine (nextNoParse a) s := logs_nextNoParse
  rw [next, returns_bind] at hr
  obtain ⟨r, u, hnext, hr⟩ := hr
  rw [next, hnext.logs_bind]
  simp only [hquiet, true_and]
  by_cases hok : r = S_SUCCESS
  · subst hok
    rw [if_neg (by simp)] at hr ⊢
    have hkept : s.Kept u := (kept_nextNoParse a).of_returns hnext
    rw [← hkept.set, show s.tool.clear s.tool.bank = u.tool.clear u.tool.bank by
      rw [Tool.clear, Tool.clear, hkept.fullErase, hkept.bank]]
    rw [returns_congr (gets_bind_apply _ _ _), returns_bind] at hr
    obtain ⟨_, v, hclear, hr⟩ := hr
    obtain ⟨c, hc, rfl⟩ := returns_onBank.mp hclear
    obtain rfl := returns_modify.mp hc
    rw [returns_bind] at hr
    obtain ⟨buf, v, hdem, hr⟩ := hr
    obtain ⟨hbuf, rfl⟩ := returns_demand.mp hdem
    rw [returns_bind] at hr
    obtain ⟨r, v, hbank, hr⟩ := hr
    obtain ⟨d, hparse, rfl⟩ := returns_onBank.mp hbank
    rw [returns_bind] at hr
    obtain ⟨_, v, hend, hr⟩ := hr
    obtain ⟨rfl, rfl⟩ := returns_pure.mp hr
    have hlogs : Logs Obs.Fine (do
        let t ← gets World.tool
        onBank (modify (if t.fFullErase then Bank.clearFull else Bank.clear))
        let buf ← demand .undefined t.fEvioBuf
        let stat ← onBank (parseEvioBuff t.set buf.mem fill fuel)
        let _ ← endEvent a.putLast
        pure stat) u ↔
        Logs Obs.Fine (parseEvioBuff u.tool.set buf.mem fill fuel) (u.tool.clear u.tool.bank) := by
      have hget : Returns (gets World.tool : Exec Halt Obs World Tool) u u.tool u :=
        returns_gets.mpr ⟨rfl, rfl⟩
      rw [hget.logs_bind, hclear.logs_bind, hdem.logs_bind, hbank.logs_bind, hend.logs_bind,
        logs_onBank, logs_onBank]
      simp only [logs_gets, logs_modify, logs_demand, logs_endEvent, logs_pure, true_and, and_true]
      rfl
    have hbuf' : u.tool.fEvioBuf = some buf := hbuf
    have hparse' : Returns (parseEvioBuff u.tool.set buf.mem fill fuel)
        (u.tool.clear u.tool.bank) stat d := hparse
    rw [hlogs, parseEvioBuff_fine_iff hparse']
    constructor
    · rintro h buf' ⟨v, hv, hb⟩
      obtain ⟨-, rfl⟩ := hv.det hnext
      obtain rfl := Option.some.inj (hbuf'.symm.trans hb)
      exact h
    · exact fun h => h buf ⟨u, hnext, hbuf'⟩
  · rw [if_pos hok] at hr ⊢
    obtain ⟨rfl, -⟩ := returns_pure.mp hr
    constructor
    · rintro - buf ⟨v, hv, -⟩
      exact absurd (hv.det hnext).1 hok
    · exact fun _ h => absurd h hok

/-- A success means that no illegal bank was met exactly when there was none to meet. -/
theorem success_iff_undamaged (fill fuel : Nat) :
    (∀ set mem b stat c, Returns (parseEvioBuff set mem fill fuel) b stat c →
      ((stat = S_SUCCESS → Logs Obs.Fine (parseEvioBuff set mem fill fuel) b) ↔
        ¬(Accepted set mem b ∧ Damaged set mem b 0 0x10 0))) ∧
    (∀ a s stat t, Returns (next fill fuel a) s stat t →
      ((stat = S_SUCCESS → Logs Obs.Fine (next fill fuel a) s) ↔ ∀ buf, Reads a s buf →
        ¬(Accepted s.tool.set buf.mem (s.tool.clear s.tool.bank) ∧
          Damaged s.tool.set buf.mem (s.tool.clear s.tool.bank) 0 0x10 0))) :=
  ⟨fun _ _ _ _ _ => parseEvioBuff_fine_iff, fun _ _ _ _ => next_fine_iff⟩

end Events

theorem oneBank_undamaged :
    ¬(Accepted {} (Mem.ofList oneBankWords) emptyTop ∧
      Damaged {} (Mem.ofList oneBankWords) emptyTop 0 0x10 0) := by
  have hr : Returns (parseEvioBuff {} (Mem.ofList oneBankWords) 9 9) emptyTop S_SUCCESS
      (parseEvioBuff {} (Mem.ofList oneBankWords) 9 9 emptyTop).state := ⟨by decide, rfl⟩
  have hlogs : Logs Obs.Fine (parseEvioBuff {} (Mem.ofList oneBankWords) 9 9) emptyTop := by
    unfold Logs
    decide
  exact ((success_iff_undamaged 9 9).1 _ _ _ _ _ hr).mp fun _ => hlogs

def illegalWords : List UInt32 := [3, 0x00001001, 1, 0x00013F00]

theorem illegal_reported_good :
    (parseEvioBuff {} (Mem.ofList illegalWords) 9 9 emptyTop).out = .ok S_SUCCESS ∧
    Obs.returned (-5) ∈ (parseEvioBuff {} (Mem.ofList illegalWords) 9 9 emptyTop).log :=
  ⟨by decide, by decide⟩

end EvioTool
