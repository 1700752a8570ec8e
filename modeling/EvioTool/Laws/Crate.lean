import EvioTool.Laws.EventTree
import EvioTool.Laws.FADCSlot
import EvioTool.Laws.FillInv
import EvioTool.Lib.Run

/-! The crates that FADC hits are stored with. -/

namespace EvioTool

open Lib Exec

def BankInfo.hitsAt (i : BankInfo) (loc : Nat) : List FADCdata :=
  match i.leafs[loc]? with
  | some ⟨.fadc, l⟩ => l.data
  | _ => []

namespace Fill

/-- `d` is one of the hits of the composite that are stored. -/
def Stores (set : Settings) (mem : Mem) (fill : Nat) (f : Fill) (d : FADCdata) : Prop :=
  f.type = .fadc ∧
    ∃ loc, d ∈ ((f.after set mem fill).hitsAt loc).drop (f.node.hitsAt loc).length

/-- There is a leaf for the composite, and the payload is read to some hits. -/
def HasHits (set : Settings) (mem : Mem) (fill : Nat) (f : Fill) : Prop :=
  f.type = .fadc ∧ ∃ loc i l xs,
    f.node.leafFor set.fAutoAdd .fadc (fadcStr f.header.tag f.header.num) "Auto added string leaf"
      f.header.tag f.header.num = some (loc, i) ∧
    i.leafs[loc]? = some ⟨.fadc, l⟩ ∧
    Returns (FADCdata.read mem fill f.mark.toUInt8 f.header.tag f.buf : Exec Halt Obs BankInfo _)
      i xs i ∧ xs ≠ []

end Fill

variable {set : Settings} {mem : Mem} {fill : Nat} {k : Kind} {enclosing mark tag : UInt16}
  {num : UInt8} {buf depth : Int} {b c : Bank} {i j : BankInfo}

section Reading

variable {σ : Type} {s t : σ} {crate : UInt8} {cbuf : Int} {d : FADCdata} {xs : List FADCdata}
  {entry : Int → Exec Halt Obs σ (FADCdata × Int)} {r : List FADCdata × Int} {indx : Int}

/-- Entries are hits of the crate. -/
def Stamps (crate : UInt8) (entry : Int → Exec Halt Obs σ (FADCdata × Int)) : Prop :=
  ∀ indx s r t, Returns (entry indx) s r t → r.1.crate = crate

theorem stamps_ofSamples : Stamps d.crate fun indx =>
    (FADCdata.ofSamples mem cbuf d indx : Exec Halt Obs σ _) := by
  intro indx s r t h
  simp only [FADCdata.ofSamples, returns_bind] at h
  obtain ⟨_, _, -, _, _, -, h⟩ := h
  split at h
  · simp at h
  · simp only [returns_bind, returns_pure] at h
    obtain ⟨_, _, -, _, _, -, _, _, -, _, _, -, rfl, -⟩ := h
    rfl

theorem stamps_ofValue : Stamps d.crate fun indx =>
    (FADCdata.ofValue mem cbuf d indx : Exec Halt Obs σ _) := by
  intro indx s r t h
  simp only [FADCdata.ofValue, returns_bind, returns_pure] at h
  obtain ⟨_, _, -, rfl, -⟩ := h
  rfl

theorem stamps_ofChanVal : Stamps d.crate fun indx =>
    (FADCdata.ofChanVal mem cbuf d indx : Exec Halt Obs σ _) := by
  intro indx s r t h
  simp only [FADCdata.ofChanVal, returns_bind, returns_pure] at h
  obtain ⟨_, _, -, _, _, -, rfl, -⟩ := h
  rfl

theorem Stamps.repeatEntry {n : Nat} (he : Stamps crate entry)
    (h : Returns (FADCdata.repeatEntry entry n indx) s r t) : ∀ d ∈ r.1, d.crate = crate := by
  induction n generalizing indx r s t with
  | zero =>
    obtain ⟨rfl, -⟩ := returns_pure.mp h
    nofun
  | succ n ih =>
    simp only [FADCdata.repeatEntry, returns_bind, returns_pure] at h
    obtain ⟨_, _, hd, _, _, hds, rfl, -⟩ := h
    intro x hx
    obtain rfl | hx := List.mem_cons.mp hx
    · exact he _ _ _ _ hd
    · exact ih hds x hx

theorem Stamps.readEntries (he : Stamps crate entry)
    (h : Returns (FADCdata.readEntries mem cbuf entry indx) s r t) : ∀ d ∈ r.1, d.crate = crate := by
  obtain ⟨_, _, -, h⟩ := returns_bind.mp h
  exact he.repeatEntry h

theorem crate_readHits (h : Returns (FADCdata.readHits mem tag cbuf d indx) s r t) :
    ∀ x ∈ r.1, x.crate = d.crate := by
  unfold FADCdata.readHits at h
  split at h
  · exact stamps_ofSamples.readEntries h
  · split at h
    · exact stamps_ofValue.readEntries h
    · split at h
      · exact stamps_ofChanVal.readEntries h
      · obtain ⟨rfl, -⟩ := returns_pure.mp h
        nofun

theorem crate_readSlots {buflen : Int} {n : Nat}
    (h : Returns (FADCdata.readSlots mem crate tag cbuf buflen n indx) s xs t) :
    ∀ d ∈ xs, d.crate = crate := by
  induction n generalizing indx xs s t with
  | zero => exact absurd h returns_halt
  | succ n ih =>
    rw [FADCdata.readSlots] at h
    split at h
    · simp only [returns_bind, returns_pure] at h
      obtain ⟨_, _, -, _, _, -, _, _, -, _, _, hds, _, _, hrest, rfl, -⟩ := h
      intro d hd
      obtain hd | hd := List.mem_append.mp hd
      · exact crate_readHits hds d hd
      · exact ih hrest d hd
    · obtain ⟨rfl, -⟩ := returns_pure.mp h
      exact fun d hd => absurd hd List.not_mem_nil

theorem crate_readFADC (h : Returns (FADCdata.read mem fill crate tag buf) s xs t) :
    ∀ d ∈ xs, d.crate = crate := by
  simp only [FADCdata.read, returns_bind] at h
  obtain ⟨_, _, -, _, _, -, _, _, -, _, _, -, h⟩ := h
  exact crate_readSlots h

end Reading

section Storing

variable {fAutoAdd : Bool} {loc : Nat} {l : Leaf .fadc} {f : Fill}

theorem BankInfo.hitsAt_leafFor {str desc : String}
    (h : i.leafFor fAutoAdd .fadc str desc tag num = some (loc, j)) :
    j.hitsAt = i.hitsAt ∧ j.thisTag = i.thisTag := by
  have hlook := i.look_leafFor (fun o => match o with | some ⟨.fadc, l⟩ => l.data | _ => [])
    (fun _ hdata => hdata) h
  exact ⟨funext fun loc => (hlook loc).1, (hlook 0).2.1⟩

theorem BankInfo.hitsAt_setLeaf (hloc : i.leafs[loc]? = some ⟨.fadc, l⟩) (xs : List FADCdata)
    (n : Nat) : (i.setLeaf loc ⟨.fadc, l.pushDataArray xs⟩).hitsAt n =
      i.hitsAt n ++ if n = loc then xs else [] := by
  have hlt : loc < i.leafs.length := (List.getElem?_eq_some_iff.mp hloc).1
  unfold hitsAt
  rw [leafs_setLeaf]
  by_cases hn : n = loc
  · subst hn
    rw [List.getElem?_set_self hlt, hloc, if_pos rfl]
    rfl
  · rw [List.getElem?_set_ne (Ne.symm hn), if_neg hn, List.append_nil]

theorem ends_addOrFillLeafFADCdata {Q : BankInfo → Prop} (hsame : ∀ j, j.hitsAt = i.hitsAt → Q j)
    (hfill : ∀ loc j l xs,
      i.leafFor fAutoAdd .fadc (fadcStr tag num) "Auto added string leaf" tag num = some (loc, j) →
      j.leafs[loc]? = some ⟨.fadc, l⟩ →
      Returns (FADCdata.read mem fill i.thisTag.toUInt8 tag buf : Exec Halt Obs BankInfo _) j xs j →
      Q (j.setLeaf loc ⟨.fadc, l.pushDataArray xs⟩)) :
    Ends (addOrFillLeafFADCdata fAutoAdd mem fill buf tag num) (fun _ => Q) Q i := by
  have hfind : Returns (findOrAddLeaf fAutoAdd .fadc (fadcStr tag num) "Auto added string leaf"
      tag num) i _ _ := ⟨congrArg Outcome.out findOrAddLeaf_eq, congrArg Outcome.state findOrAddLeaf_eq⟩
  rw [addOrFillLeafFADCdata, ends_bind]
  refine hfind.ends ?_
  cases hleaf : i.leafFor fAutoAdd .fadc (fadcStr tag num) "Auto added string leaf" tag num with
  | none => exact hsame i rfl
  | some r =>
    obtain ⟨loc, j⟩ := r
    obtain ⟨hhits, htag⟩ := BankInfo.hitsAt_leafFor hleaf
    simp only [Option.map_some, Option.getD_some, fillLeaf, ends_bind, ends_gets, ends_demand,
      ends_tell]
    refine ⟨fun T hT => ?_, fun _ => hsame j hhits⟩
    split <;> rename_i hT'
    · subst hT'
      obtain ⟨⟨_, l⟩, hloc, rfl⟩ := Option.map_eq_some_iff.mp hT
      have hlt : loc < j.leafs.length := (List.getElem?_eq_some_iff.mp hloc).1
      have hplain : l.cls = .leaf := by
        cases l.cls
        rfl
      simp only [ends_bind, ends_gets]
      rw [htag]
      have hpush (xs : List FADCdata) : Returns (pushLeaf loc .fadc xs) j ()
          (j.setLeaf loc ⟨.fadc, l.pushDataArray xs⟩) := returns_pushLeaf.mpr (BankInfo.pushLeaf_eq hloc xs)
      have hcall (xs : List FADCdata) : Returns (callBack loc)
          (j.setLeaf loc ⟨.fadc, l.pushDataArray xs⟩) () _ :=
        (returns_callBack_plain (l := l.pushDataArray xs) (by simp [hlt]) hplain).mpr rfl
      refine ends_of (fun xs t hxs => ?_) ?_
      · obtain rfl := hxs.state_of_keeps fun _ => keeps_readFADC _ _ _ _
        exact (hpush xs).ends ((hcall xs).ends (hfill loc t l xs hleaf hloc hxs))
      · rw [state_of_keeps fun _ => keeps_readFADC _ _ _ _]
        exact hsame j hhits
    · exact hsame j hhits

theorem Fill.stores_iff {d : FADCdata} : f.Stores set mem fill d ↔ f.type = .fadc ∧
    ∃ loc j l xs, f.node.leafFor set.fAutoAdd .fadc (fadcStr f.header.tag f.header.num)
        "Auto added string leaf" f.header.tag f.header.num = some (loc, j) ∧
      j.leafs[loc]? = some ⟨.fadc, l⟩ ∧
      Returns (FADCdata.read mem fill f.node.thisTag.toUInt8 f.header.tag f.buf :
        Exec Halt Obs BankInfo _) j xs j ∧ d ∈ xs := by
  refine and_congr_right fun hT => ?_
  have hexec : f.after set mem fill = (addOrFillLeafFADCdata set.fAutoAdd mem fill f.buf f.header.tag
      f.header.num f.node).state := by
    rw [after, exec, hT]
    rfl
  rw [hexec]
  constructor
  · refine Ends.state (J := fun e => (∃ n, d ∈ (e.hitsAt n).drop (f.node.hitsAt n).length) → _)
      (ends_addOrFillLeafFADCdata ?_ ?_) fun _ _ h => h
    · rintro j hj ⟨n, hn⟩
      rw [hj, List.drop_length] at hn
      cases hn
    · rintro loc j l xs hleaf hloc hxs ⟨n, hn⟩
      rw [BankInfo.hitsAt_setLeaf hloc, (BankInfo.hitsAt_leafFor hleaf).1, List.drop_left] at hn
      split at hn
      · exact ⟨loc, j, l, xs, hleaf, hloc, hxs, hn⟩
      · cases hn
  · rintro ⟨loc, j, l, xs, hleaf, hloc, hxs, hd⟩
    obtain ⟨hhits, htag⟩ := BankInfo.hitsAt_leafFor hleaf
    rw [← htag] at hxs
    have hfill := (returns_addOrFillLeafFADCdata hleaf hloc).mpr ⟨xs, hxs, rfl, rfl⟩
    rw [hfill.2]
    refine ⟨loc, ?_⟩
    rw [BankInfo.hitsAt_setLeaf hloc, hhits, List.drop_left, if_pos rfl]
    exact hd

end Storing

theorem label_resolve {t : Target} (h : resolve set tag num depth b = some (t, c)) :
    (∃ d, t.node c = some d ∧ d.label.thisTag = tag) ∧
      (set.Prunes depth → t = .self) ∧
      (¬set.Prunes depth → (∃ i, t = .sub i) ∧ c.label = b.label) := by
  unfold resolve at h
  split at h <;> rename_i hprune
  · cases h
    refine ⟨⟨_, rfl, by cases b; rfl⟩, fun _ => rfl, fun hn => absurd hprune hn⟩
  · cases hf : Bank.findBank b tag num with
    | some n =>
      rw [hf] at h
      obtain ⟨d, hd, hr⟩ := Option.map_eq_some_iff.mp h
      cases hr
      have hlt := (List.getElem?_eq_some_iff.mp hd).1
      refine ⟨⟨d.setLabel (d.label.setTag tag num), ?_, by cases d; rfl⟩, fun hp => absurd hp hprune,
        fun _ => ⟨⟨n, rfl⟩, by simp⟩⟩
      simp [Target.node, hlt]
    | none =>
      simp only [hf, Option.ite_none_right_eq_some] at h
      obtain ⟨-, hr⟩ := h
      cases hr
      exact ⟨⟨_, by simp [Target.node]; rfl, rfl⟩, fun hp => absurd hp hprune,
        fun _ => ⟨⟨_, rfl⟩, rfl⟩⟩

def Note.Marked (w : Note) : Prop := ∀ f, w = .inr f → f.node.thisTag = f.mark

theorem Note.marked_inl (w : Obs) : Note.Marked (.inl w) := fun _ h => absurd h Sum.inl_ne_inr

def KeepsMark (set : Settings) (mem : Mem) (fill : Nat) (t : Tree) : Prop :=
  ∀ (k : Kind) (enclosing mark : UInt16) (buf depth : Int) (b : Bank), b.label.thisTag = mark →
    Traces Note.Marked (fun _ c => c.label.thisTag = t.mark set depth mark)
      (visit set mem fill k enclosing mark buf depth t) b

theorem traces_noteFill {Q : Int → BankInfo → Prop} {g : BankInfo → Fill}
    (hmark : (g i).node.thisTag = (g i).mark)
    (hQ : ∀ stat j, Returns ((g i).exec set mem fill) i stat j → Q stat j) :
    Traces Note.Marked Q (noteFill set mem fill g) i := by
  refine .gets_bind (.bind (R := fun _ j => j = i) (traces_tell ?_ rfl) ?_)
  · rintro f ⟨⟩
    exact hmark
  · rintro _ _ rfl
    exact traces_mapLog Note.marked_inl hQ

theorem keepsMark_leaf {contentType padding : Nat} {payload : List UInt32} :
    KeepsMark set mem fill (.leaf tag num contentType padding payload) := by
  intro k enclosing mark buf depth b hb
  rw [visit, Tree.mark]
  cases leafCase contentType padding with
  | none => exact traces_pure hb
  | some r =>
    refine .bind (R := fun _ c => c = b) (traces_mapLog Note.marked_inl ?_) ?_
    · intro count c hc
      exact (returns_elemCount.mp hc).2.2.2
    · rintro count _ rfl
      refine .bind (R := fun _ c => c.label.thisTag = mark) ?_ fun _ _ hc => traces_pure hc
      refine .zoom (R := fun _ j => j.thisTag = mark) ?_ ?_
      · rintro _ ⟨⟩
        refine traces_noteFill hb ?_
        rintro stat j ⟨-, rfl⟩
        exact (fillInv_thisTag _ mark).fillSwitch rfl hb _ _ _ _
      · rintro _ stat j - hj
        simpa using hj

theorem keepsMark_all {trees : List Tree} (ih : ∀ t ∈ trees, KeepsMark set mem fill t)
    (hb : b.label.thisTag = mark) :
    Traces Note.Marked (fun _ c => c.label.thisTag = Tree.markAll set depth mark trees)
      (visitAll set mem fill k enclosing mark buf depth trees) b := by
  induction trees generalizing mark buf b with
  | nil => exact traces_pure hb
  | cons t ts iht =>
    refine .bind (ih t (by simp) k enclosing mark buf depth b hb) fun _ c hc => ?_
    exact iht (fun u hu => ih u (by simp [hu])) hc

theorem keepsMark_container {c : Container} {trees : List Tree}
    (ih : ∀ t ∈ trees, KeepsMark set mem fill t) :
    KeepsMark set mem fill (.container tag num c trees) := by
  intro k enclosing mark buf depth b hb
  rw [visit, Tree.mark]
  refine .bind (R := fun x d => x = (resolve set tag num depth b).map Prod.fst ∧
    d = ((resolve set tag num depth b).map Prod.snd).getD b)
    (traces_mapLog Note.marked_inl ?_) ?_
  · intro x d hd
    exact returns_containerNodeHandler.det hd
  · rintro x d ⟨rfl, rfl⟩
    cases hr : resolve set tag num depth b with
    | none =>
      have hprune : ¬set.Prunes depth := by
        intro hp
        simp [resolve, show depth < set.fChopLevel ∨ depth > set.fMaxLevel from hp] at hr
      rw [if_neg hprune]
      exact traces_pure hb
    | some r =>
      obtain ⟨t, d⟩ := r
      obtain ⟨⟨e, he, htag⟩, hself, hsub⟩ := label_resolve hr
      by_cases hprune : set.Prunes depth
      · obtain rfl := hself hprune
        cases he
        rw [if_pos hprune]
        exact keepsMark_all ih htag
      · obtain ⟨⟨i, rfl⟩, hlabel⟩ := hsub hprune
        rw [if_neg hprune]
        refine .zoom (R := fun _ _ => True) (fun x hx => ?_) fun x _ y _ _ => ?_
        · obtain rfl : e = x := Option.some.inj (he.symm.trans hx)
          exact (keepsMark_all ih htag).mono fun _ _ _ => trivial
        · rw [Rose.label_setSub]
          exact (congrArg BankInfo.thisTag hlabel).trans hb

theorem keepsMark (t : Tree) : KeepsMark set mem fill t := by
  induction t using Tree.ind with
  | leaf tag num contentType padding payload => exact keepsMark_leaf
  | container tag num c trees ih => exact keepsMark_container ih

theorem marked_visitEvent {c : Container} {trees : List Tree} :
    Logs Note.Marked (visitEvent set mem fill tag num c trees) b :=
  logs_visitEvent Note.marked_inl fun trees b hb =>
    (keepsMark (.container tag num c trees) .bank tag tag 0 0 b hb).logs

theorem Fill.crates_iff {f : Fill} (hf : f.node.thisTag = f.mark) :
    (∀ d, f.Stores set mem fill d → d.crate = f.enclosing.toUInt8) ↔
      (f.HasHits set mem fill → f.mark.toUInt8 = f.enclosing.toUInt8) := by
  constructor
  · rintro h ⟨hT, loc, j, l, xs, hleaf, hloc, hxs, hne⟩
    obtain ⟨d, hd⟩ := List.exists_mem_of_ne_nil xs hne
    have hstore : f.Stores set mem fill d :=
      Fill.stores_iff.mpr ⟨hT, loc, j, l, xs, hleaf, hloc, hf ▸ hxs, hd⟩
    exact (crate_readFADC hxs d hd).symm.trans (h d hstore)
  · intro h d hd
    obtain ⟨hT, loc, j, l, xs, hleaf, hloc, hxs, hd⟩ := Fill.stores_iff.mp hd
    rw [hf] at hxs
    exact (crate_readFADC hxs d hd).trans
      (h ⟨hT, loc, j, l, xs, hleaf, hloc, hxs, List.ne_nil_of_mem hd⟩)

/-- Hits are stored with the tag of the container that was entered last for their node, which
is to be that of the container they are in. -/
theorem parseEvioBuff_crates {c : Container} {trees : List Tree}
    (hw : (Tree.container tag num c trees).WF .bank)
    (hm : mem.Holds 0 ((Tree.container tag num c trees).encode .bank)) :
    (∃ F, ∀ fuel, F ≤ fuel → ∀ b, Follows (parseEvioBuff set mem fill fuel >>= fun _ => pure ())
      (visitEvent set mem fill tag num c trees) b) ∧
    ∀ b, (∀ f ∈ fills (visitEvent set mem fill tag num c trees b).log,
        ∀ d, f.Stores set mem fill d → d.crate = f.enclosing.toUInt8) ↔
      ∀ f ∈ fills (visitEvent set mem fill tag num c trees b).log,
        f.HasHits set mem fill → f.mark.toUInt8 = f.enclosing.toUInt8 := by
  refine ⟨followsEvent hw hm, fun b => forall₂_congr fun f hf => Fill.crates_iff ?_⟩
  exact marked_visitEvent _ (mem_fills.mp hf) f rfl

def crateTrees (before : List Tree) : List Tree :=
  [.container 0x25 0 .bank10
    (before ++ [.leaf 57601 0 0xF 0 (fadcPayload 0x00100001 [0] 0x100 oneSlotData)])]

def crateMem (before : List Tree) : Mem :=
  Mem.ofList ((Tree.container 0 1 .bank10 (crateTrees before)).encode .bank)

def crateSettings : Settings := { fAutoAdd := true, fChopLevel := 3 }

theorem wf_crateTrees : (Tree.container 0 1 .bank10 (crateTrees [])).WF .bank ∧
    (Tree.container 0 1 .bank10 (crateTrees [.container 0x99 0 .bank10 []])).WF .bank := by
  simp [crateTrees, Tree.WF, Tree.WFAll]
  decide

theorem parseEvioBuff_crates_alone :
    (∃ F, ∀ fuel, F ≤ fuel → ∀ b,
      Follows (parseEvioBuff crateSettings (crateMem []) 2 fuel >>= fun _ => pure ())
        (visitEvent crateSettings (crateMem []) 2 0 1 .bank10 (crateTrees [])) b) ∧
    ∀ f ∈ fills (visitEvent crateSettings (crateMem []) 2 0 1 .bank10 (crateTrees []) emptyTop).log,
      ∀ d, f.Stores crateSettings (crateMem []) 2 d → d.crate = f.enclosing.toUInt8 := by
  have hmark : ∀ f ∈ fills (visitEvent crateSettings (crateMem []) 2 0 1 .bank10 (crateTrees [])
      emptyTop).log, f.mark.toUInt8 = f.enclosing.toUInt8 := by decide
  refine ⟨(parseEvioBuff_crates wf_crateTrees.1 (Mem.holds_ofList _)).1, ?_⟩
  exact ((parseEvioBuff_crates wf_crateTrees.1 (Mem.holds_ofList _)).2 emptyTop).mpr
    fun f hf _ => hmark f hf

theorem crate_overwritten :
    let trees := crateTrees [.container 0x99 0 .bank10 []]
    let mem := crateMem [.container 0x99 0 .bank10 []]
    (Tree.container 0 1 .bank10 trees).WF .bank ∧
    (∃ f ∈ fills (visitEvent crateSettings mem 2 0 1 .bank10 trees emptyTop).log, ∃ d,
      f.Stores crateSettings mem 2 d ∧ f.enclosing.toUInt8 = 0x25 ∧ d.crate = 0x99) ∧
    ∃ e, Returns (parseEvioBuff crateSettings mem 2 8) emptyTop 0 e ∧
      e.label.hitsAt 0 =
        [{ crate := 0x99, slot := 3, chan := 2, trig := 7, reftime := 9, samples := [11, 12] }] := by
  refine ⟨wf_crateTrees.2, ⟨_, List.mem_of_getElem? (i := 0) rfl, _, ⟨rfl, 0, .head _⟩, rfl, rfl⟩,
    _, ⟨rfl, rfl⟩, rfl⟩

end EvioTool
