import EvioTool.Laws.Fillers
import EvioTool.Laws.ParseBank
import EvioTool.Laws.VTPBank

/-! Two dictionaries with the same data are read into dictionaries with the same data. -/

namespace EvioTool

open Lib Exec

def LeafClass.blank : LeafClass T → LeafClass T
  | .leaf => .leaf
  | .vtpBank v => .vtpBank v.blank

def LeafPtr.blank (l : LeafPtr) : LeafPtr := ⟨l.1, { l.2 with cls := l.2.cls.blank }⟩

namespace BankInfo

/-- Without the last number and the records of VTP banks, which no parsing depends on. -/
def blank (i : BankInfo) : BankInfo := { i with thisNum := 0, leafs := i.leafs.map LeafPtr.blank }

def untagged (i : BankInfo) : BankInfo := { i.blank with thisTag := 0 }

def shape (i : BankInfo) : BankInfo :=
  { i.untagged with leafs := i.untagged.leafs.map LeafPtr.clear, cls := i.cls.mapSVT SVTBank.clear }

end BankInfo

/-- The data of all leaves and SVT banks. -/
def Bank.untagged (b : Bank) : Bank := b.map BankInfo.untagged

def Bank.shape (b : Bank) : Bank := b.map BankInfo.shape

theorem LeafPtr.blank_push (l : LeafPtr) (T : ElemType) (xs : List T.Val) :
    (l.pushDataArray T xs).map blank = l.blank.pushDataArray T xs := by
  obtain ⟨S, l⟩ := l
  unfold pushDataArray blank
  split <;> rfl

theorem LeafPtr.clear_push {l m : LeafPtr} {T : ElemType} {xs : List T.Val}
    (h : l.pushDataArray T xs = some m) : m.blank.clear = l.blank.clear := by
  obtain ⟨S, l⟩ := l
  unfold pushDataArray at h
  split at h
  · obtain rfl := Option.some.inj h
    rfl
  · cases h

@[simp] theorem VTPBank.blank_blank (v : VTPBank) : v.blank.blank = v.blank := rfl

theorem LeafClass.blank_callBack (c : LeafClass T) (data : List T.Val) :
    (c.callBack data).map blank = (c.blank.callBack data).map blank := by
  cases c with
  | leaf => rfl
  | vtpBank v =>
    have hmap (x : Except Halt VTPBank) :
        (x.map vtpBank).map blank = (x.map VTPBank.blank).map vtpBank := by
      cases x <;> rfl
    cases ha : v.autoParse with
    | false => simp [callBack, blank, ha, VTPBank.blank, Except.map]
    | true =>
      have hb : v.blank.autoParse = true := ha
      simp only [callBack, blank, ha, hb, if_true, hmap, VTPBank.parseBank_blank, VTPBank.blank_blank]

theorem LeafClass.callBack_ok {c d : LeafClass T} {data : List T.Val}
    (h : c.callBack data = .ok d) : d.blank = c.blank := by
  cases c with
  | leaf => cases h; rfl
  | vtpBank v =>
    cases ha : v.autoParse with
    | false =>
      simp only [callBack, ha] at h
      cases h
      rfl
    | true =>
      simp only [callBack, ha, if_true] at h
      cases hp : VTPBank.parseBank (data.map UInt32.ofBitVec) v with
      | error e =>
        rw [hp] at h
        cases h
      | ok u =>
        rw [hp] at h
        cases h
        simp [blank, VTPBank.blank, (VTPBank.parseBank_ok hp).2]

theorem LeafPtr.blank_callBack (l : LeafPtr) :
    l.callBack.map blank = l.blank.callBack.map blank := by
  obtain ⟨T, l⟩ := l
  have h := LeafClass.blank_callBack l.cls l.data
  have hmap (x : Except Halt (LeafClass T)) (m : Leaf T) :
      Except.map blank ((x.map fun c => { m with cls := c }).map fun m => ⟨T, m⟩) =
        (x.map LeafClass.blank).map fun c => ⟨T, { m with cls := c }⟩ := by
    cases x <;> rfl
  simp only [callBack, Leaf.callBack, blank, hmap, h]

theorem LeafPtr.callBack_ok {l m : LeafPtr} (h : l.callBack = .ok m) : m.blank = l.blank := by
  obtain ⟨T, l⟩ := l
  cases hc : l.cls.callBack l.data with
  | error e =>
    simp only [callBack, Leaf.callBack, hc] at h
    cases h
  | ok c =>
    simp only [callBack, Leaf.callBack, hc] at h
    cases h
    simp only [blank, LeafClass.callBack_ok hc]

namespace BankInfo

variable {i j K : BankInfo}

structure Twin (K i j : BankInfo) : Prop where
  same : j.blank = i.blank
  shape : i.shape = K

theorem blank_setLeaf (loc : Nat) (l : LeafPtr) :
    (i.setLeaf loc l).blank = i.blank.setLeaf loc l.blank := by
  simp [blank, setLeaf, List.map_set]

theorem shape_setLeaf {loc : Nat} {l m : LeafPtr} (hl : i.leafs[loc]? = some l)
    (hm : m.blank.clear = l.blank.clear) : (i.setLeaf loc m).shape = i.shape := by
  have hlt := (List.getElem?_eq_some_iff.mp hl).1
  have hset : ((i.leafs.set loc m).map LeafPtr.blank).map LeafPtr.clear =
      (i.leafs.map LeafPtr.blank).map LeafPtr.clear := by
    rw [List.map_set, List.map_set, hm]
    apply List.ext_getElem?
    intro k
    rw [List.getElem?_set]
    split
    · rename_i h
      subst h
      rw [if_pos (by simpa using hlt), List.getElem?_map, List.getElem?_map, hl]
      rfl
    · rfl
  simp only [shape, untagged, blank, setLeaf, hset]

theorem leafs_of_blank (h : j.blank = i.blank) (loc : Nat) :
    j.leafs[loc]?.map LeafPtr.blank = i.leafs[loc]?.map LeafPtr.blank := by
  have hleafs : j.leafs.map LeafPtr.blank = i.leafs.map LeafPtr.blank := congrArg leafs h
  simpa using congrArg (·[loc]?) hleafs

theorem findLeaf_blank (tag : UInt16) (num : UInt8) :
    i.blank.findLeaf tag num = i.findLeaf tag num := by
  simp only [findLeaf, blank, List.findIdx?_map]
  rfl

theorem callBack_apply (loc : Nat) : EvioTool.callBack loc i = match i.leafs[loc]? with
    | none => ⟨.error .undefined, i, []⟩
    | some l => match l.callBack with
      | .error e => ⟨.error e, i, []⟩
      | .ok m => ⟨.ok (), i.setLeaf loc m, []⟩ := by
  rw [EvioTool.callBack, gets_bind_apply]
  cases i.leafs[loc]? with
  | none => simp
  | some l => cases hc : l.callBack <;> simp [hc]

namespace Twin

theorem setLeaf (h : Twin K i j) {loc : Nat} {l m m' : LeafPtr} (hl : i.leafs[loc]? = some l)
    (hm : m.blank.clear = l.blank.clear) (hm' : m'.blank = m.blank) :
    Twin K (i.setLeaf loc m) (j.setLeaf loc m') where
  same := by rw [blank_setLeaf, blank_setLeaf, h.same, hm']
  shape := by rw [shape_setLeaf hl hm, h.shape]

theorem leaf_cases (h : Twin K i j) (loc : Nat) :
    (i.leafs[loc]? = none ∧ j.leafs[loc]? = none) ∨
      ∃ l l', i.leafs[loc]? = some l ∧ j.leafs[loc]? = some l' ∧ l'.blank = l.blank := by
  have heq := leafs_of_blank h.same loc
  cases hi : i.leafs[loc]? with
  | none =>
    rw [hi] at heq
    exact .inl ⟨rfl, by simpa using heq⟩
  | some l =>
    rw [hi] at heq
    obtain ⟨l', hl', hb⟩ := Option.map_eq_some_iff.mp heq
    exact .inr ⟨l, l', rfl, hl', hb⟩

theorem push (loc : Nat) (T : ElemType) (xs : List T.Val) : Keeps (Twin K) (EvioTool.pushLeaf loc T xs) := by
  intro i j h
  rcases h.leaf_cases loc with ⟨hi, hj⟩ | ⟨l, l', hi, hj, hb⟩
  · simp only [Alike, EvioTool.pushLeaf, BankInfo.pushLeaf, hi, hj]
    exact ⟨rfl, h⟩
  · have hpush : (l'.pushDataArray T xs).map LeafPtr.blank = (l.pushDataArray T xs).map LeafPtr.blank := by
      rw [LeafPtr.blank_push, LeafPtr.blank_push, hb]
    cases hp : l.pushDataArray T xs with
    | none =>
      rw [hp, Option.map_none, Option.map_eq_none_iff] at hpush
      simp only [Alike, EvioTool.pushLeaf, BankInfo.pushLeaf, hi, hj, Option.bind_eq_bind, Option.bind_some, hp,
        hpush, Option.bind_none]
      exact ⟨trivial, h⟩
    | some m =>
      rw [hp] at hpush
      obtain ⟨m', hp', hm'⟩ := Option.map_eq_some_iff.mp hpush
      simp only [Alike, EvioTool.pushLeaf, BankInfo.pushLeaf, hi, hj, Option.bind_eq_bind, Option.bind_some, hp,
        hp']
      exact ⟨trivial, h.setLeaf hi (LeafPtr.clear_push hp) hm'⟩

theorem callBack (loc : Nat) : Keeps (Twin K) (EvioTool.callBack loc) := by
  intro i j h
  rcases h.leaf_cases loc with ⟨hi, hj⟩ | ⟨l, l', hi, hj, hb⟩
  · simp only [Alike, callBack_apply, hi, hj]
    exact ⟨trivial, h⟩
  · have hcall : l'.callBack.map LeafPtr.blank = l.callBack.map LeafPtr.blank := by
      rw [LeafPtr.blank_callBack, hb, ← LeafPtr.blank_callBack]
    simp only [Alike, callBack_apply, hi, hj]
    cases hc : l.callBack <;> cases hc' : l'.callBack <;> rw [hc, hc'] at hcall
    case error.error e e' =>
      cases hcall
      exact ⟨rfl, h⟩
    case ok.ok m m' =>
      refine ⟨trivial, h.setLeaf hi ?_ (Except.ok.inj hcall)⟩
      rw [LeafPtr.callBack_ok hc]
    all_goals cases hcall

end Twin

theorem Twin.cls (h : Twin K i j) : j.cls = i.cls := by
  have hcls : j.blank.cls = i.blank.cls := by rw [h.same]
  exact hcls

theorem Twin.thisTag (h : Twin K i j) : j.thisTag = i.thisTag := by
  have htag : j.blank.thisTag = i.blank.thisTag := by rw [h.same]
  exact htag

theorem fillRel_twin (K : BankInfo) : FillRel false (Twin K) where
  cls _ _ h := h.cls
  thisTag _ _ h := h.thisTag
  findLeaf i j tag num h := by rw [← findLeaf_blank, h.same, findLeaf_blank]
  length i j h := by simpa [blank] using congrArg (fun k => k.leafs.length) h.same
  type i j loc h := by
    have hleafs := congrArg (Option.map Sigma.fst) (leafs_of_blank h.same loc)
    simp only [Option.map_map] at hleafs
    exact hleafs
  svt i j f hf h := by
    constructor
    · show { j.blank with cls := j.cls.mapSVT f } = { i.blank with cls := i.cls.mapSVT f }
      rw [h.same, h.cls]
    · rw [← h.shape]
      have hmap : (i.cls.mapSVT f).mapSVT SVTBank.clear = i.cls.mapSVT SVTBank.clear := by
        cases i.cls <;> simp [BankClass.mapSVT, hf]
      simp only [shape, untagged, blank, hmap]
  push := Twin.push
  callBack := Twin.callBack
  addLeaf _ _ _ _ _ _ _ h := nomatch h

theorem blank_of_untagged (h : j.untagged = i.untagged) (ht : j.thisTag = i.thisTag) :
    j.blank = i.blank := by
  show { j.untagged with thisTag := j.thisTag } = { i.untagged with thisTag := i.thisTag }
  rw [h, ht]

theorem Twin.untagged (h : Twin K i j) : j.untagged = i.untagged := by
  show { j.blank with thisTag := 0 } = { i.blank with thisTag := 0 }
  rw [h.same]

theorem twin_setTag (h : j.untagged = i.untagged) (hK : i.shape = K) (tag : UInt16) (num : UInt8) :
    Twin K (i.setTag tag num) (j.setTag tag num) where
  same := by
    show { j.untagged with thisTag := tag } = { i.untagged with thisTag := tag }
    rw [h]
  shape := hK

end BankInfo

namespace Bank

variable {set : Settings} {mem : Mem} {fill : Nat} {K b b' c c' : Bank}

structure Twins (K b b' : Bank) : Prop where
  same : b'.untagged = b.untagged
  shape : b.shape = K

structure TopTwins (K b b' : Bank) : Prop extends Twins K b b' where
  thisTag : b'.label.thisTag = b.label.thisTag

theorem Twins.untagged_label (h : Twins K b b') : b'.label.untagged = b.label.untagged := by
  have hlabel : b'.untagged.label = b.untagged.label := by rw [h.same]
  simpa [Bank.untagged] using hlabel

theorem Twins.label (h : Twins K b b') (ht : b'.label.thisTag = b.label.thisTag) :
    BankInfo.Twin K.label b.label b'.label where
  same := BankInfo.blank_of_untagged h.untagged_label ht
  shape := by simp [← h.shape, Bank.shape]

theorem Twins.setLabel {i j : BankInfo} (h : Twins K b b') (hi : BankInfo.Twin K.label i j) :
    TopTwins K (b.setLabel i) (b'.setLabel j) := by
  obtain ⟨i₀, bs⟩ := b
  obtain ⟨j₀, bs'⟩ := b'
  have hsame := h.same
  have hshape := h.shape
  simp only [Bank.untagged, Bank.shape, Rose.map_node, Rose.node.injEq] at hsame hshape
  refine ⟨⟨?_, ?_⟩, ?_⟩
  · simp [Bank.untagged, Rose.setLabel, hi.untagged, hsame.2]
  · have hlabel := hi.shape
    subst hshape
    simp [Bank.shape, Rose.setLabel, hlabel]
  · simpa [Rose.setLabel] using hi.thisTag

theorem TopTwins.onLabel {m : Exec Halt Obs BankInfo α} (hm : Keeps (BankInfo.Twin K.label) m) :
    Keeps (TopTwins K) (onLabel m) := fun _ _ h =>
  (hm _ _ (h.label h.thisTag)).zoom rfl rfl (fun _ _ _ ht => h.setLabel ht) fun _ _ ht => h.setLabel ht

theorem Twins.sub_cases (h : Twins K b b') (i : Nat) :
    (b.subs[i]? = none ∧ b'.subs[i]? = none) ∨
      ∃ c c', b.subs[i]? = some c ∧ b'.subs[i]? = some c' ∧ Twins (Bank.shape c) c c' := by
  have hsubs : b'.untagged.subs[i]? = b.untagged.subs[i]? := by rw [h.same]
  simp only [Bank.untagged, Rose.subs_map, List.getElem?_map] at hsubs
  cases hb : b.subs[i]? with
  | none =>
    rw [hb] at hsubs
    exact .inl ⟨rfl, by simpa using hsubs⟩
  | some c =>
    rw [hb] at hsubs
    obtain ⟨c', hc', heq⟩ := Option.map_eq_some_iff.mp hsubs
    exact .inr ⟨c, c', rfl, hc', heq, rfl⟩

theorem TopTwins.setSub {d d' : Bank} {i : Nat} (h : TopTwins K b b') (hc : b.subs[i]? = some c)
    (hd : Twins c.shape d d') : TopTwins K (b.setSub i d) (b'.setSub i d') := by
  have hK : K.setSub i c.shape = K := by
    obtain ⟨i₀, bs⟩ := b
    rw [← h.shape]
    obtain ⟨hlt, rfl⟩ := List.getElem?_eq_some_iff.mp hc
    simp [Bank.shape, Rose.setSub, ← List.map_set]
  refine ⟨⟨?_, ?_⟩, ?_⟩
  · have hsame := h.same
    have hsub := hd.same
    simp only [Bank.untagged, Rose.map_setSub] at hsame hsub ⊢
    rw [hsame, hsub]
  · rw [← hK, ← hd.shape, ← h.shape]
    simp only [Bank.shape, Rose.map_setSub]
  · simpa using h.thisTag

theorem findBank_map {f : BankInfo → BankInfo}
    (h : ∀ i : BankInfo, (f i).tags = i.tags ∧ (f i).num = i.num) (b : Bank) (tag : UInt16)
    (num : UInt8) : findBank (b.map f) tag num = findBank b tag num := by
  simp only [findBank, Rose.subs_map, List.findIdx?_map]
  congr 1
  funext c
  simp only [Function.comp_apply, Rose.label_map, h]

theorem Twins.findBank (h : Twins K b b') (tag : UInt16) (num : UInt8) :
    findBank b' tag num = findBank b tag num := by
  have hfind (d : Bank) : Bank.findBank d.untagged tag num = Bank.findBank d tag num :=
    findBank_map (f := BankInfo.untagged) (fun _ => ⟨rfl, rfl⟩) d tag num
  rw [← hfind, h.same, hfind]

theorem Twins.setTag (h : Twins K b b') (tag : UInt16) (num : UInt8) :
    TopTwins K (b.setLabel (b.label.setTag tag num)) (b'.setLabel (b'.label.setTag tag num)) :=
  h.setLabel (BankInfo.twin_setTag h.untagged_label (by simp [← h.shape, Bank.shape]) tag num)

def SameTarget (x : Option Target) (b b' : Bank) : Prop :=
  ∀ i, x = some (.sub i) → ∀ c c', b.subs[i]? = some c → b'.subs[i]? = some c' →
    c'.label.thisTag = c.label.thisTag

theorem alike_setTag {i : Nat} (tag : UInt16) (num : UInt8) (h : TopTwins K b b') :
    Alike (onSub i (modify fun c => c.setLabel (c.label.setTag tag num)))
      (fun _ d d' => TopTwins K d d' ∧ SameTarget (some (.sub i)) d d') (TopTwins K) b b' := by
  rcases h.sub_cases i with ⟨hc, hc'⟩ | ⟨c, c', hc, hc', hcc⟩
  · exact .zoom_none hc hc' h
  · have hlt := (List.getElem?_eq_some_iff.mp hc).1
    have hlt' := (List.getElem?_eq_some_iff.mp hc').1
    refine Alike.zoom (P := fun _ => TopTwins (Bank.shape c)) (F := fun _ _ => False) hc hc'
      ⟨rfl, hcc.setTag tag num⟩ ?_ nofun
    intro _ d d' hd
    refine ⟨h.setSub hc hd.toTwins, ?_⟩
    rintro _ ⟨⟩ e e' he he'
    simp only [Rose.subs_setSub, List.getElem?_set_self hlt, List.getElem?_set_self hlt',
      Option.some.injEq] at he he'
    subst he he'
    exact hd.thisTag

theorem alike_containerNodeHandler (ha : set.fAutoAdd = false) {tag : UInt16} {num : UInt8}
    {depth : Int} (h : TopTwins K b b') :
    Alike (containerNodeHandler set tag num depth)
      (fun x d d' => TopTwins K d d' ∧ SameTarget x d d') (TopTwins K) b b' := by
  unfold containerNodeHandler
  split
  · refine ⟨rfl, h.toTwins.setTag tag num, ?_⟩
    rintro i ⟨⟩
  · rw [ha]
    simp only [Alike, gets_bind_apply, h.findBank]
    cases hf : findBank b tag num with
    | none =>
      refine ⟨rfl, h, ?_⟩
      rintro i ⟨⟩
    | some i =>
      have hfound : Alike (onSub i (modify fun c => c.setLabel (c.label.setTag tag num)) >>=
          fun _ => pure (some (Target.sub i)))
          (fun x d d' => TopTwins K d d' ∧ SameTarget x d d') (TopTwins K) b b' :=
        (alike_setTag tag num h).bind fun _ _ _ hd => ⟨rfl, hd⟩
      exact hfound

theorem TopTwins.onTarget {x : Option Target} {m : Exec Halt Obs Bank α}
    (hm : ∀ K, Keeps (TopTwins K) m) (h : TopTwins K b b') (ht : SameTarget x b b') :
    Alike (onTarget x m) (fun _ => TopTwins K) (TopTwins K) b b' := by
  unfold EvioTool.onTarget
  split
  · rename_i i
    rcases h.sub_cases i with ⟨hc, hc'⟩ | ⟨c, c', hc, hc', hcc⟩
    · exact .zoom_none hc hc' h
    · exact (hm _ c c' ⟨hcc, ht i rfl c c' hc hc'⟩).zoom hc hc'
        (fun _ _ _ hd => h.setSub hc hd.toTwins) fun _ _ hd => h.setSub hc hd.toTwins
  · exact hm K b b' h

theorem keeps_readHeader {σ : Type} {R : σ → σ → Prop} {buf : Int} {bankType : Nat} :
    Keeps R (readHeader mem buf bankType) := by
  unfold readHeader
  split
  case h_1 | h_2 =>
    exact (keeps_readWord _ _).bind fun _ => (keeps_readWord _ _).bind fun _ => keeps_pure
  case h_7 => exact keeps_pure
  all_goals exact (keeps_readWord _ _).bind fun _ => keeps_pure

theorem keeps_parse (ha : set.fAutoAdd = false) (n : Nat) :
    (∀ K buf bankType depth, Keeps (TopTwins K) (parseBank set mem fill n buf bankType depth)) ∧
    (∀ K live data bankLen contentType depth p,
      Keeps (TopTwins K) (children set mem fill n live data bankLen contentType depth p)) := by
  induction n with
  | zero => exact ⟨fun _ _ _ _ => keeps_halt, fun _ _ _ _ _ _ _ => keeps_halt⟩
  | succ n ih =>
    obtain ⟨ihp, ihc⟩ := ih
    constructor
    · intro K buf bankType depth
      rw [parseBank]
      refine keeps_readHeader.bind fun x => ?_
      cases x with
      | none => exact keeps_tell.bind fun _ => keeps_pure
      | some h =>
        refine (keeps_int32 _).bind fun len => ?_
        cases leafCase h.contentType h.padding with
        | some r =>
          obtain ⟨T, k, s⟩ := r
          refine ((keeps_int32 _).bind fun _ => keeps_int32 _).bind fun m => ?_
          exact (TopTwins.onLabel ((BankInfo.fillRel_twin _).fillSwitch ha _ _ _ _)).bind fun _ =>
            keeps_tell.bind fun _ => keeps_pure
        | none =>
          dsimp only
          split
          · intro b b' hb
            refine (alike_containerNodeHandler ha hb).bind fun x d d' hd => ?_
            refine (hd.1.onTarget (fun _ => ihc _ _ _ _ _ _ _) hd.2).bind fun _ e e' he => ?_
            exact (keeps_tell.bind fun _ => keeps_pure) e e' he
          · exact keeps_tell.bind fun _ => keeps_pure
    · intro K live data bankLen contentType depth p
      rw [children]
      split
      · exact (ihp _ _ _ _).when.bind fun _ =>
          ((keeps_readWord _ _).bind fun _ => keeps_pure).bind fun w =>
          keeps_tell.bind fun _ => ihc _ _ _ _ _ _ _
      · exact keeps_pure

theorem TopTwins.checkTag (h : TopTwins K b b') (tag : UInt16) :
    b'.label.checkTag tag = b.label.checkTag tag := by
  have hlabel : b'.label.blank.checkTag tag = b.label.blank.checkTag tag := by
    rw [(h.label h.thisTag).same]
  exact hlabel

theorem keeps_parseEvioBuff (ha : set.fAutoAdd = false) (fuel : Nat) :
    Keeps (Twins K) (parseEvioBuff set mem fill fuel) := by
  refine (keeps_readWord _ _).bind fun w => fun b b' h => ?_
  have hrest : Keeps (TopTwins K) (do
      let contentType := ((w >>> 8) &&& 0x3F).toNat
      let pass ← gets fun b => b.label.checkTag (w >>> 16).toUInt16
      if set.fChopLevel > 0 ∧ contentType ≠ 0x10 ∧ contentType ≠ 0xE then pure (-3)
      else if set.fChopLevel > 0 ∧ !pass then pure 0
      else
        let _ ← parseBank set mem fill fuel 0 0x10 0
        pure 0) := by
    refine (keeps_gets fun _ _ h => h.checkTag _).bind fun pass => ?_
    split
    · exact keeps_pure
    · split
      · exact keeps_pure
      · exact ((keeps_parse ha fuel).1 K _ _ _).bind fun _ => keeps_pure
  refine Alike.bind (P := fun _ => TopTwins K) ⟨rfl, h.setTag _ _⟩ fun _ d d' hd => ?_
  exact (hrest d d' hd).mono (fun _ _ _ he => he.toTwins) fun _ _ he => he.toTwins

end Bank

end EvioTool
