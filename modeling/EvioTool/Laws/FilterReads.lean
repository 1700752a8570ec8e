import EvioTool.Laws.LeafReads

namespace EvioTool

open Lib Exec

variable {mem : Mem} {fill loc : Nat} {buf : Int} {i A : BankInfo} {b c : Bank} {k : Kind}
  {enclosing mark : UInt16} {depth : Int} {tag : UInt16} {num : UInt8} {contentType padding : Nat}
  {payload ws : List UInt32} {trees : List Tree} {T : ElemType}

theorem keys_of_shape (h : i.shape = A.shape) : i.leafs.map LeafPtr.key = A.leafs.map LeafPtr.key := by
  have hkeys (j : BankInfo) : j.shape.leafs.map LeafPtr.key = j.leafs.map LeafPtr.key := by
    simp only [BankInfo.shape, BankInfo.untagged, BankInfo.blank, List.map_map]
    rfl
  rw [← hkeys, h, hkeys]

theorem cls_of_shape (h : i.shape = A.shape) (hA : A.cls = .bank) : i.cls = .bank := by
  have hcls : i.cls.mapSVT SVTBank.clear = A.cls.mapSVT SVTBank.clear := congrArg BankInfo.cls h
  rw [hA] at hcls
  cases hi : i.cls <;> simp_all [BankClass.mapSVT]

theorem typeFor_eq (i : BankInfo) (tag : UInt16) (num : UInt8) : i.typeFor tag num =
    (i.findLeaf tag num).bind fun loc => ((i.leafs.map LeafPtr.key)[loc]?).map Prod.fst := by
  unfold BankInfo.typeFor
  cases i.findLeaf tag num with
  | none => rfl
  | some loc =>
    rw [Option.bind_eq_bind, Option.bind_some, Option.bind_some, List.getElem?_map]
    cases i.leafs[loc]? <;> rfl

theorem leaf_of_shape {l : Leaf T} (h : i.shape = A.shape) (hl : A.leafs[loc]? = some ⟨T, l⟩) :
    ∃ m : Leaf T, i.leafs[loc]? = some ⟨T, m⟩ ∧ m.cls.blank = l.cls.blank := by
  have hleafs : (i.leafs.map LeafPtr.blank).map LeafPtr.clear =
      (A.leafs.map LeafPtr.blank).map LeafPtr.clear := congrArg BankInfo.leafs h
  have hloc := congrArg (·[loc]?) hleafs
  simp only [List.getElem?_map, hl, Option.map_some, Option.map_map, Option.map_eq_some_iff] at hloc
  obtain ⟨⟨S, m⟩, hm, heq⟩ := hloc
  obtain ⟨rfl, hval⟩ := Sigma.mk.inj heq
  exact ⟨m, hm, congrArg Leaf.cls (eq_of_heq hval)⟩

theorem label_of_shape (h : Bank.shape b = Bank.shape c) : b.label.shape = c.label.shape := by
  have hlabel := congrArg Rose.label h
  rwa [Bank.shape, Bank.shape, Rose.label_map, Rose.label_map] at hlabel

theorem subs_setLabel : (b.setLabel i).subs = b.subs := by
  cases b
  rfl

theorem shape_setLabel (h : i.shape = b.label.shape) : Bank.shape (b.setLabel i) = Bank.shape b := by
  cases b
  rw [Rose.setLabel, Bank.shape, Bank.shape, Rose.map_node, Rose.map_node, h]
  rfl

theorem shape_setSub {n : Nat} {d : Bank} (hc : b.subs[n]? = some c) (h : Bank.shape d = Bank.shape c) :
    Bank.shape (b.setSub n d) = Bank.shape b := by
  cases b
  obtain ⟨hlt, rfl⟩ := List.getElem?_eq_some_iff.mp hc
  simp only [Bank.shape, Rose.setSub, Rose.map_node, Rose.node.injEq, true_and]
  have hsame : Rose.map BankInfo.shape d = Rose.map BankInfo.shape _ := h
  rw [List.map_set, hsame, ← List.map_set]
  exact congrArg _ (List.set_getElem_self hlt)

theorem suits_none (h : leafCase contentType padding = none) (words : Nat) :
    A.suits tag num contentType padding words = true := by
  rw [BankInfo.suits, h]

theorem suits_some {n d : Int} (h : leafCase contentType padding = some (T, n, d)) (words : Nat) :
    A.suits tag num contentType padding words = true ↔ (FitsInt (words * n) ∧ FitsInt (words * n - d)) ∧
      ∀ S, A.typeFor tag num = some S → S = T := by
  rw [BankInfo.suits, h]
  cases A.typeFor tag num <;> simp

theorem leafCase_string {n d : Int} {padding : Int} (h : leafCase contentType padding = some (.string, n, d)) :
    n = 4 ∧ d = padding := by
  rw [leafCase.eq_def] at h
  split at h <;> cases h
  exact ⟨rfl, rfl⟩

section Leaf

variable {o : Option β} {P : β → Bank → Prop} {x : β}

theorem tracks_node_leaf (hA : b.label.shape = A.shape)
    (hnone : leafCase contentType padding = none → o = some x ∧ P x b)
    (hsome : ∀ T n d, leafCase contentType padding = some (T, n, d) →
      ∃ o', o = (if A.suits tag num contentType padding payload.length = true then o' else none) ∧
        ((∀ S, A.typeFor tag num = some S → S = T) →
          Tracks (fillSwitch {} mem fill T (buf + k.dataOffset) (payload.length * n - d)
            (k.decoded tag.toNat contentType num.toNat padding payload.length)) o'
            (fun y _ j => P y (b.setLabel j)) b.label)) :
    Tracks (visit {} mem fill k enclosing mark buf depth (.leaf tag num contentType padding payload)) o
      (fun y _ c => P y c) b := by
  refine tracks_visit_leaf hnone fun T n d hcase => ?_
  obtain ⟨o', rfl, hfill⟩ := hsome T n d hcase
  by_cases htype : ∀ S, A.typeFor tag num = some S → S = T
  · refine ⟨o', if_congr ?_ rfl rfl, hfill htype⟩
    rw [suits_some hcase, and_iff_left htype]
  · refine ⟨none, ?_, ?_⟩
    · rw [if_neg fun hs => htype ((suits_some hcase _).mp hs).2, ite_self]
    · obtain ⟨S, hS, hne⟩ : ∃ S, A.typeFor tag num = some S ∧ S ≠ T := by simpa using htype
      rw [typeFor_eq, ← keys_of_shape hA, ← findLeaf_of_keys (keys_of_shape hA), ← typeFor_eq] at hS
      unfold BankInfo.typeFor at hS
      obtain ⟨loc, hloc, hS⟩ := Option.bind_eq_some_iff.mp hS
      obtain ⟨⟨S', l⟩, hl, hS⟩ := Option.bind_eq_some_iff.mp hS
      obtain rfl : S' = S := Option.some.inj hS
      exact not_returns_fillSwitch (by simpa [Kind.decoded] using hloc) hl hne

def Plain (A : BankInfo) (tag : UInt16) (num : UInt8) : Prop :=
  ∀ loc, A.findLeaf tag num = some loc → ∃ l : Leaf (.prim .uint32),
    A.leafs[loc]? = some ⟨_, l⟩ ∧ l.cls = .leaf

structure Beside (A : BankInfo) (tag : UInt16) (num : UInt8) (b c : Bank) : Prop where
  subs : c.subs = b.subs
  shape : Bank.shape c = Bank.shape b
  leafs : ∀ loc, A.findLeaf tag num ≠ some loc → c.label.leafs[loc]? = b.label.leafs[loc]?

theorem Beside.refl (b : Bank) : Beside A tag num b (b.setLabel b.label) := by
  refine ⟨subs_setLabel, shape_setLabel rfl, fun _ _ => ?_⟩
  rw [label_setLabel]

theorem tracks_plain (hA : b.label.shape = A.shape) (hcls : A.cls = .bank) (hplain : Plain A tag num)
    (hm : mem.Holds (buf + k.dataOffset) payload) :
    Tracks (visit {} mem fill k enclosing mark buf depth (.leaf tag num contentType padding payload))
      (if A.suits tag num contentType padding payload.length = true then some () else none)
      (fun _ _ c => Beside A tag num b c) b := by
  have hfind := congrFun (congrFun (findLeaf_of_keys (keys_of_shape hA)) tag) num
  refine tracks_node_leaf (x := ()) hA (fun hcase => ?_) fun T n d hcase => ⟨some (), rfl, fun htype => ?_⟩
  · rw [if_pos (suits_none hcase _)]
    exact ⟨rfl, rfl, rfl, fun _ _ => rfl⟩
  · set hd := k.decoded tag.toNat contentType num.toNat padding payload.length with hhd
    have hkey : b.label.findLeaf hd.tag hd.num = b.label.findLeaf tag num := by
      simp [hhd, Kind.decoded]
    rw [← hkey] at hfind
    cases hf : A.findLeaf tag num with
    | none =>
      rw [hf] at hfind
      exact (returns_fillSwitch_none rfl hfind).tracks (.refl b)
    | some loc =>
      obtain ⟨l, hl, hplain⟩ := hplain loc hf
      obtain ⟨m, hm', hmcls⟩ := leaf_of_shape hA hl
      rw [hplain] at hmcls
      have hmplain : m.cls = .leaf := by
        cases hc : m.cls with
        | leaf => rfl
        | vtpBank v =>
          rw [hc] at hmcls
          cases hmcls
      obtain rfl := htype _ (BankInfo.typeFor_of_leaf hf hl)
      obtain ⟨rfl, rfl⟩ := leafCase_uint32 hcase
      rw [hf] at hfind
      have hwords : Tracks (fillSwitch {} mem fill _ (buf + k.dataOffset) payload.length hd) _ _ _ :=
        tracks_fillWords (cls_of_shape hA hcls) hfind hm' hm
      rw [LeafPtr.callBack_plain (l := m.pushDataArray _) hmplain] at hwords
      rw [mul_one, sub_zero]
      obtain ⟨r, j, hr, rfl⟩ := hwords.of_some
      refine hr.tracks ⟨subs_setLabel, shape_setLabel (BankInfo.shape_setLeaf hm' rfl), fun loc' hne => ?_⟩
      rw [label_setLabel, BankInfo.leafs_setLeaf, List.getElem?_set_ne]
      rintro rfl
      exact hne hf

end Leaf

theorem tracks_visitAll {β : Type} (rel : β → Bank → Prop) (run : β → List Tree → Option β)
    (step : β → Tree → List Tree → Option β) (At : Int → List Tree → Prop)
    (hnil : ∀ x, run x [] = some x)
    (hcons : ∀ x t ts, run x (t :: ts) = step x t ts >>= fun y => run y ts)
    (hat : ∀ buf t ts, At buf (t :: ts) → At (buf + (t.encode k).length) ts)
    (hstep : ∀ x b mark buf t ts, rel x b → At buf (t :: ts) →
      Tracks (visit {} mem fill k enclosing mark buf depth t) (step x t ts) (fun y _ c => rel y c) b)
    {x : β} (h : rel x b) (hm : At buf trees) :
    Tracks (visitAll {} mem fill k enclosing mark buf depth trees) (run x trees)
      (fun y _ c => rel y c) b := by
  induction trees generalizing x b mark buf with
  | nil =>
    rw [hnil]
    exact tracks_pure h
  | cons t ts ih =>
    rw [hcons]
    exact (hstep x b mark buf t ts h hm).bind fun y _ c _ hy => ih hy (hat buf t ts hm)

theorem tracks_missing {cont : Container} {β : Type} {x : β} {P : β → Bank → Prop}
    (hprune : ¬Settings.Prunes {} depth) (hf : Bank.findBank b tag num = none) (h : P x b) :
    Tracks (visit {} mem fill k enclosing mark buf depth (.container tag num cont trees)) (some x)
      (fun y _ c => P y c) b := by
  have hprune' : ¬(depth < Settings.fChopLevel {} ∨ depth > Settings.fMaxLevel {}) := hprune
  have hnone : resolve {} tag num depth b = none := by
    simp only [resolve, if_neg hprune', hf]
    rfl
  have hhandler : Returns (containerNodeHandler {} tag num depth) b _ _ := returns_containerNodeHandler
  rw [hnone] at hhandler
  rw [visit]
  exact Tracks.after (returns_mapLog.mpr hhandler) (tracks_pure h)

theorem tracks_found {cont : Container} {β γ : Type} {n : Nat} {o : Option β} {P : β → Bank → Prop}
    {Q : γ → Bank → Prop} {l : β → γ} (hprune : ¬Settings.Prunes {} depth)
    (hf : Bank.findBank b tag num = some n) (hc : b.subs[n]? = some c)
    (h : Tracks (visitAll {} mem fill cont.kind tag tag (buf + k.dataOffset) (depth + 1) trees) o
      (fun y _ d => P y d) (Bank.mark tag num c))
    (hQ : ∀ y d, P y d → Q (l y) (b.setSub n d)) :
    Tracks (visit {} mem fill k enclosing mark buf depth (.container tag num cont trees)) (o.map l)
      (fun y _ d => Q y d) b := by
  obtain ⟨hres, hnode⟩ := resolve_sub hprune hf hc
  have hhandler : Returns (containerNodeHandler {} tag num depth) b _ _ := returns_containerNodeHandler
  rw [hres] at hhandler
  rw [visit]
  refine Tracks.after (returns_mapLog.mpr hhandler) ?_
  refine Tracks.zoom hnode (h.relabel (Q := fun y _ d => Q y (b.setSub n d)) fun y _ d hy => hQ y d hy)
    fun y _ d hy => ?_
  cases b
  simpa [Rose.setSub] using hy

structure CrateAt (A : Bank) (ws : List UInt32) (c : Bank) : Prop where
  shape : Bank.shape c = Bank.shape A
  words : ∃ l : Leaf (.prim .uint32), c.label.leafs[0]? = some ⟨_, l⟩ ∧ LeafPtr.words ⟨_, l⟩ = ws

theorem CrateAt.marked (h : CrateAt b ws c) : CrateAt b ws (Bank.mark tag num c) := by
  refine ⟨shape_mark.trans h.shape, ?_⟩
  obtain ⟨l, hl, hws⟩ := h.words
  exact ⟨l, by cases c; exact hl, hws⟩

theorem isOk_parseBank (ws : List UInt32) (v : VTPBank) :
    (∃ u, VTPBank.parseBank ws v = .ok u) ↔ vtpParses ws = true := by
  have hblank := VTPBank.parseBank_blank ws v
  have hzero := VTPBank.parseBank_blank ws
    { blockHeader := 0, blockTail := 0, eventHeader := 0, trigTime := 0 }
  unfold vtpParses
  cases hv : VTPBank.parseBank ws v <;> cases hz : VTPBank.parseBank ws
    { blockHeader := 0, blockTail := 0, eventHeader := 0, trigTime := 0 } <;>
    cases hd : VTPHits.decode ws <;> rw [hv, hd] at hblank <;> rw [hz, hd] at hzero <;>
    simp_all [Except.map]

theorem callBack_vtp {l : Leaf (.prim .uint32)} {v : VTPBank} (hcls : l.cls = .vtpBank v)
    (hauto : v.autoParse = true) :
    (LeafPtr.callBack ⟨_, l⟩).toOption = none ∧ vtpParses (LeafPtr.words ⟨_, l⟩) = false ∨
      (∃ u, LeafPtr.callBack ⟨_, l⟩ = .ok ⟨_, { l with cls := .vtpBank u }⟩) ∧
        vtpParses (LeafPtr.words ⟨_, l⟩) = true := by
  have hok := isOk_parseBank (LeafPtr.words ⟨_, l⟩) v
  have hcall : LeafPtr.callBack ⟨_, l⟩ = (VTPBank.parseBank (LeafPtr.words ⟨_, l⟩) v).map
      fun u => ⟨_, { l with cls := .vtpBank u }⟩ := by
    rw [LeafPtr.callBack, Leaf.callBack, hcls, LeafClass.callBack, if_pos hauto]
    change Except.map _ (Except.map _ (Except.map _ (VTPBank.parseBank (LeafPtr.words ⟨_, l⟩) v))) = _
    cases VTPBank.parseBank (LeafPtr.words ⟨_, l⟩) v <;> rfl
  rw [hcall]
  cases hp : VTPBank.parseBank (LeafPtr.words ⟨_, l⟩) v with
  | error e =>
    refine .inl ⟨rfl, ?_⟩
    rw [hp] at hok
    simpa using hok
  | ok u => exact .inr ⟨⟨u, rfl⟩, hok.mp ⟨u, hp⟩⟩

section VTP

variable {title : String} {t : UInt16}

theorem findLeaf_vtpCrate (tag : UInt16) (num : UInt8) :
    (vtpCrate t title).label.findLeaf tag num = if tag = 0xe122 then some 0 else none := by
  have htag : ((0xe122 : Int) == (tag.toNat : Int)) = decide (tag = 0xe122) := by
    rw [Bool.eq_iff_iff, beq_iff_eq, decide_eq_true_iff, ← UInt16.toNat_inj, eq_comm]
    exact Nat.cast_inj (R := Int) (n := 0xe122)
  simp [BankInfo.findLeaf, vtpCrate, vtpLeaf, uintLeaf, LeafPtr.tag, LeafPtr.num, List.findIdx?_cons,
    htag]

theorem CrateAt.cls {l : Leaf (.prim .uint32)} (h : CrateAt (vtpCrate t title) ws b)
    (hl : b.label.leafs[0]? = some ⟨_, l⟩) : ∃ v, l.cls = .vtpBank v ∧ v.autoParse = true := by
  have hown : (vtpCrate t title).label.leafs[0]? = some ⟨.prim .uint32, vtpLeaf.2⟩ := rfl
  obtain ⟨m, hm, hblank⟩ := leaf_of_shape (label_of_shape h.shape) hown
  rw [hl] at hm
  cases hm
  cases hc : l.cls with
  | leaf =>
    rw [hc] at hblank
    cases hblank
  | vtpBank v =>
    rw [hc] at hblank
    have hauto : v.blank.autoParse = true := by
      rw [LeafClass.vtpBank.inj hblank]
      rfl
    exact ⟨v, rfl, hauto⟩

theorem tracks_vtp_own (h : CrateAt (vtpCrate t title) ws b) {hd : Header} (htag : hd.tag = 0xe122)
    (hm : mem.Holds buf payload) :
    Tracks (fillSwitch {} mem fill (.prim .uint32) buf payload.length hd)
      (if vtpParses (ws ++ payload) = true then some (ws ++ payload) else none)
      (fun ws _ j => CrateAt (vtpCrate t title) ws (b.setLabel j)) b.label := by
  obtain ⟨l, hl, rfl⟩ := h.words
  obtain ⟨v, hv, hauto⟩ := h.cls hl
  have hshape := label_of_shape h.shape
  have hfind := congrFun (congrFun (findLeaf_of_keys (keys_of_shape hshape)) hd.tag) hd.num
  rw [findLeaf_vtpCrate, if_pos htag] at hfind
  have hfill : Tracks (fillSwitch {} mem fill _ buf payload.length hd) _ _ _ :=
    tracks_fillWords (cls_of_shape hshape rfl) hfind hl hm
  rw [← LeafPtr.words_push l payload]
  obtain ⟨hcall, hparses⟩ | ⟨⟨u, hcall⟩, hparses⟩ :=
    callBack_vtp (l := l.pushDataArray (payload.map UInt32.toBitVec)) hv hauto
  · rw [hparses, if_neg Bool.false_ne_true]
    rw [hcall] at hfill
    exact hfill
  · rw [hparses, if_pos rfl]
    have hblank := LeafPtr.callBack_ok hcall
    rw [hcall] at hfill
    obtain ⟨r, j, hr, rfl⟩ := hfill.of_some
    refine hr.tracks ⟨?_, { l.pushDataArray (payload.map UInt32.toBitVec) with cls := .vtpBank u }, ?_, rfl⟩
    · rw [shape_setLabel (BankInfo.shape_setLeaf hl (by rw [hblank]; rfl)), h.shape]
    · rw [label_setLabel, BankInfo.leafs_setLeaf,
        List.getElem?_set_self (List.getElem?_eq_some_iff.mp hl).1]

theorem tracks_vtp_leaf (h : CrateAt (vtpCrate t title) ws b)
    (hm : mem.Holds (buf + k.dataOffset) payload) :
    Tracks (visit {} mem fill k enclosing mark buf depth (.leaf tag num contentType padding payload))
      (vtpAdd (vtpCrate t title).label ws (.leaf tag num contentType padding payload))
      (fun ws _ c => CrateAt (vtpCrate t title) ws c) b := by
  by_cases htag : tag = 0xe122
  · refine tracks_node_leaf (x := ws) (label_of_shape h.shape) (fun hcase => ?_) fun T n d hcase => ?_
    · simp [vtpAdd, suits_none hcase, hcase, h]
    · refine ⟨if vtpParses (ws ++ payload) = true then some (ws ++ payload) else none, ?_, fun htype => ?_⟩
      · simp [vtpAdd, hcase, htag]
      have htype' : (vtpCrate t title).label.typeFor tag num = some (.prim .uint32) :=
        BankInfo.typeFor_of_leaf ((findLeaf_vtpCrate _ _).trans (if_pos htag)) rfl
      obtain rfl := htype _ htype'
      obtain ⟨rfl, rfl⟩ := leafCase_uint32 hcase
      rw [mul_one, sub_zero]
      exact tracks_vtp_own h (by simp [Kind.decoded, htag]) hm
  · have hnone : (vtpCrate t title).label.findLeaf tag num = none := by
      rw [findLeaf_vtpCrate, if_neg htag]
    have hplain : Plain (vtpCrate t title).label tag num := fun loc hloc => by
      rw [hnone] at hloc
      cases hloc
    have hrest : Tracks (visit {} mem fill k enclosing mark buf depth
        (.leaf tag num contentType padding payload)) _ _ b :=
      tracks_plain (label_of_shape h.shape) rfl hplain hm
    have hadd : vtpAdd (vtpCrate t title).label ws (.leaf tag num contentType padding payload) =
        (if (vtpCrate t title).label.suits tag num contentType padding payload.length = true
          then some () else none).map fun _ => ws := by
      simp [vtpAdd, htag, apply_ite (Option.map _)]
    rw [hadd]
    refine hrest.relabel fun _ _ c hc => ⟨hc.shape.trans h.shape, ?_⟩
    obtain ⟨l, hl, hws⟩ := h.words
    exact ⟨l, (hc.leafs 0 (by simp [hnone])).trans hl, hws⟩

theorem findBank_alone {i : BankInfo} (h : Bank.shape b = Bank.shape (.node i [])) :
    Bank.findBank b tag num = none := by
  rw [← findBank_shape, h, findBank_shape]
  rfl

theorem tracks_vtp (h : CrateAt (vtpCrate t title) ws b) (hprune : ¬Settings.Prunes {} depth)
    (hm : mem.Holds buf (Tree.encodeAll k trees)) :
    Tracks (visitAll {} mem fill k enclosing mark buf depth trees)
      (vtpWords (vtpCrate t title).label ws trees) (fun ws _ c => CrateAt (vtpCrate t title) ws c) b := by
  refine tracks_visitAll (CrateAt (vtpCrate _ title)) _ (fun ws tree _ => vtpAdd (vtpCrate _ title).label ws tree)
    (fun buf ts => mem.Holds buf (Tree.encodeAll k ts)) (fun _ => rfl) (fun _ _ _ => List.foldlM_cons)
    (fun _ _ _ hm => hm.append.2) (fun ws c mark buf tree trees h hm => ?_) h hm
  have hm := hm.append.1
  cases tree with
  | leaf tag num contentType padding payload =>
    have hpayload := hm.append.2
    rw [Kind.length_header] at hpayload
    exact tracks_vtp_leaf h hpayload
  | container tag num cont trees => exact tracks_missing hprune (findBank_alone h.shape) h

end VTP

theorem plain_trigCrate (tag : UInt16) (num : UInt8) : Plain trigCrate.label tag num := by
  intro loc hloc
  have hlt : loc < 2 := BankInfo.findLeaf_lt hloc
  obtain rfl | rfl : loc = 0 ∨ loc = 1 := by omega
  · exact ⟨_, rfl, rfl⟩
  · exact ⟨_, rfl, rfl⟩

theorem tracks_trig (h : Bank.shape b = Bank.shape trigCrate) (hprune : ¬Settings.Prunes {} depth)
    (hm : mem.Holds buf (Tree.encodeAll k trees)) :
    Tracks (visitAll {} mem fill k enclosing mark buf depth trees)
      (if trees.all trigSuits = true then some () else none)
      (fun _ _ c => Bank.shape c = Bank.shape trigCrate) b := by
  refine tracks_visitAll (x := ()) (fun _ c => Bank.shape c = Bank.shape trigCrate)
    (fun _ ts => if ts.all trigSuits = true then some () else none)
    (fun _ tree _ => if trigSuits tree = true then some () else none)
    (fun buf ts => mem.Holds buf (Tree.encodeAll k ts)) (fun _ => rfl) (fun _ t ts => ?_)
    (fun _ _ _ hm => hm.append.2) (fun _ c mark buf tree trees h hm => ?_) h hm
  · cases ht : trigSuits t <;> simp [ht]
  · have hm := hm.append.1
    cases tree with
    | leaf tag num contentType padding payload =>
      have hpayload := hm.append.2
      rw [Kind.length_header] at hpayload
      exact (tracks_plain (label_of_shape h) rfl (plain_trigCrate tag num) hpayload).mono
        fun _ _ _ hc => hc.shape.trans h
    | container tag num cont trees => exact tracks_missing hprune (findBank_alone h) h

theorem findBank_filterTop (tag : UInt16) (num : UInt8) : Bank.findBank filterTop tag num =
    if tag = 46 then some 0 else if tag = 11 then some 1 else if tag = 12 then some 2 else none := by
  simp only [Bank.findBank, filterTop, trigCrate, vtpCrate, Rose.subs_node, List.findIdx?_cons]
  split_ifs <;> simp_all

theorem findLeaf_filterTop (tag : UInt16) (num : UInt8) : filterTop.label.findLeaf tag num =
    if tag = 0xE10E then some 0 else if tag = 49152 then some 1 else none := by
  simp only [BankInfo.findLeaf, filterTop, uintLeaf, LeafPtr.tag, LeafPtr.num, Rose.label_node,
    List.findIdx?_cons, ← UInt16.toNat_inj]
  split_ifs <;> simp_all <;> omega

structure Held.In (h : Held) (b : Bank) : Prop where
  shape : Bank.shape b = Bank.shape filterTop
  lines : ∃ l : Leaf .string, b.label.leafs[0]? = some ⟨_, l⟩ ∧ l.data = h.lines
  top : ∃ c, b.subs[1]? = some c ∧ CrateAt (vtpCrate 11 "Trigger Bank top") h.top c
  bottom : ∃ c, b.subs[2]? = some c ∧ CrateAt (vtpCrate 12 "Trigger Bank bottom") h.bottom c

section Top

variable {h : Held} {behind : List UInt32}

theorem tracks_held_lines (hb : h.In b) (hm : mem.EndsWith (4 * (buf + k.dataOffset))
      (Mem.wordBytes (payload ++ behind)))
    (hfill : (Mem.wordBytes (payload ++ behind)).length < fill) :
    Tracks (visit {} mem fill k enclosing mark buf depth (.leaf 0xE10E num contentType padding payload))
      (h.add behind (.leaf 0xE10E num contentType padding payload)) (fun h _ c => h.In c) b := by
  refine tracks_node_leaf (x := h) (label_of_shape hb.shape) (fun hcase => ?_) fun T n d hcase => ?_
  · simp [Held.add, suits_none hcase, hcase, hb]
  · let bs := Mem.wordBytes (payload ++ behind)
    refine ⟨(stringsIn (bs.length + 1) (payload.length * 4 - padding) bs).map fun ss =>
      { h with lines := h.lines ++ ss }, ?_, fun htype => ?_⟩
    · simp [Held.add, hcase, bs]
    have hlead : filterTop.label.findLeaf 0xE10E num = some 0 := findLeaf_filterTop _ _
    obtain rfl := htype _ (BankInfo.typeFor_of_leaf hlead rfl)
    obtain ⟨rfl, rfl⟩ := leafCase_string hcase
    obtain ⟨l, hl, hlines⟩ := hb.lines
    have hshape := label_of_shape hb.shape
    have hfind := congrFun (congrFun (findLeaf_of_keys (keys_of_shape hshape)) 0xE10E) num
    rw [hlead] at hfind
    have hstrings : Tracks (fillSwitch {} mem fill .string (buf + k.dataOffset)
        (payload.length * 4 - padding) (k.decoded (0xE10E : UInt16).toNat contentType num.toNat padding payload.length)) _ _ b.label :=
      tracks_fillStrings (by simpa [Kind.decoded] using hfind) hl hm hfill
    refine hstrings.relabel fun ss r j hj => ?_
    subst hj
    have hset : (b.label.setLeaf 0 ⟨_, l.pushDataArray ss⟩).shape = b.label.shape :=
      BankInfo.shape_setLeaf hl rfl
    refine ⟨(shape_setLabel hset).trans hb.shape, ?_, ?_, ?_⟩
    · refine ⟨l.pushDataArray ss, ?_, congrArg (· ++ ss) hlines⟩
      rw [label_setLabel, BankInfo.leafs_setLeaf,
        List.getElem?_set_self (List.getElem?_eq_some_iff.mp hl).1]
    · rw [subs_setLabel]
      exact hb.top
    · rw [subs_setLabel]
      exact hb.bottom

theorem tracks_held_leaf (hb : h.In b) (hm : mem.Holds (buf + k.dataOffset) (payload ++ behind))
    (hend : mem (buf + k.dataOffset + (payload ++ behind).length) = none)
    (hfill : 4 * (payload ++ behind).length < fill) :
    Tracks (visit {} mem fill k enclosing mark buf depth (.leaf tag num contentType padding payload))
      (h.add behind (.leaf tag num contentType padding payload)) (fun h _ c => h.In c) b := by
  by_cases htag : tag = 0xE10E
  · subst htag
    refine tracks_held_lines hb (.of_words hm hend) ?_
    rwa [Mem.length_wordBytes]
  · have hlead := findLeaf_filterTop tag num
    rw [if_neg htag] at hlead
    have hplain : Plain filterTop.label tag num := fun loc hloc => by
      rw [hlead] at hloc
      split at hloc
      · cases hloc
        exact ⟨_, rfl, rfl⟩
      · cases hloc
    have hrest : Tracks (visit {} mem fill k enclosing mark buf depth
        (.leaf tag num contentType padding payload)) _ _ b :=
      tracks_plain (label_of_shape hb.shape) rfl hplain hm.append.1
    have hadd : h.add behind (.leaf tag num contentType padding payload) =
        (if filterTop.label.suits tag num contentType padding payload.length = true
          then some () else none).map fun _ => h := by
      simp [Held.add, htag, apply_ite (Option.map _)]
    rw [hadd]
    refine hrest.relabel fun _ _ c hc => ⟨hc.shape.trans hb.shape, ?_, ?_, ?_⟩
    · obtain ⟨l, hl, hlines⟩ := hb.lines
      refine ⟨l, (hc.leafs 0 ?_).trans hl, hlines⟩
      rw [hlead]
      split <;> simp
    · rw [hc.subs]
      exact hb.top
    · rw [hc.subs]
      exact hb.bottom

theorem tracks_held_container {cont : Container} (hb : h.In b) (hprune : ¬Settings.Prunes {} depth)
    (hprune' : ¬Settings.Prunes {} (depth + 1))
    (hm : mem.Holds (buf + k.dataOffset) (Tree.encodeAll cont.kind trees)) :
    Tracks (visit {} mem fill k enclosing mark buf depth (.container tag num cont trees))
      (h.add behind (.container tag num cont trees)) (fun h _ c => h.In c) b := by
  have hfind : Bank.findBank b tag num = Bank.findBank filterTop tag num := by
    rw [← findBank_shape, hb.shape, findBank_shape]
  rw [findBank_filterTop] at hfind
  have hshape {n : Nat} {c d : Bank} (hc : b.subs[n]? = some c) (h : Bank.shape d = Bank.shape c) :
      Bank.shape (b.setSub n d) = Bank.shape filterTop := (shape_setSub hc h).trans hb.shape
  obtain ⟨c₀, hc₀, hs₀⟩ := shape_sub hb.shape (i := 0) rfl
  obtain ⟨c₁, hc₁, htop⟩ := hb.top
  obtain ⟨c₂, hc₂, hbottom⟩ := hb.bottom
  have hlines (n : Nat) (d : Bank) : ∃ l : Leaf .string,
      (b.setSub n d).label.leafs[0]? = some ⟨_, l⟩ ∧ l.data = h.lines := by
    rw [Rose.label_setSub]
    exact hb.lines
  by_cases h46 : tag = 46
  · rw [if_pos h46] at hfind
    have hadd : h.add behind (.container tag num cont trees) =
        (if trees.all trigSuits = true then some () else none).map fun _ => h := by
      simp only [Held.add, if_pos h46, apply_ite (Option.map _), Option.map_some, Option.map_none]
    rw [hadd]
    refine tracks_found hprune hfind hc₀ (tracks_trig (shape_mark.trans hs₀) hprune' hm)
      fun _ d hd => ⟨hshape hc₀ (hd.trans hs₀.symm), hlines 0 d, ⟨c₁, ?_, htop⟩, ⟨c₂, ?_, hbottom⟩⟩
    · simpa using hc₁
    · simpa using hc₂
  rw [if_neg h46] at hfind
  by_cases h11 : tag = 11
  · rw [if_pos h11] at hfind
    rw [Held.add, if_neg h46, if_pos h11]
    refine tracks_found hprune hfind hc₁ (tracks_vtp htop.marked hprune' hm) fun ws d hd =>
      ⟨hshape hc₁ (hd.shape.trans htop.shape.symm), hlines 1 d, ⟨d, ?_, hd⟩, ⟨c₂, ?_, hbottom⟩⟩
    · rw [Rose.subs_setSub, List.getElem?_set_self (List.getElem?_eq_some_iff.mp hc₁).1]
    · simpa using hc₂
  rw [if_neg h11] at hfind
  by_cases h12 : tag = 12
  · rw [if_pos h12] at hfind
    rw [Held.add, if_neg h46, if_neg h11, if_pos h12]
    refine tracks_found hprune hfind hc₂ (tracks_vtp hbottom.marked hprune' hm) fun ws d hd =>
      ⟨hshape hc₂ (hd.shape.trans hbottom.shape.symm), hlines 2 d, ⟨c₁, ?_, htop⟩, ⟨d, ?_, hd⟩⟩
    · simpa using hc₁
    · rw [Rose.subs_setSub, List.getElem?_set_self (List.getElem?_eq_some_iff.mp hc₂).1]
  rw [if_neg h12] at hfind
  rw [Held.add, if_neg h46, if_neg h11, if_neg h12]
  exact tracks_missing hprune hfind hb

structure EndsBehind (mem : Mem) (fill : Nat) (a : Int) (ws : List UInt32) : Prop where
  holds : mem.Holds a ws
  ends : mem (a + ws.length) = none
  fill : 4 * ws.length < fill

theorem EndsBehind.append {a : Int} {xs ys : List UInt32} (h : EndsBehind mem fill a (xs ++ ys)) :
    EndsBehind mem fill (a + xs.length) ys := by
  refine ⟨h.holds.append.2, ?_, ?_⟩
  · have hends := h.ends
    rwa [List.length_append, Nat.cast_add, ← add_assoc] at hends
  · have hfill := h.fill
    rw [List.length_append] at hfill
    omega

theorem tracks_held (hb : h.In b) (hprune : ¬Settings.Prunes {} depth)
    (hprune' : ¬Settings.Prunes {} (depth + 1))
    (hm : EndsBehind mem fill buf (Tree.encodeAll .bank trees ++ behind)) :
    Tracks (visitAll {} mem fill .bank enclosing mark buf depth trees) (h.read behind trees)
      (fun h _ c => h.In c) b := by
  refine tracks_visitAll Held.In (Held.read behind)
    (fun h tree trees => h.add (Tree.encodeAll .bank trees ++ behind) tree)
    (fun buf ts => EndsBehind mem fill buf (Tree.encodeAll .bank ts ++ behind)) (fun _ => rfl)
    (fun _ _ _ => rfl) (fun buf t ts hm => ?_) (fun h c mark buf tree trees hb hm => ?_) hb hm
  · rw [Tree.encodeAll, List.append_assoc] at hm
    exact hm.append
  · rw [Tree.encodeAll, List.append_assoc] at hm
    cases tree with
    | leaf tag num contentType padding payload =>
      rw [Tree.encode, List.append_assoc] at hm
      have hm := hm.append
      rw [Kind.length_header] at hm
      exact tracks_held_leaf hb hm.holds hm.ends hm.fill
    | container tag num cont ts =>
      rw [Tree.encode, List.append_assoc] at hm
      have hm := hm.append
      rw [Kind.length_header] at hm
      exact tracks_held_container hb hprune hprune' hm.holds.append.1

theorem checkTag_of_shape (h : i.shape = A.shape) : i.checkTag = A.checkTag := by
  have hshape (j : BankInfo) : j.shape.checkTag = j.checkTag := rfl
  rw [← hshape, h, hshape]

theorem Held.In.marked (hb : h.In b) : h.In (Bank.mark tag num b) :=
  ⟨shape_mark.trans hb.shape, by cases b; exact hb.lines, by cases b; exact hb.top,
    by cases b; exact hb.bottom⟩

theorem tracks_visitEvent {e : FileEvent} (hb : Held.In {} b)
    (hm : EndsBehind mem fill 0 (e.words ++ behind)) :
    Tracks (visitEvent {} mem fill e.tag e.num e.container e.trees) (e.held behind)
      (fun h _ c => h.In c) b := by
  have hprune : Settings.Prunes {} 0 := by decide
  have hmarked (c : Bank) (hc : Held.In {} c) :
      Held.In {} (c.setLabel (c.label.setTag e.tag e.num)) := hc.marked
  have hpass : (b.setLabel (b.label.setTag e.tag e.num)).label.checkTag e.tag = e.passes :=
    congrFun (checkTag_of_shape (label_of_shape (hmarked b hb).shape)) e.tag
  -- the node gets its tags a second time when the container is resolved
  have hbanks (trees : List Tree) {o : Option Held} (hall : ∀ c, Held.In {} c →
      Tracks (visitAll {} mem fill .bank e.tag e.tag (0 + Kind.bank.dataOffset) (0 + 1) trees) o
        (fun h _ c => h.In c) c) :
      Tracks (visit {} mem fill .bank e.tag e.tag 0 0 (.container e.tag e.num e.container trees)) o
        (fun h _ c => h.In c) (b.setLabel (b.label.setTag e.tag e.num)) := by
    have hhandler : Returns (containerNodeHandler {} e.tag e.num 0)
      (b.setLabel (b.label.setTag e.tag e.num)) _ _ := returns_containerNodeHandler
    rw [resolve_pruned hprune] at hhandler
    rw [visit, e.banks]
    exact Tracks.after (returns_mapLog.mpr hhandler) (hall _ (hmarked b hb).marked)
  unfold visitEvent FileEvent.held
  refine Tracks.modify_bind (Tracks.gets_bind ?_)
  rw [hpass]
  simp only [e.banks, ne_eq, not_true_eq_false, and_false, if_false]
  cases e.passes with
  | false => exact tracks_pure (hmarked b hb)
  | true =>
    simp only [Bool.not_true, Bool.false_eq_true, and_false, if_false, reduceCtorEq]
    by_cases hlen : (Tree.encodeAll .bank e.trees).length + 2 < 2 ^ 31
    · rw [if_pos hlen, if_pos hlen]
      refine hbanks e.trees fun c hc => tracks_held hc (by decide) (by decide) ?_
      rw [FileEvent.words, Tree.encode, e.banks, List.append_assoc] at hm
      have hm := hm.append
      rwa [Kind.length_header] at hm
    · rw [if_neg hlen, if_neg hlen]
      simp only [Kind.decoded, Kind.dataOffset]
      generalize toInt32 (((Tree.encodeAll .bank e.trees).length : Int) + 2) - 2 = n
      have hrest : (if FitsInt n then some ({} : Held) else none) =
          (if FitsInt n then some n else none) >>= fun _ => some {} := by split <;> rfl
      rw [hrest]
      refine (Tracks.mapLog (tracks_int32 n)).bind fun _ _ c _ hc => ?_
      rw [hc.2]
      exact hbanks [] fun c hc => tracks_pure hc

theorem leaf_of_cleared {l : Leaf T} (h : Bank.shape b = Bank.shape c) (hcls : c.label.cls = .bank)
    (hl : c.label.leafs[loc]? = some ⟨T, l⟩) :
    ∃ m : Leaf T, (Bank.clear b).label.leafs[loc]? = some ⟨T, m⟩ ∧ m.data = [] := by
  obtain ⟨m, hm, -⟩ := leaf_of_shape (label_of_shape h) hl
  refine ⟨m.clear, ?_, rfl⟩
  have hbank := cls_of_shape (label_of_shape h) hcls
  cases b with
  | node i bs =>
    rw [Rose.label_node] at hbank hm
    rw [Bank.clear_bank hbank, Rose.label_node, List.getElem?_map, hm]
    rfl

theorem sub_of_cleared {n : Nat} {d : Bank} (h : Bank.shape b = Bank.shape c) (hcls : c.label.cls = .bank)
    (hd : c.subs[n]? = some d) :
    ∃ d', (Bank.clear b).subs[n]? = some (Bank.clear d') ∧ Bank.shape d' = Bank.shape d := by
  obtain ⟨d', hd', hshape⟩ := shape_sub h hd
  refine ⟨d', ?_, hshape⟩
  have hbank := cls_of_shape (label_of_shape h) hcls
  cases b with
  | node i bs =>
    rw [Rose.label_node] at hbank
    rw [Rose.subs_node] at hd'
    rw [Bank.clear_bank hbank, Rose.subs_node, List.getElem?_map, hd']
    rfl

theorem CrateAt.cleared {title : String} {t : UInt16} (h : Bank.shape b = Bank.shape (vtpCrate t title)) :
    CrateAt (vtpCrate t title) [] (Bank.clear b) := by
  have hown : (vtpCrate t title).label.leafs[0]? = some ⟨.prim .uint32, vtpLeaf.2⟩ := rfl
  obtain ⟨m, hm, hdata⟩ := leaf_of_cleared h rfl hown
  refine ⟨Bank.shape_clear.trans h, m, hm, ?_⟩
  rw [LeafPtr.words, hdata]
  rfl

theorem Held.In.cleared (h : Bank.shape b = Bank.shape filterTop) : Held.In {} (Bank.clear b) := by
  obtain ⟨l, hl, hdata⟩ : ∃ l : Leaf .string,
      (Bank.clear b).label.leafs[0]? = some ⟨_, l⟩ ∧ l.data = [] := leaf_of_cleared h rfl rfl
  obtain ⟨c₁, hc₁, hs₁⟩ := sub_of_cleared (n := 1) h rfl rfl
  obtain ⟨c₂, hc₂, hs₂⟩ := sub_of_cleared (n := 2) h rfl rfl
  exact ⟨Bank.shape_clear.trans h, ⟨l, hl, hdata⟩, ⟨_, hc₁, .cleared hs₁⟩, ⟨_, hc₂, .cleared hs₂⟩⟩

theorem tracks_parseEvioBuff (e : FileEvent) (behind : List UInt32) {fill : Nat}
    (hfill : 4 * (e.words ++ behind).length < fill) :
    ∃ F, ∀ fuel, F ≤ fuel → ∀ b, Held.In {} b →
      Tracks (parseEvioBuff {} (EvioBuf.mem ⟨e.words ++ behind, 0⟩) fill fuel) (e.held behind)
        (fun h _ c => h.In c) b := by
  have hzero : EvioBuf.mem ⟨e.words ++ behind, 0⟩ = Mem.ofList (e.words ++ behind) :=
    funext fun a => congrArg _ (add_zero a)
  have hm : EndsBehind (EvioBuf.mem ⟨e.words ++ behind, 0⟩) fill 0 (e.words ++ behind) := by
    rw [hzero]
    refine ⟨Mem.holds_ofList _, ?_, hfill⟩
    rw [zero_add, Mem.ofList, if_pos (Int.natCast_nonneg _), Int.toNat_natCast, List.getElem?_eq_none le_rfl]
  obtain ⟨F, hF⟩ : ∃ F, ∀ fuel, F ≤ fuel → ∀ b, Follows (parseEvioBuff {} (EvioBuf.mem ⟨e.words ++ behind, 0⟩) _ fuel >>=
    fun _ => pure ()) _ b := followsEvent e.wf hm.holds.append.1
  refine ⟨F, fun fuel hfuel b hb => ?_⟩
  have hvisit : Tracks (visitEvent {} _ fill e.tag e.num e.container e.trees) _ _ b :=
    tracks_visitEvent hb hm
  refine hvisit.of_unit fun t => ?_
  rw [(hF fuel hfuel b).returns, returns_bind]
  constructor
  · rintro ⟨r, c, hr, hc⟩
    obtain ⟨-, rfl⟩ := returns_pure.mp hc
    exact ⟨r, hr⟩
  · rintro ⟨r, hr⟩
    exact ⟨r, t, hr, returns_pure.mpr ⟨rfl, rfl⟩⟩

end Top

end EvioTool
