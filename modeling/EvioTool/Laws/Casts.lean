import EvioTool.Defs.Casts
import EvioTool.Laws.FillInv
import EvioTool.Laws.Leak
import EvioTool.Laws.Mirror
import EvioTool.Laws.Reads
import EvioTool.Lib.Run

namespace EvioTool

open Lib Exec

section Prefix

variable {ks ls : List TagNum} {k : TagNum} {xs ys : List Tree}

theorem leafClass_append (hk : k ∈ ks) : leafClass (ks ++ ls) k = leafClass ks k := by
  induction ls using List.reverseRecOn with
  | nil => rw [List.append_nil]
  | append_singleton ls l ih => rw [← List.append_assoc, leafClass_concat (by simp [hk]), ih]

theorem bankClass_append (hk : k ∈ ks) : bankClass (ks ++ ls) k = bankClass ks k := by
  obtain ⟨f, hf⟩ : ∃ f, (ks.find? fun c => c.1 = k.1) = some f :=
    Option.isSome_iff_exists.mp (List.find?_isSome.mpr ⟨k, hk, by simp⟩)
  rw [bankClass, bankClass, List.find?_append, hf]
  rfl

theorem prefix_gather {α : Type} {as bs : List (TagNum × List α)} (c : TagNum) :
    gather bankClass as c <+: gather bankClass (as ++ bs) c := by
  have hfilter : (as.filter fun x => bankClass ((as ++ bs).map Prod.fst) x.1 = c) =
      as.filter fun x => bankClass (as.map Prod.fst) x.1 = c := by
    refine List.filter_congr fun x hx => ?_
    rw [List.map_append, bankClass_append (List.mem_map_of_mem hx)]
  rw [gather, gather, List.filter_append, hfilter, List.flatMap_append]
  exact List.prefix_append _ _

theorem OneType.of_prefix (h : OneType ys) (hp : xs <+: ys) : OneType xs := by
  induction h generalizing xs with
  | node leaf bank ih =>
    obtain ⟨zs, rfl⟩ := hp
    simp only [List.filterMap_append, List.map_append, List.mem_append] at leaf ih
    refine .node (fun x hx y hy hxy => ?_) fun x hx => ?_
    · refine leaf x (.inl hx) y (.inl hy) ?_
      rwa [leafClass_append (List.mem_map_of_mem hx), leafClass_append (List.mem_map_of_mem hy)]
    · refine ih x (.inl hx) ?_
      rw [bankClass_append (List.mem_map_of_mem hx)]
      exact prefix_gather _

end Prefix

def LeafPtr.HoldsType (l : LeafPtr) (Ts : List ElemType) : Prop :=
  l.tag = (l.tagNum.1.toNat : Int) ∧ l.num = (l.tagNum.2.toNat : Int) ∧ l.1 ∈ Ts

inductive Typed : List Tree → Bank → Prop
  | node {trees : List Tree} {i : BankInfo} {subs : List Bank}
    (leafs : Grouped leafFits LeafPtr.tagNum LeafPtr.HoldsType (trees.filterMap Tree.asLeaf) i.leafs)
    (keys : subs.map Bank.tagNum = firstFit bankFits ((trees.filterMap Tree.asBank).map Prod.fst))
    (tags : ∀ b ∈ subs, b.label.tags = [b.tagNum.1])
    (sub : ∀ b ∈ subs, Typed (part bankFits (trees.filterMap Tree.asBank) b.tagNum).flatten b) :
    Typed trees (.node i subs)

variable {set : Settings} {mem : Mem} {fill : Nat} {trees xs ys : List Tree} {b c : Bank}
  {i j : BankInfo} {bs : List Bank} {tag : UInt16} {num : UInt8} {depth : Int} {T : ElemType}
  {loc : Nat}

namespace Typed

def HoldsTrees (b : Bank) (treess : List (List Tree)) : Prop :=
  b.label.tags = [b.tagNum.1] ∧ Typed treess.flatten b

theorem subs (h : Typed xs (.node i bs)) :
    Grouped bankFits Bank.tagNum HoldsTrees (xs.filterMap Tree.asBank) bs := by
  cases h with
  | node _ keys tags sub => exact ⟨keys, fun b hb => ⟨tags b hb, sub b hb⟩⟩

theorem leafs (h : Typed xs b) : Grouped leafFits LeafPtr.tagNum LeafPtr.HoldsType
    (xs.filterMap Tree.asLeaf) b.label.leafs := by
  cases h with
  | node leafs keys tags sub => exact leafs

theorem of_grouped
    (hl : Grouped leafFits LeafPtr.tagNum LeafPtr.HoldsType (xs.filterMap Tree.asLeaf) i.leafs)
    (hs : Grouped bankFits Bank.tagNum HoldsTrees (xs.filterMap Tree.asBank) bs) :
    Typed xs (.node i bs) :=
  .node hl hs.keys (fun b hb => (hs.holds b hb).1) fun b hb => (hs.holds b hb).2

theorem empty (hl : b.label.leafs = []) (hs : b.subs = []) : Typed [] b := by
  cases b with
  | node i bs =>
    obtain rfl : bs = [] := hs
    have hl : i.leafs = [] := hl
    exact of_grouped ⟨by rw [hl]; rfl, by rw [hl]; nofun⟩ ⟨rfl, nofun⟩

theorem mark (h : Typed xs b) (tag : UInt16) (num : UInt8) : Typed xs (b.mark tag num) := by
  cases h with
  | node leafs keys tags sub => exact .node leafs keys tags sub

end Typed

def LeafPtr.key (l : LeafPtr) : ElemType × Int × Int := (l.1, l.tag, l.num)

theorem grouped_of_keys {arrivals : List (TagNum × ElemType)} {ls ls' : List LeafPtr}
    (h : Grouped leafFits LeafPtr.tagNum LeafPtr.HoldsType arrivals ls)
    (hkeys : ls'.map LeafPtr.key = ls.map LeafPtr.key) :
    Grouped leafFits LeafPtr.tagNum LeafPtr.HoldsType arrivals ls' := by
  have htag (ls : List LeafPtr) : ls.map LeafPtr.tagNum = (ls.map LeafPtr.key).map fun k =>
      (UInt16.ofNat k.2.1.toNat, UInt8.ofNat k.2.2.toNat) := by
    rw [List.map_map]
    rfl
  refine ⟨by rw [htag, hkeys, ← htag, h.keys], fun l' hl' => ?_⟩
  obtain ⟨l, hl, hk⟩ := List.mem_map.mp (hkeys ▸ List.mem_map_of_mem (f := LeafPtr.key) hl')
  obtain ⟨htype, hrest⟩ := Prod.mk.inj hk
  obtain ⟨htag, hnum⟩ := Prod.mk.inj hrest
  have hkey : l'.tagNum = l.tagNum := by rw [LeafPtr.tagNum, LeafPtr.tagNum, htag, hnum]
  have hold := h.holds l hl
  rw [LeafPtr.HoldsType, hkey, ← htag, ← hnum, ← htype]
  exact hold

def BankInfo.address (i : BankInfo) : List UInt16 × List UInt16 × UInt8 := (i.tags, i.tagMasks, i.num)

theorem key_addLeaf (T : ElemType) (name desc : String) :
    ∃ m : Leaf T, (i.addLeaf T name tag num desc).leafs = i.leafs ++ [⟨T, m⟩] ∧
      LeafPtr.tagNum ⟨T, m⟩ = (tag, num) ∧ LeafPtr.HoldsType ⟨T, m⟩ [T] := by
  obtain ⟨m, hm, htag, hnum, -⟩ := i.leafs_addLeaf T name desc tag num
  have hkey : LeafPtr.tagNum ⟨T, m⟩ = (tag, num) := by
    simp [LeafPtr.tagNum, LeafPtr.tag, LeafPtr.num, htag, hnum]
  refine ⟨m, hm, hkey, ?_, ?_, List.mem_singleton.mpr rfl⟩
  · rw [hkey]
    exact htag
  · rw [hkey]
    exact hnum

theorem typed_leafFor (str desc : String) (ha : set.fAutoAdd = true)
    (h : Grouped leafFits LeafPtr.tagNum LeafPtr.HoldsType (xs.filterMap Tree.asLeaf) i.leafs)
    {x : Tree} (hx : x.asLeaf = some ((tag, num), T)) (hone : OneType (xs ++ [x])) :
    ∃ loc j, i.leafFor set.fAutoAdd T str desc tag num = some (loc, j) ∧
      j.leafs[loc]?.map Sigma.fst = some T ∧ j.address = i.address ∧ Grouped leafFits LeafPtr.tagNum LeafPtr.HoldsType
        ((xs ++ [x]).filterMap Tree.asLeaf) j.leafs := by
  have hfind : i.findLeaf tag num = _ :=
    BankInfo.findLeaf_eq fun l hl => ⟨(h.holds l hl).1, (h.holds l hl).2.1⟩
  have harrivals : (xs ++ [x]).filterMap Tree.asLeaf = xs.filterMap Tree.asLeaf ++ [((tag, num), T)] := by
    simp [hx]
  unfold BankInfo.leafFor
  rw [harrivals]
  cases hf : i.findLeaf tag num with
  | some loc =>
    have hlt := BankInfo.findLeaf_lt hf
    have hl : i.leafs[loc]? = some i.leafs[loc] := List.getElem?_eq_getElem hlt
    rw [hfind] at hf
    refine ⟨loc, i, rfl, ?_, rfl, ?_⟩
    · -- a leaf bank of the same class has the type of the leaf
      have hclass : classOf leafFits _ _ = _ := classOf_concat (l := (tag, num)) (h.classOf_found hf hl)
      obtain ⟨-, -, htype⟩ := h.holds _ (List.getElem_mem hlt)
      obtain ⟨y, hy, hyT⟩ := List.mem_map.mp htype
      obtain ⟨hy, hyclass⟩ := List.mem_filter.mp hy
      have hyclass : classOf leafFits _ _ = _ :=
        classOf_concat (l := (tag, num)) (of_decide_eq_true hyclass)
      cases hone with
      | node leaf bank =>
        rw [harrivals] at leaf
        have heq := leaf y (by simp [hy]) ((tag, num), T) (by simp) ?_
        · rw [hl, Option.map_some, ← hyT, heq]
        · rw [List.map_append, List.map_singleton]
          rw [classOf_leafFits (by simp)] at hclass
          rw [classOf_leafFits (by simp [List.mem_map_of_mem hy])] at hyclass
          exact Option.some.inj (hyclass.trans hclass.symm)
    · have hset : i.leafs.set loc i.leafs[loc] = i.leafs := List.set_getElem_self hlt
      rw [← hset]
      obtain ⟨htag, hnum, hT⟩ := h.holds _ (List.getElem_mem hlt)
      exact h.found leafFits_self hf hl rfl ⟨htag, hnum, List.mem_append_left _ hT⟩
  | none =>
    obtain ⟨m, hm, hkey, hnew⟩ : ∃ m : Leaf T, (i.addLeaf T str tag num desc).leafs = _ ∧ _ ∧ _ :=
      key_addLeaf T str desc
    rw [hfind] at hf
    refine ⟨_, _, if_pos ha, by simp [hm], rfl, ?_⟩
    rw [hm]
    exact h.new leafFits_self hf hkey hnew

theorem LeafPtr.key_eq {l m : LeafPtr} (h : m.blank.clear = l.blank.clear) : m.key = l.key := by
  have htype : m.blank.clear.1 = l.blank.clear.1 := by rw [h]
  have htag : m.blank.clear.tag = l.blank.clear.tag := by rw [h]
  have hnum : m.blank.clear.num = l.blank.clear.num := by rw [h]
  exact Prod.ext htype (Prod.ext htag hnum)

theorem keys_setLeaf {l m : LeafPtr} (hl : i.leafs[loc]? = some l) (hm : m.key = l.key) :
    (i.setLeaf loc m).leafs.map LeafPtr.key = i.leafs.map LeafPtr.key := by
  obtain ⟨hlt, rfl⟩ := List.getElem?_eq_some_iff.mp hl
  have hset : (i.leafs.map LeafPtr.key).set loc i.leafs[loc].key = i.leafs.map LeafPtr.key := by
    rw [← List.map_set, List.set_getElem_self]
  rw [BankInfo.leafs_setLeaf, List.map_set, hm, hset]

theorem fillInv_keys (K : List (ElemType × Int × Int)) (A : List UInt16 × List UInt16 × UInt8) :
    FillInv false fun i => i.leafs.map LeafPtr.key = K ∧ i.address = A where
  svt _ _ _ h := h
  setLeaf _ _ _ _ hl hm h := ⟨(keys_setLeaf hl (LeafPtr.key_eq hm)).trans h.1, h.2⟩
  addLeaf _ _ _ _ _ _ h := nomatch h

/-- A cast to the type that the leaf has. -/
def Obs.Valid (o : Obs) : Prop := ∀ S T, o.cast? = some (S, T) → S = T

theorem fillSwitch_eq (T : ElemType) (buf n : Int) (h : Header) :
    ∃ str desc, ∃ push : Nat → Exec Halt Obs BankInfo Unit,
      (∀ R, FillRel false R → ∀ loc, Exec.Keeps R (push loc)) ∧ (∀ loc i, Quiet (push loc) i) ∧
      (∀ (I : BankInfo → Prop) loc i, i.cls = .bank → (∀ xs, Preserves I (pushLeaf loc T xs)) →
        I i → I (push loc i).state) ∧
      fillSwitch set mem fill T buf n h =
        findOrAddLeaf set.fAutoAdd T str desc h.tag h.num >>= fun x => match x with
          | none => pure 0
          | some loc => fillLeaf T loc (push loc) := by
  cases T with
  | prim t =>
    refine ⟨_, _, fun loc => pushDataArray mem fill loc t buf n, fun R hR loc => ?_, fun loc i => ?_,
      fun I loc i hi hpush h => ?_, rfl⟩
    · exact hR.pushDataArray _ _ _ _
    · exact logs_pushDataArray (fun _ _ => rfl) fun _ => rfl
    · dsimp only
      rw [pushDataArray_plain (.inl hi)]
      exact ((preserves_of_state (state_of_keeps fun _ => keeps_readElems _ _ _ _)).bind hpush) i h
  | string =>
    refine ⟨_, _, fun loc => readStrings mem (4 * buf) n fill (4 * buf) >>= pushLeaf loc .string,
      fun R hR loc => ?_, fun loc i => ?_, fun I loc i hi hpush h => ?_, rfl⟩
    · exact (keeps_readStrings _ _ _ _).bind fun _ => hR.push _ _ _
    · exact (logs_readStrings (fun _ _ => rfl) _ _ _ _).bind fun _ _ _ => logs_pushLeaf _ _ _
    · exact ((preserves_of_state (state_of_keeps fun _ => keeps_readStrings _ _ _ _)).bind hpush) i h
  | fadc =>
    refine ⟨_, _, fun loc => gets BankInfo.thisTag >>= fun tag =>
        FADCdata.read mem fill tag.toUInt8 h.tag buf >>= pushLeaf loc .fadc,
      fun R hR loc => ?_, fun loc i => ?_, fun I loc i hi hpush h => ?_, rfl⟩
    · exact (keeps_gets hR.thisTag).bind fun _ => (keeps_readFADC _ _ _ _).bind fun _ => hR.push _ _ _
    · exact logs_gets.bind fun _ _ _ => (logs_readFADC (fun _ _ => rfl) _ _ _ _).bind fun _ _ _ =>
        logs_pushLeaf _ _ _
    · dsimp only
      rw [gets_bind_apply]
      exact ((preserves_of_state (state_of_keeps fun _ => keeps_readFADC _ _ _ _)).bind hpush) i h

theorem traces_fillSwitch {hd : Header} {buf n : Int} (ha : set.fAutoAdd = true)
    (h : Grouped leafFits LeafPtr.tagNum LeafPtr.HoldsType (xs.filterMap Tree.asLeaf) i.leafs)
    {x : Tree} (hx : x.asLeaf = some ((hd.tag, hd.num), T)) (hone : OneType (xs ++ [x])) :
    Traces Obs.Valid (fun _ k => k.address = i.address ∧ Grouped leafFits LeafPtr.tagNum
      LeafPtr.HoldsType ((xs ++ [x]).filterMap Tree.asLeaf) k.leafs)
      (fillSwitch set mem fill T buf n hd) i := by
  obtain ⟨str, desc, push, hkeeps, hquiet, -, heq⟩ : ∃ str desc push, _ ∧ _ ∧ _ ∧
    fillSwitch set mem fill T buf n hd = _ := fillSwitch_eq T buf n hd
  obtain ⟨loc, j, hleaf, htype, haddr, hgroup⟩ := typed_leafFor str desc ha h hx hone
  have hfind : Returns (findOrAddLeaf set.fAutoAdd T str desc hd.tag hd.num) i (some loc) j := by
    rw [Returns, findOrAddLeaf_eq, hleaf]
    exact ⟨rfl, rfl⟩
  have hinv := (fillInv_keys (j.leafs.map LeafPtr.key) j.address).rel
  have hpush := (hkeeps _ hinv loc).preserves
  have hcall := (hinv.callBack loc).preserves
  rw [heq]
  refine .bind (R := fun x k => x = some loc ∧ k = j) ⟨logs_findOrAddLeaf _ _ _ _ _ _, fun x k hx =>
    hfind.det hx⟩ ?_
  rintro _ k ⟨rfl, hk⟩
  subst hk
  refine .gets_bind ?_
  rw [htype, demand_some, pure_bind]
  refine .bind (R := fun _ l => l = k) (traces_tell ?_ rfl) ?_
  · rintro S T ⟨⟩
    rfl
  · rintro _ l rfl
    have hvalid {m : Exec Halt Obs BankInfo Unit} {s : BankInfo} (hm : Quiet m s) :
        Logs Obs.Valid m s := fun o ho S T hST => by simp [hm o ho] at hST
    rw [if_pos rfl]
    refine .bind (R := fun _ k => k.leafs.map LeafPtr.key = l.leafs.map LeafPtr.key ∧
      k.address = l.address) ⟨hvalid (hquiet _ _), fun _ k hr => hpush.returns hr ⟨rfl, rfl⟩⟩ ?_
    intro _ k hk
    refine .bind (R := fun _ k => k.leafs.map LeafPtr.key = l.leafs.map LeafPtr.key ∧
      k.address = l.address) ⟨logs_callBack _, fun _ k hr => hcall.returns hr hk⟩ ?_
    rintro _ k ⟨hkeys, haddr'⟩
    exact traces_pure ⟨haddr'.trans haddr, grouped_of_keys hgroup hkeys⟩

def Note.Valid (w : Note) : Prop := ∀ S T, w.cast? = some (S, T) → S = T

theorem traces_quiet {σ α : Type} {s : σ} {m : Exec Halt Obs σ α} {Q : α → σ → Prop} (hm : Quiet m s)
    (hQ : ∀ a t, Returns m s a t → Q a t) : Traces Note.Valid Q (mapLog .inl m) s :=
  .mapLog ⟨hm, hQ⟩ fun _ ho _ _ h => nomatch ho.symm.trans h

def Types (set : Settings) (mem : Mem) (fill : Nat) (x : Tree) : Prop :=
  ∀ (k : Kind) (enclosing mark : UInt16) (buf depth : Int) (b : Bank) (xs : List Tree),
    Typed xs b → OneType (xs ++ x.prune set depth) →
    Traces Note.Valid
      (fun _ c => Typed (xs ++ x.prune set depth) c ∧ c.label.address = b.label.address)
      (visit set mem fill k enclosing mark buf depth x) b

theorem types_leaf (ha : set.fAutoAdd = true) {contentType padding : Nat} {payload : List UInt32} :
    Types set mem fill (.leaf tag num contentType padding payload) := by
  intro k enclosing mark buf depth b xs h hone
  rw [Tree.prune] at hone
  have hbanks : (xs ++ [Tree.leaf tag num contentType padding payload]).filterMap Tree.asBank =
      xs.filterMap Tree.asBank := by
    simp [Tree.asBank]
  cases b with
  | node i bs =>
    have hsubs := h.subs
    rw [← hbanks] at hsubs
    rw [visit, Tree.prune]
    cases hcase : leafCase contentType padding with
    | none =>
      have hleafs : (xs ++ [Tree.leaf tag num contentType padding payload]).filterMap Tree.asLeaf =
          xs.filterMap Tree.asLeaf := by
        simp [Tree.asLeaf, hcase]
      exact traces_pure ⟨.of_grouped (hleafs ▸ h.leafs) hsubs, rfl⟩
    | some r =>
      obtain ⟨T, n, d⟩ := r
      refine .bind (R := fun _ c => c = .node i bs) (traces_quiet
        ((quiet_int32 _).bind fun _ _ _ => quiet_int32 _) ?_) ?_
      · intro count c hc
        exact (returns_elemCount.mp hc).2.2.2
      · rintro count _ rfl
        refine .bind (R := fun _ c => Typed (xs ++ [Tree.leaf tag num contentType padding payload]) c ∧
          c.label.address = i.address) ?_ fun _ _ hc => traces_pure hc
        refine .zoom (R := fun _ j => j.address = i.address ∧ Grouped leafFits LeafPtr.tagNum
          LeafPtr.HoldsType ((xs ++ [Tree.leaf tag num contentType padding payload]).filterMap
            Tree.asLeaf) j.leafs) ?_ ?_
        · rintro _ ⟨⟩
          have hnote (f : Fill) : Note.Valid (.inr f) := fun _ _ h => absurd h.symm (Option.some_ne_none _)
          refine .gets_bind (.bind (R := fun _ j => j = i) (traces_tell (hnote _) rfl) ?_)
          rintro _ _ rfl
          refine .mapLog (P := Obs.Valid) (traces_fillSwitch ha h.leafs ?_ hone) fun _ h => h
          simp [Tree.asLeaf, hcase, Kind.decoded]
        · rintro _ stat j - ⟨haddr, hj⟩
          exact ⟨.of_grouped hj hsubs, haddr⟩

theorem types_all (ih : ∀ x ∈ trees, Types set mem fill x) (h : Typed xs b)
    (hone : OneType (xs ++ Tree.pruneAll set depth trees)) {k : Kind} {enclosing mark : UInt16}
    {buf : Int} : Traces Note.Valid
      (fun _ c => Typed (xs ++ Tree.pruneAll set depth trees) c ∧ c.label.address = b.label.address)
      (visitAll set mem fill k enclosing mark buf depth trees) b := by
  induction trees generalizing xs b mark buf with
  | nil =>
    rw [Tree.pruneAll, List.append_nil]
    exact traces_pure ⟨h, rfl⟩
  | cons x trees ihx =>
    rw [Tree.pruneAll, ← List.append_assoc] at hone ⊢
    rw [visitAll]
    refine .bind (ih x (by simp) k enclosing mark buf depth b xs h
      (hone.of_prefix (List.prefix_append _ _))) fun _ c hc => ?_
    exact (ihx (fun y hy => ih y (by simp [hy])) hc.1 hone).mono fun _ d hd =>
      ⟨hd.1, hd.2.trans hc.2⟩

theorem address_mark : (b.mark tag num).label.address = b.label.address := by
  cases b
  rfl

theorem tagNum_of_address (h : c.label.address = b.label.address) : Bank.tagNum c = b.tagNum := by
  obtain ⟨htags, hrest⟩ := Prod.mk.inj h
  rw [Bank.tagNum, Bank.tagNum, htags, (Prod.mk.inj hrest).2]

theorem banks_concat {c : Container} :
    (xs ++ [Tree.container tag num c trees]).filterMap Tree.asBank =
      xs.filterMap Tree.asBank ++ [((tag, num), trees)] := by
  simp [Tree.asBank]

theorem Typed.container {i : BankInfo} {bs cs : List Bank} {c : Container}
    (h : Typed xs (.node i bs)) (hcs : Grouped bankFits Bank.tagNum Typed.HoldsTrees
      (xs.filterMap Tree.asBank ++ [((tag, num), trees)]) cs) :
    Typed (xs ++ [Tree.container tag num c trees]) (.node i cs) := by
  have hleafs : (xs ++ [Tree.container tag num c trees]).filterMap Tree.asLeaf =
      xs.filterMap Tree.asLeaf := by
    simp [Tree.asLeaf]
  exact .of_grouped (hleafs ▸ h.leafs) (banks_concat ▸ hcs)

theorem OneType.bank {c : Container} (hone : OneType (xs ++ [Tree.container tag num c trees]))
    {key : TagNum} (hclass : classOf bankFits ((xs.filterMap Tree.asBank).map Prod.fst ++ [(tag, num)])
      (tag, num) = some key) :
    OneType ((part bankFits (xs.filterMap Tree.asBank) key).flatten ++ trees) := by
  cases hone with
  | node leaf bank =>
    have hbank := bank ((tag, num), trees) (by simp [Tree.asBank])
    rw [banks_concat, ← flatten_part fun ks k hk => classOf_bankFits hk, Grouped.part_concat bankFits_self,
      List.map_append, List.map_singleton] at hbank
    have hkey : bankClass ((xs.filterMap Tree.asBank).map Prod.fst ++ [(tag, num)]) (tag, num) = key :=
      Option.some.inj ((classOf_bankFits (by simp)).symm.trans hclass)
    rw [hkey, if_pos hclass, List.flatten_append, List.flatten_singleton] at hbank
    exact hbank

theorem traces_bank (ih : ∀ x ∈ trees, Types set mem fill x) {treess : List (List Tree)}
    (h : Typed.HoldsTrees b treess) (hone : OneType (treess.flatten ++ Tree.pruneAll set depth trees))
    {k : Kind} {enclosing mark : UInt16} {buf : Int} :
    Traces Note.Valid (fun _ c => Typed.HoldsTrees c (treess ++ [Tree.pruneAll set depth trees]) ∧
      Bank.tagNum c = b.tagNum)
      (visitAll set mem fill k enclosing mark buf depth trees) (b.mark tag num) := by
  refine (types_all ih (h.2.mark tag num) hone).mono ?_
  rintro _ c ⟨hc, haddr⟩
  rw [address_mark] at haddr
  have hkey := tagNum_of_address haddr
  refine ⟨⟨?_, ?_⟩, hkey⟩
  · rw [hkey, ← h.1]
    exact congrArg Prod.fst haddr
  · rwa [List.flatten_append, List.flatten_singleton]

theorem types_container (ha : set.fAutoAdd = true) {c : Container}
    (ih : ∀ x ∈ trees, Types set mem fill x) : Types set mem fill (.container tag num c trees) := by
  intro k enclosing mark buf depth b xs h hone
  rw [visit]
  refine .bind (R := fun x d => x = (resolve set tag num depth b).map Prod.fst ∧
    d = ((resolve set tag num depth b).map Prod.snd).getD b)
    (traces_quiet logs_containerNodeHandler fun x d hd => returns_containerNodeHandler.det hd) ?_
  rintro x d ⟨rfl, rfl⟩
  by_cases hprune : set.Prunes depth
  · rw [Tree.prune, if_pos hprune] at hone ⊢
    rw [resolve_pruned hprune, ← address_mark (b := b)]
    exact types_all ih (h.mark tag num) hone
  · rw [Tree.prune, if_neg hprune] at hone ⊢
    cases b with
    | node i bs =>
      have hfind : Bank.findBank (.node i bs) tag num = _ :=
        Bank.findBank_eq fun c hc => (h.subs.holds c hc).1
      cases hf : Bank.findBank (.node i bs) tag num with
      | some n =>
        have hlt : n < bs.length := Bank.findBank_lt hf
        have hn : bs[n]? = some bs[n] := List.getElem?_eq_getElem hlt
        rw [resolve_found hprune hf hn]
        rw [hfind] at hf
        have hclass : classOf bankFits _ _ = _ :=
          classOf_concat (l := (tag, num)) (h.subs.classOf_found hf hn)
        refine .zoom (R := fun _ d => Typed.HoldsTrees d (part bankFits (xs.filterMap Tree.asBank)
          (Bank.tagNum bs[n]) ++ [Tree.pruneAll set (depth + 1) trees]) ∧ Bank.tagNum d = Bank.tagNum bs[n]) ?_ ?_
        · intro d hd
          obtain rfl : Bank.mark tag num bs[n] = d := by simpa [hlt] using hd
          exact traces_bank ih (h.subs.holds _ (List.getElem_mem hlt)) (hone.bank hclass)
        · rintro _ _ d - ⟨hd, hkey⟩
          refine ⟨?_, rfl⟩
          simp only [Option.map_some, Option.getD_some, Rose.setSub, List.set_set]
          exact h.container (h.subs.found bankFits_self hf hn hkey hd)
      | none =>
        rw [resolve_added hprune hf ha]
        rw [hfind] at hf
        have hclass := h.subs.classOf_fresh hf
        have hone' := hone.bank (classOf_concat_self bankFits_self hclass)
        rw [Grouped.part_fresh bankFits_self hclass] at hone'
        have hnew : Typed.HoldsTrees (Bank.new (bankStr tag num) tag num "Auto added Bank") [] :=
          ⟨rfl, .empty rfl rfl⟩
        refine .zoom (R := fun _ d => Typed.HoldsTrees d [Tree.pruneAll set (depth + 1) trees] ∧
          Bank.tagNum d = (tag, num)) ?_ ?_
        · intro d hd
          obtain rfl : (Bank.new (bankStr tag num) tag num "Auto added Bank").mark tag num = d := by
            simpa using hd
          exact traces_bank ih hnew hone'
        · rintro _ _ d - ⟨hd, hkey⟩
          refine ⟨?_, rfl⟩
          simp only [Option.map_some, Option.getD_some, Rose.setSub, List.set_append_right _ _ le_rfl,
            Nat.sub_self, List.set_cons_zero]
          exact h.container (h.subs.new bankFits_self hf hkey hd)

theorem types (ha : set.fAutoAdd = true) (x : Tree) : Types set mem fill x := by
  induction x using Tree.ind with
  | leaf tag num contentType padding payload => exact types_leaf ha
  | container tag num c trees ih => exact types_container ha ih

section Event

variable {e : Event} {t : Tool} {fuel : Nat} {m : Exec Halt Obs Bank Unit}
  {m' : Exec Halt Note Bank Unit} {Q : Unit → Bank → Prop}

theorem Follows.traces (h : Follows m m' b) (ht : Traces Note.Valid Q m' b) :
    Traces Obs.Valid Q m b := by
  refine ⟨fun o ho S T hST => ?_, fun a c hc => ht.ends a c (h.returns.mpr hc)⟩
  have hmem : (S, T) ∈ (m b).log.filterMap Obs.cast? := List.mem_filterMap.mpr ⟨o, ho, hST⟩
  rw [← h.log] at hmem
  obtain ⟨w, hw, hcast⟩ := List.mem_filterMap.mp hmem
  exact ht.logs w hw S T hcast

theorem checkTag_of_address (h : j.address = i.address) : j.checkTag = i.checkTag := by
  obtain ⟨htags, hrest⟩ := Prod.mk.inj h
  obtain ⟨hmasks, -⟩ := Prod.mk.inj hrest
  unfold BankInfo.checkTag
  rw [htags, hmasks]

theorem contents_of_address (h : j.address = i.address) : e.contents set j = e.contents set i := by
  unfold Event.contents
  rw [checkTag_of_address h]

theorem traces_visitEvent {P : Note → Prop}
    (hstop : e.contents set b.label = [] → Q () (b.mark e.tag e.num))
    (hvisit : ∀ trees, trees = e.trees ∨ trees = [] →
      e.contents set b.label = (Tree.container e.tag e.num e.container trees).prune set 0 →
      Traces P Q (visit set mem fill .bank e.tag e.tag 0 0
        (.container e.tag e.num e.container trees)) (b.mark e.tag e.num)) :
    Traces P Q (visitEvent set mem fill e.tag e.num e.container e.trees) b := by
  have hcheck : (b.mark e.tag e.num).label.checkTag = b.label.checkTag :=
    checkTag_of_address address_mark
  rw [visitEvent]
  refine .bind (R := fun _ c => c = b.mark e.tag e.num) (traces_modify rfl) ?_
  rintro _ _ rfl
  refine .gets_bind ?_
  rw [hcheck]
  unfold Event.contents at hstop hvisit
  dsimp only
  by_cases hguard : set.fChopLevel > 0 ∧ (e.container.kind ≠ .bank ∨ !b.label.checkTag e.tag)
  · have hdone : Traces P Q (pure () : Exec Halt Note Bank Unit) (b.mark e.tag e.num) :=
      traces_pure (hstop (if_pos hguard))
    by_cases hkind : e.container.kind = .bank
    · rw [if_neg fun h => h.2 hkind,
        if_pos ⟨hguard.1, hguard.2.resolve_left (not_not.mpr hkind)⟩]
      exact hdone
    · rw [if_pos ⟨hguard.1, hkind⟩]
      exact hdone
  · have hkind : ¬(set.fChopLevel > 0 ∧ e.container.kind ≠ .bank) := fun h => hguard ⟨h.1, .inl h.2⟩
    have hpass : ¬(set.fChopLevel > 0 ∧ !b.label.checkTag e.tag) := fun h => hguard ⟨h.1, .inr h.2⟩
    rw [if_neg hguard] at hvisit
    rw [if_neg hkind, if_neg hpass]
    by_cases hlen : (Tree.encodeAll e.container.kind e.trees).length + 2 < 2 ^ 31
    · rw [if_pos hlen] at hvisit ⊢
      exact hvisit e.trees (.inl rfl) rfl
    · rw [if_neg hlen] at hvisit ⊢
      refine .bind (R := fun _ c => c = b.mark e.tag e.num) ⟨logs_mapLog.mpr ?_, ?_⟩ ?_
      · unfold int32
        split
        · exact logs_pure
        · exact logs_halt
      · intro x c hc
        exact (returns_int32.mp (returns_mapLog.mp hc)).2.2
      · rintro _ _ rfl
        exact hvisit [] (.inr rfl) rfl

theorem types_visitEvent (ha : set.fAutoAdd = true) (h : Typed xs b)
    (hone : OneType (xs ++ e.contents set b.label)) :
    Traces Note.Valid
      (fun _ c => Typed (xs ++ e.contents set b.label) c ∧ c.label.address = b.label.address)
      (visitEvent set mem fill e.tag e.num e.container e.trees) b := by
  have hmark := h.mark e.tag e.num
  rw [← address_mark]
  refine traces_visitEvent (fun hnil => ?_) fun trees _ heq => ?_
  · rw [hnil, List.append_nil]
    exact ⟨hmark, rfl⟩
  · rw [heq] at hone ⊢
    exact types ha (.container e.tag e.num e.container trees) _ _ _ _ _ _ _ hmark hone

end Event

section Run

variable {t : Tool} {events : List Event}

theorem address_clear : b.clear.label.address = b.label.address := by
  cases b with
  | node i bs =>
    by_cases hc : i.cls = .bank
    · rw [Bank.clear_bank hc]
      rfl
    · rw [Bank.clear_svt hc]
      rfl

theorem Typed.clear (h : Typed xs b) : Typed xs b.clear := by
  induction h with
  | @node trees i subs leafs keys tags sub ih =>
    by_cases hc : i.cls = .bank
    · rw [Bank.clear_bank hc]
      refine .node (grouped_of_keys leafs ?_) ?_ ?_ ?_
      · rw [List.map_map]
        rfl
      · rw [← keys, List.map_map]
        exact List.map_congr_left fun c _ => tagNum_of_address address_clear
      · intro c hcs
        obtain ⟨d, hd, rfl⟩ := List.mem_map.mp hcs
        rw [tagNum_of_address address_clear, ← tags d hd]
        exact congrArg Prod.fst address_clear
      · intro c hcs
        obtain ⟨d, hd, rfl⟩ := List.mem_map.mp hcs
        rw [tagNum_of_address address_clear]
        exact ih d hd
    · rw [Bank.clear_svt hc]
      exact .node leafs keys tags sub

theorem traces_readEvent (ha : t.set.fAutoAdd = true) (e : Event) : ∃ F, ∀ fuel, F ≤ fuel →
    ∀ xs b, Typed xs (t.clear b) → OneType (xs ++ e.contents t.set (t.clear b).label) →
    Traces Obs.Valid (fun _ c => Typed (xs ++ e.contents t.set (t.clear b).label) c ∧
      c.label.address = (t.clear b).label.address)
      (readEvent t fill fuel e.buf >>= fun _ => pure ()) b := by
  obtain ⟨F, hF⟩ : ∃ F, ∀ fuel, F ≤ fuel → ∀ b, Follows
      (parseEvioBuff t.set e.buf.mem fill fuel >>= fun _ => pure ()) _ b := followsEvent e.wf e.holds
  refine ⟨F, fun fuel hfuel xs b h hone => ?_⟩
  rw [readEvent, bind_assoc]
  refine .bind (R := fun _ c => c = t.clear b) (traces_modify rfl) ?_
  rintro _ _ rfl
  exact (hF fuel hfuel _).traces (types_visitEvent ha h hone)

def Tool.Ready (t : Tool) (events : List Event) (b : Bank) : Prop :=
  b.label.address = t.bank.label.address ∧ ∃ xs, Typed xs b ∧
    if t.fFullErase then ∀ e ∈ events, EvioTool.OneType (e.contents t.set t.bank.label)
    else EvioTool.OneType (xs ++ events.flatMap (Event.contents t.set t.bank.label))

theorem Tool.Ready.next {e : Event} (h : t.Ready (e :: events) b) :
    ∃ xs, Typed xs (t.clear b) ∧ EvioTool.OneType (xs ++ e.contents t.set (t.clear b).label) ∧
      ∀ c, Typed (xs ++ e.contents t.set (t.clear b).label) c →
        c.label.address = (t.clear b).label.address → t.Ready events c := by
  obtain ⟨haddr, xs, hxs, hone⟩ := h
  have hclear : (t.clear b).label.address = t.bank.label.address := by
    rw [← haddr, clear]
    split
    · rfl
    · exact address_clear
  rw [contents_of_address hclear, hclear]
  cases hf : t.fFullErase with
  | true =>
    rw [hf, if_pos rfl] at hone
    have hempty : Typed [] (t.clear b) := by
      rw [clear, hf]
      exact .empty rfl rfl
    refine ⟨[], hempty, hone e (by simp), fun c hc haddr' => ⟨haddr', _, hc, ?_⟩⟩
    rw [hf, if_pos rfl]
    exact fun e he => hone e (by simp [he])
  | false =>
    rw [hf, if_neg (by simp), List.flatMap_cons, ← List.append_assoc] at hone
    have hkeep : Typed xs (t.clear b) := by
      rw [clear, hf]
      exact hxs.clear
    refine ⟨xs, hkeep, hone.of_prefix (List.prefix_append _ _), fun c hc haddr' => ⟨haddr', _, hc, ?_⟩⟩
    rw [hf, if_neg (by simp)]
    exact hone

theorem logs_run (ha : t.set.fAutoAdd = true) : ∃ F, ∀ fuel, F ≤ fuel → ∀ b, t.Ready events b →
    Logs Obs.Valid (run (fun e : Event => readEvent t fill fuel e.buf >>= fun _ => pure ()) events)
      b := by
  induction events with
  | nil => exact ⟨0, fun _ _ _ _ => logs_pure⟩
  | cons e es ih =>
    obtain ⟨F, hF⟩ := ih
    obtain ⟨G, hG⟩ : ∃ G, ∀ fuel, G ≤ fuel → ∀ xs b, _ → _ →
        Traces Obs.Valid _ (readEvent t fill fuel e.buf >>= fun _ => pure ()) b :=
      traces_readEvent ha e
    refine ⟨max F G, fun fuel hfuel b h => ?_⟩
    obtain ⟨xs, hxs, hone, hnext⟩ := h.next
    have hread := hG fuel (le_trans (le_max_right _ _) hfuel) xs b hxs hone
    refine hread.logs.bind fun _ c hc => hF fuel (le_trans (le_max_left _ _) hfuel) c ?_
    obtain ⟨htyped, haddr⟩ := hread.ends _ c hc
    exact hnext c htyped haddr

/-- Leaf banks bring to every leaf the type that it has, if they bring one type to it. -/
theorem readEvent_casts (ha : t.set.fAutoAdd = true) (hleafs : t.bank.label.leafs = [])
    (hsubs : t.bank.subs = []) (hone : t.OneType events) : ∃ F, ∀ fuel, F ≤ fuel →
    Logs Obs.Valid (run (fun e : Event => readEvent t fill fuel e.buf >>= fun _ => pure ()) events)
      t.bank := by
  obtain ⟨F, hF⟩ : ∃ F, ∀ fuel, F ≤ fuel → ∀ b, t.Ready events b → _ := logs_run ha
  refine ⟨F, fun fuel hfuel => hF fuel hfuel _ ⟨rfl, [], .empty hleafs hsubs, ?_⟩⟩
  rwa [List.nil_append]

def pairTrees (first second : Nat) : List Tree :=
  [.container 5 0 .bank10 [.leaf 7 0 first 0 [1], .leaf 7 0 second 0 [2]]]

def pairEvent (first second : Nat)
    (wf : (Tree.container 0 1 .bank10 (pairTrees first second)).WF .bank) : Event where
  tag := 0
  num := 1
  container := .bank10
  trees := pairTrees first second
  buf := ⟨(Tree.container 0 1 .bank10 (pairTrees first second)).encode .bank, 0⟩
  wf
  holds := Mem.holds_ofList _

def sameEvent : Event := pairEvent 0x1 0x1 <| by
  simp [pairTrees, Tree.WF, Tree.WFAll]
  decide

def mixedEvent : Event := pairEvent 0x1 0xB <| by
  simp [pairTrees, Tree.WF, Tree.WFAll]
  decide

def autoTool : Tool := { bank := emptyTop, set := { fAutoAdd := true } }

theorem readEvent_casts_twice : ∃ F, ∀ fuel, F ≤ fuel → Logs Obs.Valid
    (run (fun e : Event => readEvent autoTool 0 fuel e.buf >>= fun _ => pure ())
      [sameEvent, sameEvent]) autoTool.bank := by
  have hleafs : OneType [Tree.leaf 7 0 0x1 0 [1], .leaf 7 0 0x1 0 [2], .leaf 7 0 0x1 0 [1],
      .leaf 7 0 0x1 0 [2]] := .node (by decide) nofun
  have hbanks : OneType (pairTrees 0x1 0x1 ++ pairTrees 0x1 0x1) := by
    refine .node nofun fun x hx => ?_
    obtain rfl : x = _ := by simpa [pairTrees, Tree.asBank] using hx
    exact hleafs
  have hcontents : sameEvent.contents autoTool.set autoTool.bank.label = pairTrees 0x1 0x1 := rfl
  refine readEvent_casts rfl rfl rfl ?_
  rw [Tool.OneType, if_neg (by decide), List.flatMap_cons, List.flatMap_cons, hcontents]
  exact hbanks

theorem cast_to_other_type : ¬∃ F, ∀ fuel, F ≤ fuel → Logs Obs.Valid
    (run (fun e : Event => readEvent autoTool 0 fuel e.buf >>= fun _ => pure ()) [mixedEvent])
      autoTool.bank := by
  rintro ⟨F, hF⟩
  have hmem : Obs.filled (.prim .uint32) (.prim .int32) ∈
    (run (fun e : Event => readEvent autoTool 0 (F + 8) e.buf >>= fun _ => pure ()) [mixedEvent]
      autoTool.bank).log := List.mem_of_getElem? (i := 14) rfl
  cases hF (F + 8) (Nat.le_add_right _ _) _ hmem _ _ rfl

end Run

end EvioTool
