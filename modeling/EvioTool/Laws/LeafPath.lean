import EvioTool.Laws.Casts
import EvioTool.Laws.Leak
import EvioTool.Laws.VTPBank
import EvioTool.Laws.Words

namespace EvioTool

open Lib Exec

/-- The payloads of the leaf banks that get to a leaf: `path` tells which containers lead to
the banks above it, with the places of these, and `leaf` which leaf banks lead to the leaf. -/
def payloads (leaf : TagNum → Bool) : List (Nat × (TagNum → Bool)) → List Tree → List (List UInt32)
  | [], trees => trees.filterMap fun
    | .leaf tag num contentType padding payload =>
      if (leafCase contentType padding).isSome && leaf (tag, num) then some payload else none
    | .container _ _ _ _ => none
  | (_, bank) :: path, trees => trees.flatMap fun
    | .leaf _ _ _ _ _ => []
    | .container tag num _ trees => if bank (tag, num) then payloads leaf path trees else []

/-- The leaf at `loc` satisfies `L`; it is found for what `leaf` accepts. -/
structure BankInfo.LeafAt (leaf : TagNum → Bool) (loc : Nat) (L : Leaf (.prim .uint32) → Prop)
    (i : BankInfo) : Prop where
  plain : i.cls = .bank
  leads : ∀ tag num, i.findLeaf tag num = some loc ↔ leaf (tag, num) = true
  leaf : ∃ l, i.leafs[loc]? = some ⟨_, l⟩ ∧ L l

/-- The node at the end of the path satisfies `P`, below banks that are no SVT banks. -/
inductive Bank.Leads (P : BankInfo → Prop) : List (Nat × (TagNum → Bool)) → Bank → Prop
  | here {i : BankInfo} {bs : List Bank} : P i → Leads P [] (.node i bs)
  | sub {i : BankInfo} {bs : List Bank} {c : Bank} {n : Nat} {bank : TagNum → Bool}
    {path : List (Nat × (TagNum → Bool))} : i.cls = .bank → bs[n]? = some c →
    (∀ tag num, findBank (.node i bs) tag num = some n ↔ bank (tag, num) = true) →
    Leads P path c → Leads P ((n, bank) :: path) (.node i bs)

variable {set : Settings} {mem : Mem} {fill : Nat} {leaf : TagNum → Bool} {loc n : Nat}
  {ws payload : List UInt32} {L L' : Leaf (.prim .uint32) → Prop} {i j : BankInfo} {b c d : Bank}
  {bs : List Bank} {path : List (Nat × (TagNum → Bool))} {tag : UInt16} {num : UInt8}
  {T : ElemType} {P Q : BankInfo → Prop}

theorem findIdx?_append_iff {α : Type} {xs ys : List α} {p : α → Bool} (h : n < xs.length) :
    (xs ++ ys).findIdx? p = some n ↔ xs.findIdx? p = some n := by
  rw [List.findIdx?_append]
  cases hx : xs.findIdx? p with
  | some k => rfl
  | none =>
    simp only [Option.none_or, Option.map_eq_some_iff, reduceCtorEq, iff_false]
    rintro ⟨k, -, rfl⟩
    omega

theorem findLeaf_of_keys (h : j.leafs.map LeafPtr.key = i.leafs.map LeafPtr.key) :
    j.findLeaf = i.findLeaf := by
  have hfind (i : BankInfo) (tag : UInt16) (num : UInt8) : i.findLeaf tag num =
      (i.leafs.map LeafPtr.key).findIdx? fun k =>
        k.2.1 == (tag.toNat : Int) && (k.2.2 == 0 || k.2.2 == (num.toNat : Int)) := by
    rw [List.findIdx?_map]
    rfl
  funext tag num
  rw [hfind, hfind, h]

namespace BankInfo.LeafAt

theorem lt (h : i.LeafAt leaf loc L) : loc < i.leafs.length := by
  obtain ⟨l, hl, -⟩ := h.leaf
  exact (List.getElem?_eq_some_iff.mp hl).1

theorem mono (h : i.LeafAt leaf loc L) (hL : ∀ l, L l → L' l) : i.LeafAt leaf loc L' := by
  obtain ⟨l, hl, hLl⟩ := h.leaf
  exact ⟨h.plain, h.leads, l, hl, hL l hLl⟩

theorem setTag (h : i.LeafAt leaf loc L) (tag : UInt16) (num : UInt8) :
    (i.setTag tag num).LeafAt leaf loc L := ⟨h.plain, h.leads, h.leaf⟩

theorem addLeaf (h : i.LeafAt leaf loc L) (T : ElemType) (name desc : String) :
    (i.addLeaf T name tag num desc).LeafAt leaf loc L := by
  obtain ⟨m, hm, -⟩ := i.leafs_addLeaf T name desc tag num
  refine ⟨h.plain, fun tag num => ?_, ?_⟩
  · rw [← h.leads tag num, findLeaf, hm]
    exact findIdx?_append_iff h.lt
  · rw [hm, List.getElem?_append_left h.lt]
    exact h.leaf

theorem leafFor {fAutoAdd : Bool} {str desc : String} (h : i.LeafAt leaf loc L)
    (hn : i.leafFor fAutoAdd T str desc tag num = some (n, j)) :
    j.LeafAt leaf loc L ∧ (n = loc → leaf (tag, num) = true) := by
  unfold BankInfo.leafFor at hn
  cases hf : i.findLeaf tag num with
  | some k =>
    rw [hf] at hn
    cases hn
    exact ⟨h, fun hloc => (h.leads tag num).mp (hloc ▸ hf)⟩
  | none =>
    simp only [hf, Option.ite_none_right_eq_some, Option.some.injEq, Prod.mk.injEq] at hn
    obtain ⟨-, rfl, rfl⟩ := hn
    exact ⟨h.addLeaf _ _ _, fun hloc => absurd hloc h.lt.ne'⟩

theorem setLeaf {l m : LeafPtr} (h : i.LeafAt leaf loc L) (hn : n ≠ loc)
    (hl : i.leafs[n]? = some l) (hm : m.blank.clear = l.blank.clear) :
    (i.setLeaf n m).LeafAt leaf loc L := by
  refine ⟨h.plain, ?_, ?_⟩
  · rw [findLeaf_of_keys (keys_setLeaf hl (LeafPtr.key_eq hm))]
    exact h.leads
  · rw [leafs_setLeaf, List.getElem?_set_ne hn]
    exact h.leaf

theorem clear (h : i.LeafAt leaf loc L) (hL : ∀ l, L l → L' l.clear) :
    { i with leafs := i.leafs.map LeafPtr.clear }.LeafAt leaf loc L' := by
  obtain ⟨l, hl, hLl⟩ := h.leaf
  refine ⟨h.plain, ?_, l.clear, ?_, hL l hLl⟩
  · have hkeys : { i with leafs := i.leafs.map LeafPtr.clear }.leafs.map LeafPtr.key =
        i.leafs.map LeafPtr.key := by
      rw [List.map_map]
      rfl
    rw [findLeaf_of_keys hkeys]
    exact h.leads
  · rw [List.getElem?_map, hl]
    rfl

section Fill

variable {hd : Header} {buf count stat : Int}

theorem fill_other (h : i.LeafAt leaf loc L) (hlead : leaf (hd.tag, hd.num) = false)
    (hr : Returns (fillSwitch set mem fill T buf count hd) i stat j) :
    j.LeafAt leaf loc L := by
  obtain ⟨str, desc, push, -, -, hpush, heq⟩ : ∃ str desc push, _ ∧ _ ∧ _ ∧
    fillSwitch set mem fill T buf count hd = _ := fillSwitch_eq T buf count hd
  rw [heq, returns_bind] at hr
  obtain ⟨x, k, hfind, hr⟩ := hr
  rw [Returns, findOrAddLeaf_eq] at hfind
  obtain ⟨hx, hk⟩ := hfind
  cases hleaf : i.leafFor set.fAutoAdd T str desc hd.tag hd.num with
  | none =>
    simp only [hleaf, Option.map_none, Except.ok.injEq, Option.getD_none] at hx hk
    subst hx hk
    rw [(returns_pure.mp hr).2]
    exact h
  | some r =>
    obtain ⟨n, e⟩ := r
    simp only [hleaf, Option.map_some, Except.ok.injEq, Option.getD_some] at hx hk
    subst hx hk
    obtain ⟨he, hne⟩ := h.leafFor hleaf
    have hn : n ≠ loc := fun hloc => by simp [hne hloc] at hlead
    have hset (f : BankInfo) (l m : LeafPtr) (hl : f.leafs[n]? = some l)
        (hm : m.blank.clear = l.blank.clear) (hf : f.LeafAt leaf loc L) :
        (f.setLeaf n m).LeafAt leaf loc L := hf.setLeaf hn hl hm
    simp only [fillLeaf, returns_bind, returns_gets, returns_demand, returns_tell] at hr
    obtain ⟨_, _, ⟨rfl, rfl⟩, S, _, ⟨-, rfl⟩, _, e, rfl, hr⟩ := hr
    split at hr
    · simp only [returns_bind, returns_pure] at hr
      obtain ⟨_, f, hfill, _, g, hcall, -, rfl⟩ := hr
      have hf : f.LeafAt leaf loc L := by
        rw [← hfill.2]
        exact hpush _ n e he.plain (fun xs => preserves_pushLeaf hset T xs) he
      exact (preserves_callBack hset).returns hcall hf
    · exact absurd hr returns_halt

theorem prim_of_fillSwitch (h : i.LeafAt leaf loc L) (hlead : leaf (hd.tag, hd.num) = true)
    (hr : Returns (fillSwitch set mem fill T buf count hd) i stat j) : T = .prim .uint32 := by
  have hf := (h.leads _ _).mpr hlead
  obtain ⟨l, hl, -⟩ := h.leaf
  obtain ⟨str, desc, push, -, -, -, heq⟩ : ∃ str desc push, _ ∧ _ ∧ _ ∧
    fillSwitch set mem fill T buf count hd = _ := fillSwitch_eq T buf count hd
  rw [heq, returns_bind] at hr
  obtain ⟨x, k, hfind, hr⟩ := hr
  rw [Returns, findOrAddLeaf_found hf] at hfind
  obtain ⟨hx, rfl⟩ := hfind
  cases hx
  simp only [fillLeaf, hl, returns_bind, returns_gets, returns_demand, returns_tell] at hr
  obtain ⟨_, _, ⟨rfl, rfl⟩, S, _, ⟨hS, rfl⟩, _, _, rfl, hr⟩ := hr
  cases hS
  split at hr <;> rename_i hST
  · exact hST.symm
  · exact absurd hr returns_halt

theorem callBack_own {l : Leaf (.prim .uint32)} {xs : List (ElemType.prim .uint32).Val}
    (h : i.LeafAt leaf loc L) (hl : i.leafs[loc]? = some ⟨_, l⟩)
    (hcall : Returns (callBack loc) (i.setLeaf loc ⟨_, l.pushDataArray xs⟩) () j) :
    ∃ m, (l.pushDataArray xs).callBack = .ok m ∧ j.LeafAt leaf loc fun l => l = m := by
  have hlt := (List.getElem?_eq_some_iff.mp hl).1
  have hget : (i.setLeaf loc ⟨_, l.pushDataArray xs⟩).leafs[loc]? = some _ :=
    List.getElem?_set_self hlt
  obtain ⟨hout, hstate⟩ := hcall
  rw [callBack_apply, hget] at hout hstate
  dsimp only at hout hstate
  rw [LeafPtr.callBack] at hout hstate
  cases hcb : (l.pushDataArray xs).callBack with
  | error e =>
    rw [hcb] at hout
    cases hout
  | ok m =>
    have hblank : LeafPtr.clear (LeafPtr.blank ⟨_, m⟩) = LeafPtr.clear (LeafPtr.blank ⟨_, l⟩) := by
      have hptr : LeafPtr.callBack ⟨_, l.pushDataArray xs⟩ = .ok ⟨_, m⟩ := by
        rw [LeafPtr.callBack, hcb]
        rfl
      rw [LeafPtr.callBack_ok hptr]
      rfl
    rw [hcb] at hstate
    simp only [Except.map, setLeaf_setLeaf] at hstate
    subst hstate
    refine ⟨m, rfl, h.plain, ?_, m, ?_, rfl⟩
    · rw [findLeaf_of_keys (keys_setLeaf hl (LeafPtr.key_eq hblank))]
      exact h.leads
    · rw [leafs_setLeaf, List.getElem?_set_self hlt]

theorem fill_own (h : i.LeafAt leaf loc L) (hlead : leaf (hd.tag, hd.num) = true)
    (hread : T = .prim .uint32 → count = payload.length ∧ mem.Holds buf payload)
    (hr : Returns (fillSwitch set mem fill T buf count hd) i stat j) :
    ∃ l m, L l ∧ (l.pushDataArray (payload.map UInt32.toBitVec)).callBack = .ok m ∧
      j.LeafAt leaf loc fun l => l = m := by
  have hf := (h.leads _ _).mpr hlead
  obtain ⟨l, hl, hLl⟩ := h.leaf
  obtain rfl := prim_of_fillSwitch h hlead hr
  obtain ⟨rfl, hm⟩ := hread rfl
  rw [fillSwitch, returns_congr (addOrFillLeaf_found hf), returns_fillLeaf hl] at hr
  obtain ⟨d, hpush, hcall, -⟩ := hr
  rw [returns_congr (pushDataArray_plain (.inl h.plain)), Bank.pushDataArray, returns_bind] at hpush
  obtain ⟨xs, e, hread, hpush⟩ := hpush
  obtain ⟨-, helems, he⟩ := returns_readElems.mp hread
  rw [he] at hpush
  have hxs : xs = payload.map UInt32.toBitVec := Option.some.inj (helems.symm.trans hm.elems_words)
  rw [returns_pushLeaf, BankInfo.pushLeaf_eq hl] at hpush
  cases hpush
  obtain ⟨m, hcb, hj⟩ := callBack_own h hl hcall
  exact ⟨l, m, hLl, hxs ▸ hcb, hj⟩

end Fill

end BankInfo.LeafAt

section Visit

variable {k : Kind} {enclosing mark : UInt16} {buf depth : Int} {trees : List Tree}
  {contentType padding : Nat} {cont : Container}

theorem returns_visit_leaf (h : Returns (visit set mem fill k enclosing mark buf depth
      (.leaf tag num contentType padding payload)) b () c) :
    (leafCase contentType padding = none ∧ c = b) ∨ ∃ T n d stat j,
      leafCase contentType padding = some (T, n, d) ∧
      Returns (fillSwitch set mem fill T (buf + k.dataOffset) (payload.length * n - d)
        (k.decoded tag.toNat contentType num.toNat padding payload.length)) b.label stat j ∧
      c = b.setLabel j := by
  rw [visit] at h
  cases hcase : leafCase contentType padding with
  | none =>
    rw [hcase] at h
    exact .inl ⟨rfl, (returns_pure.mp h).2⟩
  | some r =>
    obtain ⟨T, n, d⟩ := r
    rw [hcase] at h
    simp only [returns_bind, returns_mapLog, returns_elemCount, returns_zoom, returns_pure, noteFill,
      returns_gets, returns_tell] at h
    obtain ⟨_, _, ⟨-, -, rfl, rfl⟩, stat, e, ⟨_, j, hi, ⟨_, _, ⟨rfl, rfl⟩, _, _, rfl, hfill⟩, rfl⟩, -, rfl⟩ := h
    cases hi
    exact .inr ⟨T, n, d, stat, j, rfl, hfill, rfl⟩

theorem returns_visit_container (h : Returns (visit set mem fill k enclosing mark buf depth
      (.container tag num cont trees)) b () c) :
    set.Prunes depth ∧ Returns (visitAll set mem fill cont.kind tag tag (buf + k.dataOffset)
      (depth + 1) trees) (b.mark tag num) () c ∨
    ¬set.Prunes depth ∧ (
      (∃ n d d', Bank.findBank b tag num = some n ∧ b.subs[n]? = some d ∧
        Returns (visitAll set mem fill cont.kind tag tag (buf + k.dataOffset) (depth + 1) trees)
          (Bank.mark tag num d) () d' ∧ c = b.setSub n d') ∨
      Bank.findBank b tag num = none ∧ ((∃ d, c = .node b.label (b.subs ++ [d])) ∨ c = b)) := by
  rw [visit, returns_bind] at h
  obtain ⟨x, e, hx, h⟩ := h
  obtain ⟨rfl, rfl⟩ := (returns_mapLog.mp hx).det returns_containerNodeHandler
  by_cases hprune : set.Prunes depth
  · rw [resolve_pruned hprune] at h
    exact .inl ⟨hprune, h⟩
  · refine .inr ⟨hprune, ?_⟩
    cases b with
    | node i bs =>
      cases hf : Bank.findBank (.node i bs) tag num with
      | some n =>
        have hlt : n < bs.length := Bank.findBank_lt hf
        have hn : bs[n]? = some bs[n] := List.getElem?_eq_getElem hlt
        rw [resolve_found hprune hf hn] at h
        obtain ⟨d, d', hd, hvisit, rfl⟩ := returns_zoom.mp h
        obtain rfl : Bank.mark tag num bs[n] = d := by simpa [hlt] using hd
        exact .inl ⟨n, bs[n], d', rfl, hn, hvisit, by simp [Rose.setSub]⟩
      | none =>
        refine .inr ⟨rfl, ?_⟩
        cases ha : set.fAutoAdd with
        | true =>
          rw [resolve_added hprune hf ha] at h
          obtain ⟨d, d', hd, hvisit, rfl⟩ := returns_zoom.mp h
          exact .inl ⟨d', by simp [Rose.setSub]⟩
        | false =>
          have hnone : resolve set tag num depth (.node i bs) = none := by
            have hprune' : ¬(depth < set.fChopLevel ∨ depth > set.fMaxLevel) := hprune
            simp [resolve, hprune', hf, ha]
          rw [hnone] at h
          exact .inr (returns_pure.mp h).2

theorem fillInv_address (fAutoAdd : Bool) (A : List UInt16 × List UInt16 × UInt8) :
    FillInv fAutoAdd fun i => i.address = A where
  svt _ _ _ h := h
  setLeaf _ _ _ _ _ _ h := h
  addLeaf _ _ _ _ _ _ _ h := h

def KeepsAddress (set : Settings) (mem : Mem) (fill : Nat) (t : Tree) : Prop :=
  ∀ (k : Kind) (enclosing mark : UInt16) (buf depth : Int) (b c : Bank),
    Returns (visit set mem fill k enclosing mark buf depth t) b () c →
    c.label.address = b.label.address

theorem keepsAddress_all (ih : ∀ t ∈ trees, KeepsAddress set mem fill t)
    (h : Returns (visitAll set mem fill k enclosing mark buf depth trees) b () c) :
    c.label.address = b.label.address := by
  induction trees generalizing mark buf b with
  | nil => rw [(returns_pure.mp h).2]
  | cons t ts iht =>
    obtain ⟨_, d, hd, h⟩ := returns_bind.mp h
    rw [iht (fun u hu => ih u (by simp [hu])) h, ih t (by simp) _ _ _ _ _ _ _ hd]

theorem keepsAddress (t : Tree) : KeepsAddress set mem fill t := by
  induction t using Tree.ind with
  | leaf tag num contentType padding payload =>
    intro k enclosing mark buf depth b c h
    obtain ⟨-, rfl⟩ | ⟨T, n, d, stat, j, -, hfill, rfl⟩ := returns_visit_leaf h
    · rfl
    · rw [label_setLabel, ← hfill.2]
      exact (fillInv_address _ b.label.address).fillSwitch rfl rfl _ _ _ _
  | container tag num cont trees ih =>
    intro k enclosing mark buf depth b c h
    obtain ⟨-, h⟩ | ⟨-, ⟨n, d, d', -, -, -, rfl⟩ | ⟨-, ⟨d, rfl⟩ | rfl⟩⟩ := returns_visit_container h
    · rw [keepsAddress_all ih h, address_mark]
    · rw [Rose.label_setSub]
    · rfl
    · rfl

end Visit

theorem findBank_of_addresses {i j : BankInfo} {bs cs : List Bank}
    (h : cs.map (fun c => c.label.address) = bs.map fun b => b.label.address) :
    Bank.findBank (.node j cs) = Bank.findBank (.node i bs) := by
  have hfind (i : BankInfo) (bs : List Bank) (tag : UInt16) (num : UInt8) :
      Bank.findBank (.node i bs) tag num = (bs.map fun b => b.label.address).findIdx? fun a =>
        a.1.contains tag && (num == 0 || a.2.2 == 0 || a.2.2 == num) := by
    rw [List.findIdx?_map]
    rfl
  funext tag num
  rw [hfind, hfind, h]

theorem addresses_set (hc : bs[n]? = some c) (hd : d.label.address = c.label.address) :
    (bs.set n d).map (fun c => c.label.address) = bs.map fun b => b.label.address := by
  obtain ⟨hlt, rfl⟩ := List.getElem?_eq_some_iff.mp hc
  rw [List.map_set, hd]
  apply List.ext_getElem <;> simp [List.getElem_set]
  rintro k hk rfl
  rfl

namespace Bank.Leads

theorem mono (h : Leads P path b) (hPQ : ∀ i, P i → Q i) : Leads Q path b := by
  induction h with
  | here h => exact .here (hPQ _ h)
  | sub hcls hn hlead _ ih => exact .sub hcls hn hlead ih

theorem mark (h : Leads P path b) (hP : ∀ i tag num, P i → P (i.setTag tag num)) (tag : UInt16)
    (num : UInt8) : Leads P path (b.mark tag num) := by
  cases h with
  | here h => exact .here (hP _ tag num h)
  | sub hcls hn hlead h => exact .sub hcls hn hlead h

theorem concat (h : Leads P path (.node i bs)) (d : Bank) : Leads P path (.node i (bs ++ [d])) := by
  cases h with
  | here h => exact .here h
  | @sub _ _ c n bank path hcls hn hlead h =>
    have hlt := (List.getElem?_eq_some_iff.mp hn).1
    refine .sub hcls ?_ (fun tag num => ?_) h
    · rw [List.getElem?_append_left hlt, hn]
    · rw [← hlead tag num]
      exact findIdx?_append_iff hlt

theorem of_sub {bank : TagNum → Bool} (h : Leads P ((n, bank) :: path) (.node i bs))
    (hn : bs[n]? = some c) : Leads P path c := by
  cases h with
  | @sub _ _ d _ _ _ hcls hd hlead h =>
    obtain rfl : d = c := Option.some.inj (hd.symm.trans hn)
    exact h

theorem setSub {m : Nat} {bank : TagNum → Bool} (h : Leads P ((n, bank) :: path) (.node i bs))
    (hm : bs[m]? = some c) (hd : d.label.address = c.label.address)
    (hsame : m ≠ n → ∀ i, P i → Q i) (hsub : m = n → Leads P path c → Leads Q path d) :
    Leads Q ((n, bank) :: path) (.node i (bs.set m d)) := by
  cases h with
  | @sub _ _ e _ _ _ hcls hn hlead h =>
    have hfind : findBank (.node i (bs.set m d)) = findBank (.node i bs) :=
      findBank_of_addresses (addresses_set hm hd)
    by_cases hmn : m = n
    · subst hmn
      obtain rfl : c = e := Option.some.inj (hm.symm.trans hn)
      have hlt := (List.getElem?_eq_some_iff.mp hm).1
      exact .sub hcls (List.getElem?_set_self hlt) (by rwa [hfind]) (hsub rfl h)
    · have hsame := hsame hmn
      exact .sub hcls (by rwa [List.getElem?_set_ne hmn]) (by rwa [hfind]) (h.mono hsame)

theorem clear (h : Leads P path b) (hcls : ∀ i, P i → i.cls = .bank)
    (hPQ : ∀ i, P i → Q { i with leafs := i.leafs.map LeafPtr.clear }) : Leads Q path b.clear := by
  induction h with
  | here h =>
    rw [clear_bank (hcls _ h)]
    exact .here (hPQ _ h)
  | @sub i bs c n bank path hi hn hlead h ih =>
    rw [clear_bank hi]
    have haddr : (bs.map Bank.clear).map (fun c => c.label.address) =
        bs.map fun c => c.label.address := by
      rw [List.map_map]
      exact List.map_congr_left fun c _ => address_clear
    refine .sub hi ?_ ?_ ih
    · rw [List.getElem?_map, hn]
      rfl
    · rw [findBank_of_addresses haddr]
      exact hlead

end Bank.Leads

section Trees

variable {S : Type} {At : S → Leaf (.prim .uint32) → Prop} {R : S → List UInt32 → S → Prop} {s : S}
  {k : Kind} {enclosing mark : UInt16} {buf depth : Int} {trees : List Tree}
  {contentType padding : Nat} {cont : Container}

theorem payloads_nil : payloads leaf path [] = [] := by
  cases path <;> rfl

theorem payloads_append (xs ys : List Tree) :
    payloads leaf path (xs ++ ys) = payloads leaf path xs ++ payloads leaf path ys := by
  cases path with
  | nil => rw [payloads, List.filterMap_append, payloads, payloads]
  | cons p path => rw [payloads, List.flatMap_append, payloads, payloads]

theorem payloads_container {bank : TagNum → Bool} : payloads leaf ((n, bank) :: path)
    [.container tag num cont trees] = if bank (tag, num) then payloads leaf path trees else [] := by
  simp [payloads]

theorem fillInv_cls (fAutoAdd : Bool) : FillInv fAutoAdd fun i => i.cls = .bank where
  svt _ _ _ h := by rw [h, BankClass.mapSVT]
  setLeaf _ _ _ _ _ _ h := h
  addLeaf _ _ _ _ _ _ _ h := h

def Tree.body : Tree → List UInt32
  | .leaf _ _ _ _ payload => payload
  | .container _ _ c trees => Tree.encodeAll c.kind trees

theorem Tree.holds_body {t : Tree} (h : mem.Holds buf (t.encode k)) :
    mem.Holds (buf + k.dataOffset) t.body := by
  cases t with
  | leaf tag num contentType padding payload =>
    have hbody := h.append.2
    rwa [Kind.length_header] at hbody
  | container tag num c trees =>
    have hbody := h.append.2
    rwa [Kind.length_header] at hbody

/-- The contents of the leaf, `s` as `At` has it, change with every payload by `R`. -/
def Takes (At : S → Leaf (.prim .uint32) → Prop) (R : S → List UInt32 → S → Prop) : Prop :=
  ∀ s l payload m, At s l → (l.pushDataArray (payload.map UInt32.toBitVec)).callBack = .ok m →
    ∃ s', R s payload s' ∧ At s' m

def Bank.Fills (leaf : TagNum → Bool) (loc : Nat) (path : List (Nat × (TagNum → Bool)))
    (At : S → Leaf (.prim .uint32) → Prop) (R : S → List UInt32 → S → Prop) (s : S)
    (wss : List (List UInt32)) (c : Bank) : Prop :=
  ∃ s', Steps R s wss s' ∧ Leads (BankInfo.LeafAt leaf loc (At s')) path c

def Brings (set : Settings) (mem : Mem) (fill : Nat) (leaf : TagNum → Bool) (loc : Nat)
    (At : S → Leaf (.prim .uint32) → Prop) (R : S → List UInt32 → S → Prop) (t : Tree) : Prop :=
  ∀ (k : Kind) (enclosing mark : UInt16) (buf depth : Int) (path : List (Nat × (TagNum → Bool)))
    (s : S) (b c : Bank), b.Leads (BankInfo.LeafAt leaf loc (At s)) path →
    mem.Holds (buf + k.dataOffset) t.body →
    Returns (visit set mem fill k enclosing mark buf depth t) b () c →
    c.Fills leaf loc path At R s (payloads leaf path (t.prune set depth))

theorem brings_leaf (hAt : Takes At R) :
    Brings set mem fill leaf loc At R (.leaf tag num contentType padding payload) := by
  intro k enclosing mark buf depth path s b c h hm hr
  rw [Tree.prune]
  obtain ⟨hcase, rfl⟩ | ⟨T, n, d, stat, j, hcase, hfill, rfl⟩ := returns_visit_leaf hr
  · have hnone : payloads leaf path [.leaf tag num contentType padding payload] = [] := by
      cases path <;> simp [payloads, hcase]
    rw [hnone]
    exact ⟨s, .nil, h⟩
  · cases h with
    | sub hcls hn hlead h =>
      refine ⟨s, .nil, .sub ?_ hn hlead h⟩
      rw [← hfill.2]
      exact (fillInv_cls _).fillSwitch rfl hcls _ _ _ _
    | @here i bs h =>
      cases hleaf : leaf (tag, num) with
      | false =>
        have hnone : payloads leaf [] [.leaf tag num contentType padding payload] = [] := by
          simp [payloads, hleaf]
        rw [hnone]
        refine ⟨s, .nil, .here (h.fill_other ?_ hfill)⟩
        simpa [Kind.decoded] using hleaf
      | true =>
        have hone : payloads leaf [] [.leaf tag num contentType padding payload] = [payload] := by
          simp [payloads, hcase, hleaf]
        have hread : T = .prim .uint32 →
            payload.length * n - d = payload.length ∧ mem.Holds (buf + k.dataOffset) payload := by
          rintro rfl
          obtain ⟨rfl, rfl⟩ := leafCase_uint32 hcase
          exact ⟨by ring, hm⟩
        obtain ⟨l, m, hl, hcall, hj⟩ :=
          h.fill_own (by simpa [Kind.decoded] using hleaf) hread hfill
        obtain ⟨s', hstep, hm'⟩ := hAt s l payload m hl hcall
        rw [hone]
        refine ⟨s', .cons hstep .nil, .here (hj.mono ?_)⟩
        rintro _ rfl
        exact hm'

theorem brings_all (ih : ∀ t ∈ trees, Brings set mem fill leaf loc At R t)
    (h : b.Leads (BankInfo.LeafAt leaf loc (At s)) path)
    (hm : mem.Holds buf (Tree.encodeAll k trees))
    (hr : Returns (visitAll set mem fill k enclosing mark buf depth trees) b () c) :
    c.Fills leaf loc path At R s (payloads leaf path (Tree.pruneAll set depth trees)) := by
  induction trees generalizing mark buf b s with
  | nil =>
    rw [(returns_pure.mp hr).2]
    rw [Tree.pruneAll, payloads_nil]
    exact ⟨s, .nil, h⟩
  | cons t ts iht =>
    obtain ⟨_, d, hd, hr⟩ := returns_bind.mp hr
    obtain ⟨ht, hts⟩ := hm.append
    rw [Tree.pruneAll, payloads_append]
    obtain ⟨s', hsteps, hd⟩ := ih t (by simp) _ _ _ _ _ _ _ _ _ h (Tree.holds_body ht) hd
    obtain ⟨s'', hsteps', hc⟩ := iht (fun u hu => ih u (by simp [hu])) hd hts hr
    exact ⟨s'', hsteps.append hsteps', hc⟩

theorem brings_container (ih : ∀ t ∈ trees, Brings set mem fill leaf loc At R t) :
    Brings set mem fill leaf loc At R (.container tag num cont trees) := by
  intro k enclosing mark buf depth path s b c h hm hr
  have hmark (d : Bank) (hd : d.Leads (BankInfo.LeafAt leaf loc (At s)) path) :
      (Bank.mark tag num d).Leads (BankInfo.LeafAt leaf loc (At s)) path :=
    hd.mark (fun i tag num hi => hi.setTag tag num) tag num
  rw [Tree.prune]
  obtain ⟨hprune, hr⟩ | ⟨hprune, hr⟩ := returns_visit_container hr
  · rw [if_pos hprune]
    exact brings_all (k := cont.kind) ih (hmark b h) hm hr
  · rw [if_neg hprune]
    cases b with
    | node i bs =>
      cases path with
      | nil =>
        have hnone : payloads leaf []
            [.container tag num cont (Tree.pruneAll set (depth + 1) trees)] = [] := rfl
        rw [hnone]
        refine ⟨s, .nil, ?_⟩
        cases h with
        | here h =>
          obtain ⟨n, d, d', -, -, -, rfl⟩ | ⟨-, ⟨d, rfl⟩ | rfl⟩ := hr <;> exact .here h
      | cons p path =>
        obtain ⟨n, bank⟩ := p
        have hlead : ∀ tag num, Bank.findBank (.node i bs) tag num = some n ↔ bank (tag, num) = true := by
          cases h with
          | sub _ _ hlead _ => exact hlead
        rw [payloads_container]
        obtain ⟨m, d, d', hf, hd, hvisit, rfl⟩ | ⟨hf, hrest⟩ := hr
        · have haddr : d'.label.address = d.label.address := by
            rw [keepsAddress_all (fun t _ => keepsAddress t) hvisit, address_mark]
          by_cases hmn : m = n
          · subst hmn
            rw [if_pos ((hlead tag num).mp hf)]
            obtain ⟨s', hsteps, hd'⟩ : d'.Fills leaf loc path At R s _ :=
              brings_all (k := cont.kind) ih
                ((h.of_sub hd).mark (fun i tag num hi => hi.setTag tag num) tag num) hm hvisit
            exact ⟨s', hsteps, h.setSub hd haddr (absurd rfl) fun _ _ => hd'⟩
          · have hbank : bank (tag, num) = false := by
              have hne := hlead tag num
              rw [hf, Option.some.injEq] at hne
              simpa [hmn] using hne
            rw [hbank]
            exact ⟨s, .nil, h.setSub hd haddr (fun _ _ hi => hi) fun hmn' => absurd hmn' hmn⟩
        · have hbank : bank (tag, num) = false := by
            have hne := hlead tag num
            simpa [hf] using hne
          rw [hbank]
          refine ⟨s, .nil, ?_⟩
          obtain ⟨d, rfl⟩ | rfl := hrest
          · exact h.concat d
          · exact h

theorem brings (hAt : Takes At R) (t : Tree) : Brings set mem fill leaf loc At R t := by
  induction t using Tree.ind with
  | leaf tag num contentType padding payload => exact brings_leaf hAt
  | container tag num cont trees ih => exact brings_container ih

end Trees

section Event

variable {S : Type} {At : S → Leaf (.prim .uint32) → Prop} {R : S → List UInt32 → S → Prop} {s s' : S}
  {e : Event} {t : Tool}

theorem fills_visitEvent (hAt : Takes At R) (h : b.Leads (BankInfo.LeafAt leaf loc (At s)) path)
    (hr : Returns (visitEvent set e.buf.mem fill e.tag e.num e.container e.trees) b () c) :
    c.Fills leaf loc path At R s (payloads leaf path (e.contents set b.label)) ∧
      c.label.address = b.label.address := by
  have hmark := h.mark (fun i tag num hi => hi.setTag tag num) e.tag e.num
  have htraces : Traces (fun _ => True) (fun _ c =>
      c.Fills leaf loc path At R s (payloads leaf path (e.contents set b.label)) ∧
        c.label.address = b.label.address)
      (visitEvent set e.buf.mem fill e.tag e.num e.container e.trees) b := by
    rw [← address_mark]
    refine traces_visitEvent (fun hnil => ?_) fun trees htrees heq => ⟨fun _ _ => trivial, ?_⟩
    · rw [hnil, payloads_nil]
      exact ⟨⟨s, .nil, hmark⟩, rfl⟩
    · intro _ c hc
      refine ⟨?_, keepsAddress _ _ _ _ _ _ _ _ hc⟩
      have hbody : e.buf.mem.Holds (0 + Kind.bank.dataOffset)
          (Tree.container e.tag e.num e.container trees).body := by
        obtain rfl | rfl := htrees
        · exact Tree.holds_body e.holds
        · exact fun i hi => absurd hi (Nat.not_lt_zero i)
      rw [heq]
      exact brings hAt _ _ _ _ _ _ _ _ _ _ hmark hbody hc
  exact htraces.ends _ _ hr

theorem fills_readEvent (hAt : Takes At R) {z : S → S} (hz : ∀ s l, At s l → At (z s) l.clear)
    (hkeep : t.fFullErase = false) (e : Event) : ∃ F, ∀ fuel, F ≤ fuel → ∀ b c s r,
      b.Leads (BankInfo.LeafAt leaf loc (At s)) path →
      Returns (readEvent t fill fuel e.buf) b r c →
      c.Fills leaf loc path At R (z s) (payloads leaf path (e.contents t.set b.label)) ∧
        c.label.address = b.label.address := by
  obtain ⟨F, hF⟩ : ∃ F, ∀ fuel, F ≤ fuel → ∀ b, Follows
    (parseEvioBuff t.set e.buf.mem fill fuel >>= fun _ => pure ()) _ b := followsEvent e.wf e.holds
  refine ⟨F, fun fuel hfuel b c s r h hr => ?_⟩
  have hclear : t.clear b = b.clear := by
    rw [Tool.clear, hkeep]
    rfl
  obtain ⟨_, d, hd, hr⟩ := returns_bind.mp hr
  obtain rfl := returns_modify.mp hd
  have hunit : Returns (parseEvioBuff t.set e.buf.mem fill fuel >>= fun _ => pure ()) b.clear () c :=
    returns_bind.mpr ⟨r, c, hclear ▸ hr, returns_pure.mpr ⟨rfl, rfl⟩⟩
  have hleads : b.clear.Leads (BankInfo.LeafAt leaf loc (At (z s))) path :=
    h.clear (fun i hi => hi.plain) fun i hi => hi.clear (hz s)
  have hfills := fills_visitEvent hAt hleads ((hF fuel hfuel b.clear).returns.mpr hunit)
  rwa [contents_of_address address_clear, address_clear] at hfills

end Event

end EvioTool
