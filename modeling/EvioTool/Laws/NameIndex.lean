import Mathlib.Data.List.Nodup
import Mathlib.Data.List.Perm.Subperm
import Mathlib.Tactic.FinCases
import EvioTool.Defs.NameIndex
import EvioTool.Laws.FillInv
import EvioTool.Laws.Leak

namespace EvioTool

open Lib Exec

variable {set : Settings} {mem : Mem} {fill : Nat}

section Parse

variable {I : BankInfo → Prop}

theorem preserves_readHeader {σ : Type} {J : σ → Prop} (buf : Int) (bankType : Nat) :
    Preserves J (readHeader mem buf bankType : Exec Halt Obs σ _) := Bank.keeps_readHeader.preserves

theorem preserves_onSub {m : Exec Halt Obs Bank α} (i : Nat) :
    Preserves (fun b : Bank => I b.label) (onSub i m) := by
  intro b hb
  cases hc : b.subs[i]? with
  | none => simpa [onSub, zoom, hc] using hb
  | some c => simpa [onSub, zoom, hc] using hb

theorem preserves_containerNodeHandler (hTag : ∀ i tag num, I i → I (i.setTag tag num))
    (tag : UInt16) (num : UInt8) (depth : Int) :
    Preserves (fun b : Bank => I b.label) (containerNodeHandler set tag num depth) := by
  unfold containerNodeHandler
  split
  · refine Preserves.bind (preserves_modify fun b hb => ?_) fun _ => preserves_pure
    cases b
    exact hTag _ _ _ hb
  · refine Preserves.bind (preserves_of_state fun _ => rfl) fun loc => ?_
    refine Preserves.bind (preserves_of_state fun _ => rfl) fun n => ?_
    split
    · exact (preserves_onSub _).bind fun _ => preserves_pure
    · refine Preserves.bind (preserves_modify fun b hb => ?_) fun _ =>
        (preserves_onSub _).bind fun _ => preserves_pure
      unfold Bank.addBank
      split <;> exact hb
    · exact preserves_pure

theorem FillInv.parse (h : FillInv set.fAutoAdd I)
    (hTag : ∀ i tag num, I i → I (i.setTag tag num)) (n : Nat) :
    (∀ buf bankType depth, Preserves (fun b : Bank => I b.label)
      (parseBank set mem fill n buf bankType depth)) ∧
    (∀ live data bankLen contentType depth p, Preserves (fun b : Bank => I b.label)
      (children set mem fill n live data bankLen contentType depth p)) := by
  induction n with
  | zero => exact ⟨fun _ _ _ => preserves_halt, fun _ _ _ _ _ _ => preserves_halt⟩
  | succ n ih =>
    obtain ⟨ihp, ihc⟩ := ih
    have hreturn (stat : Int) : Preserves (fun b : Bank => I b.label) (return_ stat) :=
      preserves_of_state fun _ => rfl
    constructor
    · intro buf bankType depth
      rw [parseBank]
      refine (preserves_readHeader _ _).bind fun x => ?_
      cases x with
      | none => exact hreturn _
      | some hd =>
        refine (keeps_int32 _).preserves.bind fun len => ?_
        cases leafCase hd.contentType hd.padding with
        | some r =>
          obtain ⟨T, k, s⟩ := r
          refine Preserves.bind ?_ fun m => ?_
          · exact ((keeps_int32 _).bind fun _ => keeps_int32 _).preserves
          · refine Preserves.bind (fun b hb => ?_) fun stat => hreturn _
            cases b
            exact h.fillSwitch rfl hb T _ _ hd
        | none =>
          dsimp only
          split
          · refine (preserves_containerNodeHandler hTag _ _ _).bind fun x => ?_
            refine Preserves.bind ?_ fun _ => hreturn _
            unfold onTarget
            split
            · exact preserves_onSub _
            · exact ihc _ _ _ _ _ _
          · exact hreturn _
    · intro live data bankLen contentType depth p
      rw [children]
      split
      · refine (ihp _ _ _).when.bind fun _ => ?_
        refine Preserves.bind ?_ fun w => ?_
        · exact ((keeps_readWord _ _).bind fun _ => keeps_pure).preserves
        · exact (preserves_of_state fun _ => rfl).bind fun _ => ihc _ _ _ _ _ _
      · exact preserves_pure

end Parse

theorem length_plus (name : String) (k : Nat) :
    ((fun s : String => s ++ "+")^[k] name).length = name.length + k := by
  induction k generalizing name with
  | zero => rfl
  | succ k ih =>
    have hplus : "+".length = 1 := rfl
    rw [Function.iterate_succ_apply, ih, String.length_append, hplus]
    omega

theorem mem_of_freshName_mem {keys : List String} {n : Nat} {name : String}
    (h : BankInfo.freshName keys n name ∈ keys) :
    ∀ k ≤ n, (fun s : String => s ++ "+")^[k] name ∈ keys := by
  induction n generalizing name with
  | zero =>
    intro k hk
    obtain rfl : k = 0 := by omega
    exact h
  | succ n ih =>
    rw [BankInfo.freshName] at h
    split at h
    · rename_i hname
      intro k hk
      cases k with
      | zero => simpa using hname
      | succ k =>
        rw [Function.iterate_succ_apply]
        exact ih h k (by omega)
    · rename_i hname
      exact absurd h (by simpa using hname)

theorem freshName_not_mem (keys : List String) (name : String) :
    BankInfo.freshName keys (keys.length + 1) name ∉ keys := by
  intro h
  have hall := mem_of_freshName_mem h
  let names := (List.range (keys.length + 2)).map fun k => (fun s : String => s ++ "+")^[k] name
  have hnodup : names.Nodup := by
    refine List.Nodup.map (fun k l hkl => ?_) List.nodup_range
    have hlen := congrArg String.length hkl
    simp only [length_plus] at hlen
    omega
  have hsub : names ⊆ keys := by
    intro n hn
    obtain ⟨k, hk, rfl⟩ := List.mem_map.mp hn
    exact hall k (by simpa [Nat.lt_succ_iff] using hk)
  have hle := (List.subperm_of_subset hnodup hsub).length_le
  simp only [names, List.length_map, List.length_range] at hle
  omega

def nameIndexOf (names : List String) : List (String × UInt16) :=
  names.zipIdx.map fun e => (e.1, UInt16.ofNat e.2)

@[simp] theorem keys_nameIndexOf (names : List String) :
    (nameIndexOf names).map Prod.fst = names := by
  simp [nameIndexOf, Function.comp_def]

@[simp] theorem nameIndexOf_nil : nameIndexOf [] = [] := rfl

theorem nameIndexOf_concat (names : List String) (name : String) :
    nameIndexOf (names ++ [name]) = nameIndexOf names ++ [(name, UInt16.ofNat names.length)] := by
  simp [nameIndexOf, List.zipIdx_append]

theorem locations_nameIndexOf {names : List String} (h : names.length < 65536) :
    (nameIndexOf names).map (fun e => e.2.toNat) = List.range names.length := by
  apply List.ext_getElem
  · simp [nameIndexOf]
  · intro k hk _
    have hk : k < names.length := by simpa [nameIndexOf] using hk
    simp [nameIndexOf, Nat.mod_eq_of_lt (hk.trans h)]

theorem lookup_of_mem {α β : Type} [BEq α] [LawfulBEq α] {xs : List (α × β)} {a : α} {b : β}
    (hnodup : (xs.map Prod.fst).Nodup) (h : (a, b) ∈ xs) : xs.lookup a = some b := by
  obtain ⟨ys, zs, rfl⟩ := List.append_of_mem h
  refine List.lookup_eq_some_iff.mpr ⟨ys, zs, rfl, fun y hy => ?_⟩
  simp only [List.map_append, List.map_cons, List.nodup_append, List.mem_map] at hnodup
  have hne := hnodup.2.2 y.1 ⟨y, hy, rfl⟩ a (.head _)
  simpa using Ne.symm hne

theorem lookup_nameIndexOf {names : List String} (hnodup : names.Nodup) {k : Nat} {name : String}
    (h : names[k]? = some name) : (nameIndexOf names).lookup name = some (UInt16.ofNat k) := by
  refine lookup_of_mem (by simpa using hnodup) ?_
  exact List.mem_map.mpr ⟨(name, k), List.mem_zipIdx_iff_getElem?.mpr h, rfl⟩

structure BankInfo.Indexed (i : BankInfo) (names : List String) : Prop where
  index : i.nameIndex = nameIndexOf names
  nodup : names.Nodup
  length : names.length = i.leafs.length

namespace BankInfo.Indexed

variable {i j : BankInfo} {names : List String} {name : String}

theorem add (h : i.Indexed names)
    (hindex : j.nameIndex = (i.storeLocation name i.leafs.length).2.nameIndex)
    (hleafs : j.leafs.length = i.leafs.length + 1) :
    j.Indexed (names ++ [(i.storeLocation name i.leafs.length).1]) := by
  have hkeys : i.nameIndex.map Prod.fst = names := by rw [h.index, keys_nameIndexOf]
  have hfresh : (i.storeLocation name i.leafs.length).1 ∉ names := by
    simp only [storeLocation, hkeys]
    exact freshName_not_mem _ _
  refine ⟨?_, ?_, ?_⟩
  · rw [hindex, nameIndexOf_concat, h.length, ← h.index]
    rfl
  · exact List.nodup_append.mpr ⟨h.nodup, List.nodup_singleton _, by
      rintro n hn _ hm rfl
      exact hfresh (List.mem_singleton.mp hm ▸ hn)⟩
  · simp [hleafs, h.length]

theorem congr (h : i.Indexed names) (hindex : j.nameIndex = i.nameIndex)
    (hleafs : j.leafs.length = i.leafs.length) : j.Indexed names :=
  ⟨hindex.trans h.index, h.nodup, h.length.trans hleafs.symm⟩

end BankInfo.Indexed

theorem Named.Describes.of_indexed {s : Named} (h : s.bank.label.Indexed s.names)
    (hlen : s.bank.label.leafs.length < 65536) : s.Describes where
  length := h.length
  keys := by
    rw [h.index, keys_nameIndexOf]
    exact h.nodup
  locations := by
    rw [h.index, locations_nameIndexOf (h.length ▸ hlen), h.length]
  found k name hk := by
    have hlt : k < s.names.length := (List.getElem?_eq_some_iff.mp hk).1
    have hk' : k < 65536 := by
      rw [h.length] at hlt
      omega
    simp only [BankInfo.findLeafByName, h.index, lookup_nameIndexOf h.nodup hk, Option.map_some,
      UInt16.toNat_ofNat', Option.some.injEq]
    exact Nat.mod_eq_of_lt hk'
  other name hname := by
    simp only [BankInfo.findLeafByName, h.index, Option.map_eq_none_iff]
    refine List.lookup_eq_none_iff.mpr fun e he => ?_
    have hmem : e.1 ∈ (nameIndexOf s.names).map Prod.fst := List.mem_map_of_mem he
    rw [keys_nameIndexOf] at hmem
    simpa using fun heq : name = e.1 => hname (heq ▸ hmem)

theorem Named.newNames_eq (i j : BankInfo) :
    newNames i j = (j.leafs.map fun l => l.2.name).drop i.leafs.length := by
  rw [newNames, List.map_drop]

theorem BankInfo.names_setLeaf {i : BankInfo} {loc : Nat} {l m : LeafPtr}
    (hl : i.leafs[loc]? = some l) (hm : m.blank.clear = l.blank.clear) :
    ((i.setLeaf loc m).leafs.map fun l => l.2.name) = i.leafs.map fun l => l.2.name := by
  have hname := congrArg (fun l : LeafPtr => l.2.name) hm
  obtain ⟨hlt, rfl⟩ := List.getElem?_eq_some_iff.mp hl
  have hself : i.leafs.set loc i.leafs[loc] = i.leafs := List.set_getElem_self hlt
  have hset : (i.leafs.set loc m).map (fun l => l.2.name) =
      (i.leafs.set loc i.leafs[loc]).map fun l => l.2.name := by
    rw [List.map_set, List.map_set]
    exact congrArg _ hname
  rw [setLeaf, hset, hself]

theorem fillInv_indexed (fAutoAdd : Bool) (i₀ : BankInfo) (names : List String) :
    FillInv fAutoAdd fun i =>
      i₀.leafs.length ≤ i.leafs.length ∧ i.Indexed (names ++ Named.newNames i₀ i) where
  svt _ _ _ h := ⟨h.1, h.2.congr rfl rfl⟩
  setLeaf i loc l m hl hm h := by
    have hlen : (i.setLeaf loc m).leafs.length = i.leafs.length := by simp [BankInfo.setLeaf]
    have hnew : Named.newNames i₀ (i.setLeaf loc m) = Named.newNames i₀ i := by
      rw [Named.newNames_eq, Named.newNames_eq, BankInfo.names_setLeaf hl hm]
    rw [hnew, hlen]
    exact ⟨h.1, h.2.congr rfl hlen⟩
  addLeaf i T name tag num desc _ h := by
    have hlen : (i.addLeaf T name tag num desc).leafs.length = i.leafs.length + 1 := by
      simp [BankInfo.addLeaf, BankInfo.storeLocation]
    have hnew : Named.newNames i₀ (i.addLeaf T name tag num desc) =
        Named.newNames i₀ i ++ [(i.storeLocation name i.leafs.length).1] := by
      simp only [Named.newNames, BankInfo.addLeaf]
      rw [List.drop_append_of_le_length (by exact h.1), List.map_append]
      rfl
    rw [hnew, hlen, ← List.append_assoc]
    exact ⟨h.1.trans (Nat.le_succ _), h.2.add rfl hlen⟩

theorem indexed_parse {b : Bank} {names : List String} (h : b.label.Indexed names) (n : Nat)
    (buf : Int) (bankType : Nat) (depth : Int) :
    let c := (parseBank set mem fill n buf bankType depth b).state
    c.label.Indexed (names ++ Named.newNames b.label c.label) := by
  have hinv := fillInv_indexed set.fAutoAdd b.label names
  refine ((hinv.parse (fun _ _ _ h => ⟨h.1, h.2.congr rfl rfl⟩) n).1 buf bankType depth b ?_).2
  have hnone : Named.newNames b.label b.label = [] := by simp [Named.newNames]
  exact ⟨le_rfl, by simpa [hnone] using h⟩

def IndexOp.ErasesNone : IndexOp → Named → Prop
  | .clearFull, s => s.bank.label.cls = .bank → s.bank.label.leafs = []
  | _, _ => True

theorem label_clear (b : Bank) : (Bank.clear b).label.nameIndex = b.label.nameIndex ∧
    (Bank.clear b).label.leafs.length = b.label.leafs.length := by
  cases b with
  | node i bs =>
    by_cases hc : i.cls = .bank
    · rw [Bank.clear_bank hc]
      exact ⟨rfl, by simp⟩
    · rw [Bank.clear_svt hc]
      exact ⟨rfl, rfl⟩

theorem indexed_clear {s : Named} (h : s.bank.label.Indexed s.names) :
    (Bank.clear s.bank).label.Indexed s.names :=
  h.congr (label_clear _).1 (label_clear _).2

theorem indexed_register {s : Named} {i : BankInfo} {name : String}
    (h : s.bank.label.Indexed s.names)
    (hindex : i.nameIndex =
      (s.bank.label.storeLocation name s.bank.label.leafs.length).2.nameIndex)
    (hleafs : i.leafs.length = s.bank.label.leafs.length + 1) :
    (s.register name i).bank.label.Indexed (s.register name i).names := by
  have hlabel : (s.register name i).bank.label = i := by
    rw [Named.register]
    cases s.bank
    rfl
  rw [hlabel]
  exact h.add hindex hleafs

theorem indexed_exec {o : IndexOp} {s t : Named} (ho : o.Succeeds)
    (h : s.bank.label.Indexed s.names) (hkeep : o.ErasesNone s) (hr : Returns o.exec s () t) :
    t.bank.label.Indexed t.names := by
  cases o with
  | addLeaf T name itag inum desc =>
    obtain rfl := returns_modify.mp hr
    exact indexed_register h rfl (by simp [BankInfo.addLeaf, BankInfo.storeLocation])
  | addLeafOfType name itag inum desc type =>
    obtain rfl := returns_modify.mp hr
    obtain ⟨T, hT⟩ := Option.isSome_iff_exists.mp ho
    have hloc : ¬((s.bank.label.leafs.length : Int) < 0) := by omega
    simp only [BankInfo.addLeafOfType, hT, if_neg hloc]
    exact indexed_register h rfl (by simp [BankInfo.addLeaf, BankInfo.storeLocation])
  | add_Leaf l =>
    obtain rfl := returns_modify.mp hr
    exact indexed_register h rfl (by simp [BankInfo.add_Leaf, BankInfo.addThisLeaf])
  | addThisLeaf l =>
    obtain rfl := returns_modify.mp hr
    exact indexed_register h rfl (by simp [BankInfo.addThisLeaf])
  | parse set mem fill fuel buf bankType depth =>
    obtain ⟨b, c, hb, hc, rfl⟩ := returns_zoom.mp hr
    obtain rfl := Option.some.inj hb
    obtain ⟨a, d, ha, hd⟩ := returns_bind.mp hc
    obtain ⟨-, rfl⟩ := returns_pure.mp hd
    obtain rfl := ha.2
    exact indexed_parse h fuel buf bankType depth
  | clear =>
    obtain rfl := returns_modify.mp hr
    exact indexed_clear h
  | clearFull =>
    obtain rfl := returns_modify.mp hr
    unfold Named.clearFull
    split
    · rename_i hc
      have hnone := hkeep hc
      have hnames : s.names = [] := List.length_eq_zero_iff.mp (by rw [h.length, hnone]; rfl)
      refine ⟨?_, List.nodup_nil, rfl⟩
      have hindex := h.index
      rwa [hnames] at hindex
    · exact indexed_clear h
    · exact indexed_clear h

theorem not_describes_clearFull {s : Named} (h : s.bank.label.Indexed s.names)
    (he : ¬IndexOp.ErasesNone .clearFull s) :
    s.clearFull.bank.label.leafs = [] ∧ ¬s.clearFull.Describes := by
  obtain ⟨hc, hne⟩ := Classical.not_imp.mp he
  rw [Named.clearFull, hc]
  refine ⟨rfl, fun hd => hne ?_⟩
  have hlen := hd.locations.length_eq
  have hindex : s.bank.label.nameIndex.length = s.bank.label.leafs.length := by
    rw [h.index, ← h.length]
    simp [nameIndexOf]
  simp only [Bank.clearFull, Rose.label_node, List.length_map, List.length_range, hindex] at hlen
  exact List.length_eq_zero_iff.mp hlen

theorem exec_describes_iff {s : Named} {ops : List IndexOp} (h : s.bank.label.Indexed s.names)
    (hops : ∀ o ∈ ops, o.Succeeds) :
    After IndexOp.exec (fun _ s => s.bank.label.leafs.length < 65536 → s.Describes) ops s ↔
      Meets IndexOp.exec IndexOp.ErasesNone ops s := by
  refine after_iff_meets (I := fun s => s.bank.label.Indexed s.names) h ?_ ?_
  · intro o ho s t hs hkeep hr
    have ht := indexed_exec (hops o ho) hs hkeep hr
    exact ⟨ht, .of_indexed ht⟩
  · intro o ho s hs hno
    cases o with
    | clearFull =>
      obtain ⟨hnone, hnot⟩ := not_describes_clearFull hs hno
      refine ⟨_, returns_modify.mpr rfl, fun hd => hnot (hd ?_)⟩
      rw [hnone]
      simp
    | _ => exact absurd trivial hno

def BankInfo.bare (i : BankInfo) : BankInfo :=
  { i with leafs := [], nameIndex := [], thisTag := 0, thisNum := 0 }

structure BankInfo.TopNode (K i : BankInfo) : Prop where
  bare : i.bare = K
  indexed : ∃ names, i.Indexed names

variable {K i : BankInfo} {t : Tool} {fuel : Nat} {buf : EvioBuf} {b b' c c' : Bank}
  {r r' : Int}

theorem fillInv_topNode (fAutoAdd : Bool) (hK : K.cls = .bank) : FillInv fAutoAdd K.TopNode where
  svt i f _ h := by
    have hc : i.cls = .bank := by
      rw [← h.bare] at hK
      exact hK
    obtain ⟨names, hidx⟩ := h.indexed
    refine ⟨?_, names, hidx.congr rfl rfl⟩
    rw [← h.bare]
    simp only [BankInfo.bare, hc, BankClass.mapSVT]
  setLeaf i loc l m _ _ h := by
    obtain ⟨names, hidx⟩ := h.indexed
    exact ⟨h.bare, names, hidx.congr rfl (by simp [BankInfo.setLeaf])⟩
  addLeaf i T name tag num desc _ h := by
    obtain ⟨names, hidx⟩ := h.indexed
    exact ⟨h.bare, _, hidx.add rfl (by simp [BankInfo.addLeaf, BankInfo.storeLocation])⟩

theorem BankInfo.TopNode.setTag (h : K.TopNode i) (tag : UInt16) (num : UInt8) :
    K.TopNode (i.setTag tag num) := by
  obtain ⟨names, hidx⟩ := h.indexed
  exact ⟨h.bare, names, hidx.congr rfl rfl⟩

theorem BankInfo.TopNode.nameIndex (h : K.TopNode i) (hleafs : i.leafs = []) :
    i.nameIndex = [] := by
  obtain ⟨names, hidx⟩ := h.indexed
  have hnames : names = [] := List.length_eq_zero_iff.mp (by rw [hidx.length, hleafs]; rfl)
  rw [hidx.index, hnames, nameIndexOf_nil]

theorem topNode_parseEvioBuff (hK : K.cls = .bank) (h : K.TopNode b.label)
    (hr : Returns (parseEvioBuff set mem fill fuel) b r c) : K.TopNode c.label := by
  unfold parseEvioBuff at hr
  obtain ⟨w, d, hw, hr⟩ := returns_bind.mp hr
  obtain ⟨-, hd⟩ := returns_readWord.mp hw
  obtain ⟨_, e, he, hr⟩ := returns_bind.mp hr
  obtain ⟨pass, f, hf, hr⟩ := returns_bind.mp hr
  have htag : K.TopNode f.label := by
    rw [(returns_gets.mp hf).2, returns_modify.mp he, hd, label_setLabel]
    exact h.setTag _ _
  split at hr
  · obtain ⟨-, rfl⟩ := returns_pure.mp hr
    exact htag
  · split at hr
    · obtain ⟨-, rfl⟩ := returns_pure.mp hr
      exact htag
    · obtain ⟨a, g, hg, hr⟩ := returns_bind.mp hr
      obtain ⟨-, rfl⟩ := returns_pure.mp hr
      have hparse : Preserves (fun b : Bank => K.TopNode b.label)
          (parseBank set mem fill fuel 0 0x10 0) :=
        ((fillInv_topNode set.fAutoAdd hK).parse (fun _ _ _ h => h.setTag _ _) fuel).1 _ _ _
      exact hparse.returns hg htag

theorem BankInfo.TopNode.erased (h : K.TopNode b.label) (hleafs : b.label.leafs = [])
    (tag : UInt16) (num : UInt8) :
    (Bank.clearFull b).setLabel ((Bank.clearFull b).label.setTag tag num) =
      .node (K.setTag tag num) [] := by
  simp only [Bank.clearFull, Rose.setLabel, Rose.label_node, ← h.bare, BankInfo.setTag,
    BankInfo.bare, h.nameIndex hleafs]

theorem topNode_readEvent (hfull : t.fFullErase = true) (hK : K.cls = .bank)
    (h : K.TopNode b.label) (hleafs : b.label.leafs = [])
    (hr : Returns (readEvent t fill fuel buf) b r c) : K.TopNode c.label := by
  simp only [readEvent, returns_bind, returns_modify, Tool.clear, hfull, if_true] at hr
  obtain ⟨-, _, rfl, hr⟩ := hr
  have hclear : K.TopNode (Bank.clearFull b).label :=
    ⟨h.bare, [], h.nameIndex hleafs, List.nodup_nil, rfl⟩
  exact topNode_parseEvioBuff hK hclear hr

theorem readEvent_same (hfull : t.fFullErase = true) (h : K.TopNode b.label)
    (h' : K.TopNode b'.label) (hleafs : b.label.leafs = []) (hleafs' : b'.label.leafs = [])
    (hr : Returns (readEvent t fill fuel buf) b r c)
    (hr' : Returns (readEvent t fill fuel buf) b' r' c') : c' = c := by
  simp only [readEvent, returns_bind, returns_modify, Tool.clear, hfull, if_true] at hr hr'
  obtain ⟨-, _, rfl, hr⟩ := hr
  obtain ⟨-, _, rfl, hr'⟩ := hr'
  unfold parseEvioBuff at hr hr'
  obtain ⟨w, _, hw, hr⟩ := returns_bind.mp hr
  obtain ⟨w', _, hw', hr'⟩ := returns_bind.mp hr'
  obtain ⟨hword, rfl⟩ := returns_readWord.mp hw
  obtain ⟨hword', rfl⟩ := returns_readWord.mp hw'
  obtain rfl : w = w' := by simpa [hword] using hword'
  obtain ⟨_, d, hd, hr⟩ := returns_bind.mp hr
  obtain ⟨_, d', hd', hr'⟩ := returns_bind.mp hr'
  have hsame : d' = d := by
    rw [returns_modify.mp hd, returns_modify.mp hd', h.erased hleafs, h'.erased hleafs']
  rw [hsame] at hr'
  exact (hr.det hr').2

/-- The index describes the leaves after every operation if and only if no leaves are
erased; and where a reader erases none, the names that an event brings do not depend on the
events before it. -/
theorem index_describes_iff (b : Bank) (hindex : b.label.nameIndex = [])
    (hleafs : b.label.leafs = []) :
    (∀ ops : List IndexOp, (∀ o ∈ ops, o.Succeeds) →
      (After IndexOp.exec (fun _ s => s.bank.label.leafs.length < 65536 → s.Describes) ops
          { bank := b } ↔
        Meets IndexOp.exec IndexOp.ErasesNone ops { bank := b })) ∧
    ∀ (t : Tool) (fill fuel : Nat) (c c' : Bank) (bufs bufs' : List EvioBuf) (buf : EvioBuf),
      t.fFullErase = true → b.label.cls = .bank →
      let step := fun buf => readEvent t fill fuel buf >>= fun _ => pure ()
      Meets step (fun _ b => b.label.leafs = []) (bufs ++ [buf]) b →
      Meets step (fun _ b => b.label.leafs = []) (bufs' ++ [buf]) b →
      Returns (run step (bufs ++ [buf])) b () c → Returns (run step (bufs' ++ [buf])) b () c' →
      c'.map BankInfo.nameIndex = c.map BankInfo.nameIndex := by
  constructor
  · intro ops hops
    have hnew : b.label.Indexed [] := ⟨hindex, List.nodup_nil, congrArg List.length hleafs.symm⟩
    exact exec_describes_iff (s := { bank := b }) hnew hops
  · intro t fill fuel c c' bufs bufs' buf hfull hc step hm hm' hr hr'
    have hnew : b.label.bare.TopNode b.label :=
      ⟨rfl, [], hindex, List.nodup_nil, congrArg List.length hleafs.symm⟩
    have hstep (buf : EvioBuf) (d e : Bank) (hd : b.label.bare.TopNode d.label)
        (hdl : d.label.leafs = []) (hde : Returns (step buf) d () e) :
        b.label.bare.TopNode e.label := by
      obtain ⟨_, f, hf, hfe⟩ := returns_bind.mp hde
      obtain ⟨-, rfl⟩ := returns_pure.mp hfe
      exact topNode_readEvent hfull hc hd hdl hf
    obtain ⟨d, hd, hdl, hde⟩ :=
      run_last (I := fun d => b.label.bare.TopNode d.label) hstep hnew hm hr
    obtain ⟨d', hd', hdl', hde'⟩ :=
      run_last (I := fun d => b.label.bare.TopNode d.label) hstep hnew hm' hr'
    obtain ⟨_, f, hf, hfe⟩ := returns_bind.mp hde
    obtain ⟨_, f', hf', hfe'⟩ := returns_bind.mp hde'
    rw [(returns_pure.mp hfe).2, (returns_pure.mp hfe').2,
      readEvent_same hfull hd hd' hdl hdl' hf hf']

def erasingTool : Tool := { bank := emptyTop, set := { fAutoAdd := true }, fFullErase := true }

def nestedBuf : EvioBuf where
  words := [6, 0x00001000, 4, 0x00051000, 2, 0x00070100, 42]
  offset := 0

theorem index_describes_nested :
    After IndexOp.exec (fun _ s => s.bank.label.leafs.length < 65536 → s.Describes)
      [.clearFull, .addLeaf .string "Data" 5 0 "", .addLeaf .string "Data" 6 0 "", .clear]
      { bank := emptyTop } ∧
    let step := fun buf => readEvent erasingTool 0 9 buf >>= fun _ => pure ()
    (run step [nestedBuf, nestedBuf] emptyTop).state.map BankInfo.nameIndex =
      (run step [nestedBuf] emptyTop).state.map BankInfo.nameIndex := by
  constructor
  · refine ((index_describes_iff emptyTop rfl rfl).1 _ ?_).mpr ?_
    · intro o ho
      fin_cases ho <;> trivial
    · exact ⟨fun _ => rfl, fun _ _ => ⟨trivial, fun _ _ => ⟨trivial, fun _ _ => ⟨trivial,
        fun _ _ => trivial⟩⟩⟩⟩
  · refine (index_describes_iff emptyTop rfl rfl).2 erasingTool 0 9 _ _ [] [nestedBuf] nestedBuf
      rfl rfl ?_ ?_ ⟨rfl, rfl⟩ ⟨rfl, rfl⟩
    · exact ⟨rfl, fun _ _ => trivial⟩
    · refine ⟨rfl, ?_⟩
      rintro _ ⟨-, rfl⟩
      exact ⟨rfl, fun _ _ => trivial⟩

theorem clearFull_keeps_name :
    ¬∀ (b : Bank) (ops : List IndexOp), b.label.nameIndex = [] → b.label.leafs = [] →
      (∀ o ∈ ops, o.Succeeds) →
      After IndexOp.exec (fun _ s => s.bank.label.leafs.length < 65536 → s.Describes) ops
        { bank := b } := by
  intro h
  have hafter := h emptyTop [.addLeaf .string "Data" 5 0 "", .clearFull] rfl rfl fun o ho => by
    fin_cases ho <;> trivial
  have hcleared := ((hafter _ ⟨rfl, rfl⟩).2 _ ⟨rfl, rfl⟩).1 (by decide)
  exact absurd hcleared.locations.length_eq (by decide)

end EvioTool
