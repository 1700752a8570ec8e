import EvioTool.Defs.Mirror
import EvioTool.Laws.EventTree
import EvioTool.Laws.FillInv
import EvioTool.Lib.Run

namespace EvioTool

open Lib Exec

def BankClass.svt? : BankClass → Option SVTBank
  | .bank => none
  | .svtBank v | .svtBank2016 v => some v

def BankInfo.wordsAt (i : BankInfo) (loc : Nat) : List UInt32 :=
  (i.leafs[loc]?.map LeafPtr.words).getD []

namespace Fill

def wordLeaf (set : Settings) (f : Fill) : Option (Nat × BankInfo) :=
  f.node.leafFor set.fAutoAdd (.prim .uint32) (intStr f.header.tag f.header.num)
    "Auto added int leaf" f.header.tag f.header.num

/-- In an SVT bank the words for another leaf than `SVTleaf` are appended to that leaf, and
nothing is decoded. -/
def KeepsApart (set : Settings) (mem : Mem) (fill : Nat) (f : Fill) : Prop :=
  ∀ v loc i, f.node.cls.svt? = some v → f.type = .prim .uint32 →
    f.wordLeaf set = some (loc, i) → loc ≠ v.svtLeaf →
    ∃ stat j, Returns (f.exec set mem fill) f.node stat j ∧ j.cls.svt? = some v ∧
      j.wordsAt loc = f.node.wordsAt loc ++ f.payload

/-- The words are for `SVTleaf`, if they are for any leaf of an SVT bank. -/
def ForSVTLeaf (set : Settings) (f : Fill) : Prop :=
  ∀ v loc i, f.node.cls.svt? = some v → f.type = .prim .uint32 →
    f.wordLeaf set = some (loc, i) → loc = v.svtLeaf

end Fill

variable {set : Settings} {mem : Mem} {fill n loc : Nat} {v : SVTBank} {dat len : Int}
  {i j : BankInfo} {x : UInt32}

section Others

variable {I : BankInfo → Prop}

theorem preserves_readSVTWords (a : Int) : Preserves I (readSVTWords mem a) :=
  preserves_of_state (state_of_keeps fun _ => keeps_readSVTWords a)

theorem preserves_storeRaw (hpush : ∀ xs, Preserves I (pushLeaf v.svtLeaf (.prim .uint32) xs)) :
    Preserves I (v.storeRaw mem dat len) :=
  (preserves_of_state (state_of_keeps fun _ => keeps_readElems _ _ _ _)).bind hpush

variable (hsvt : ∀ i f, I i → I { i with cls := i.cls.mapSVT f })

include hsvt

theorem preserves_pushChan (cn : SVTWords) : Preserves I (SVTBank.pushChan cn) :=
  .when (preserves_modify fun i => hsvt i _)

theorem preserves_readChans (frameEnd : UInt32) :
    Preserves I (SVTBank.readChans mem dat frameEnd n x) := by
  induction n generalizing x with
  | zero => exact preserves_halt
  | succ n ih =>
    rw [SVTBank.readChans]
    split
    · exact (preserves_readSVTWords _).bind fun _ => (preserves_pushChan hsvt _).bind fun _ => ih
    · exact preserves_pure

theorem preserves_readFrames2016 : Preserves I (SVTBank2016.readFrames mem dat len n x) := by
  induction n generalizing x with
  | zero => exact preserves_halt
  | succ n ih =>
    rw [SVTBank2016.readFrames]
    split
    · exact (preserves_readSVTWords _).bind fun _ => (preserves_pushChan hsvt _).bind fun _ => ih
    · exact preserves_pure

variable (hpush : ∀ xs, Preserves I (pushLeaf v.svtLeaf (.prim .uint32) xs))

include hpush

theorem preserves_readFrames : Preserves I (v.readFrames mem dat len n x) := by
  induction n generalizing x with
  | zero => exact preserves_halt
  | succ n ih =>
    rw [SVTBank.readFrames]
    split
    · exact (preserves_readSVTWords _).bind fun _ =>
        (Preserves.when (preserves_modify fun i => hsvt i _)).bind fun _ =>
        (preserves_readChans hsvt _).bind fun _ => (preserves_readSVTWords _).bind fun _ =>
        (Preserves.when (preserves_modify fun i => hsvt i _)).bind fun _ =>
        (preserves_storeRaw hpush).when.bind fun _ => ih
    · exact preserves_pure

theorem preserves_pushDataArray2016 :
    Preserves I (SVTBank2016.pushDataArray v mem fill dat len) :=
  (preserves_readFrames2016 hsvt).bind fun _ =>
    (Preserves.when ((preserves_of_state (state_of_keeps fun _ => keeps_readWord _ _)).bind fun _ =>
      preserves_modify fun i => hsvt i _)).bind fun _ => (preserves_storeRaw hpush).when

theorem preserves_pushDataArray (hv : i.cls.svt? = some v) (hi : I i) :
    I (pushDataArray mem fill loc .uint32 dat len i).state := by
  rw [pushDataArray, gets_bind_apply]
  cases hc : i.cls with
  | bank => simp [hc, BankClass.svt?] at hv
  | svtBank u =>
    obtain rfl : u = v := by simpa [hc, BankClass.svt?] using hv
    exact preserves_readFrames hsvt hpush i hi
  | svtBank2016 u =>
    obtain rfl : u = v := by simpa [hc, BankClass.svt?] using hv
    exact preserves_pushDataArray2016 hsvt hpush i hi

end Others

theorem LeafPtr.words_blank (l : LeafPtr) : l.blank.words = l.words := by
  obtain ⟨T, l⟩ := l
  cases T with
  | prim t => cases t <;> rfl
  | string | fadc => rfl

namespace BankInfo

theorem wordsAt_setLeaf_ne {l : LeafPtr} {n : Nat} (h : n ≠ loc) :
    (i.setLeaf n l).wordsAt loc = i.wordsAt loc := by
  rw [wordsAt, leafs_setLeaf, List.getElem?_set_ne h, wordsAt]

theorem wordsAt_setLeaf_eq {l m : LeafPtr} (hl : i.leafs[loc]? = some l) (hm : m.words = l.words) :
    (i.setLeaf loc m).wordsAt loc = i.wordsAt loc := by
  have hlt := (List.getElem?_eq_some_iff.mp hl).1
  rw [wordsAt, leafs_setLeaf, List.getElem?_set_self hlt, wordsAt, hl]
  exact hm

theorem wordsAt_leafFor {fAutoAdd : Bool} {str desc : String} {tag : UInt16} {num : UInt8} {n : Nat}
    (h : i.leafFor fAutoAdd (.prim .uint32) str desc tag num = some (n, j)) :
    j.wordsAt loc = i.wordsAt loc ∧ j.cls = i.cls := by
  have hempty (m : Leaf (.prim .uint32)) (hdata : m.data = []) : LeafPtr.words ⟨_, m⟩ = [] := by
    change m.data.map UInt32.ofBitVec = []
    rw [hdata]
    rfl
  obtain ⟨hwords, -, hcls⟩ := i.look_leafFor (fun o => (o.map LeafPtr.words).getD []) hempty h loc
  exact ⟨hwords, hcls⟩

theorem wordsAt_callBack : (callBack loc i).state.wordsAt loc = i.wordsAt loc := by
  rw [callBack_apply]
  cases hl : i.leafs[loc]? with
  | none => rfl
  | some l =>
    dsimp only
    cases hc : l.callBack with
    | error e => rfl
    | ok m =>
      refine wordsAt_setLeaf_eq hl ?_
      rw [← LeafPtr.words_blank, LeafPtr.callBack_ok hc, LeafPtr.words_blank]

theorem wordsAt_pushLeaf {T : ElemType} {xs : List T.Val} {n : Nat} (h : n ≠ loc) :
    (EvioTool.pushLeaf n T xs i).state.wordsAt loc = i.wordsAt loc := by
  unfold EvioTool.pushLeaf
  cases hp : i.pushLeaf n T xs with
  | none => rfl
  | some j =>
    simp only [pushLeaf, Option.bind_eq_bind, Option.bind_eq_some_iff, Option.some.injEq] at hp
    obtain ⟨l, -, m, -, rfl⟩ := hp
    exact wordsAt_setLeaf_ne h

end BankInfo

section Empty

variable {y : UInt32}

theorem toNat_add_four_mod (x : UInt32) : (x + 4).toNat % 4 = x.toNat % 4 := by
  rw [UInt32.toNat_add]
  have h4 : (4 : UInt32).toNat = 4 := rfl
  omega

theorem lt_ofInt_of_empty (hx : x.toNat % 4 = 1) : x < UInt32.ofInt (0 - 1) := by
  have hmax : (UInt32.ofInt (0 - 1)).toNat = 2 ^ 32 - 1 := rfl
  have hlt := x.toNat_lt
  rw [UInt32.lt_iff_toNat_lt, hmax]
  omega

theorem mod_of_readChans {frameEnd : UInt32}
    (h : Returns (SVTBank.readChans mem dat frameEnd n x) i y j) : y.toNat % 4 = x.toNat % 4 := by
  induction n generalizing x i with
  | zero => exact absurd h returns_halt
  | succ n ih =>
    rw [SVTBank.readChans] at h
    split at h
    · obtain ⟨_, _, -, h⟩ := returns_bind.mp h
      obtain ⟨_, _, -, h⟩ := returns_bind.mp h
      rw [ih h, toNat_add_four_mod]
    · rw [(returns_pure.mp h).1]

theorem not_returns_readFrames_empty (hx : x.toNat % 4 = 1) :
    ¬Returns (v.readFrames mem dat 0 n x) i () j := by
  induction n generalizing x i with
  | zero => exact returns_halt
  | succ n ih =>
    rw [SVTBank.readFrames, if_pos (lt_ofInt_of_empty hx)]
    simp only [returns_bind]
    rintro ⟨_, _, -, _, _, -, y, _, hy, _, _, -, _, _, -, _, _, -, h⟩
    refine ih ?_ h
    rw [toNat_add_four_mod, mod_of_readChans hy, toNat_add_four_mod, hx]

theorem not_returns_readFrames2016_empty (hx : x.toNat % 4 = 1) :
    ¬Returns (SVTBank2016.readFrames mem dat 0 n x) i () j := by
  induction n generalizing x i with
  | zero => exact returns_halt
  | succ n ih =>
    rw [SVTBank2016.readFrames, if_pos (lt_ofInt_of_empty hx)]
    simp only [returns_bind]
    rintro ⟨_, _, -, _, _, -, h⟩
    refine ih ?_ h
    rw [toNat_add_four_mod, hx]

theorem not_returns_pushDataArray_empty (hv : i.cls.svt? = some v) :
    ¬Returns (pushDataArray mem fill loc .uint32 dat 0) i () j := by
  intro h
  rw [pushDataArray, returns_congr (gets_bind_apply _ _ i)] at h
  cases hc : i.cls with
  | bank => simp [hc, BankClass.svt?] at hv
  | svtBank u =>
    rw [hc] at h
    exact not_returns_readFrames_empty rfl h
  | svtBank2016 u =>
    rw [hc] at h
    obtain ⟨_, _, h, -⟩ := returns_bind.mp h
    exact not_returns_readFrames2016_empty rfl h

end Empty

theorem wordsAt_fill {f : Fill} {stat : Int} (hv : f.node.cls.svt? = some v)
    (hT : f.type = .prim .uint32) (hleaf : f.wordLeaf set = some (loc, i)) (hne : loc ≠ v.svtLeaf)
    (h : Returns (f.exec set mem fill) f.node stat j) :
    j.wordsAt loc = f.node.wordsAt loc ∧ f.count ≠ 0 := by
  obtain ⟨hwords, hcls⟩ : i.wordsAt loc = f.node.wordsAt loc ∧ i.cls = f.node.cls :=
    BankInfo.wordsAt_leafFor hleaf
  have hfind : Returns (findOrAddLeaf set.fAutoAdd (.prim .uint32) (intStr f.header.tag f.header.num)
      "Auto added int leaf" f.header.tag f.header.num) f.node (some loc) i := by
    rw [Returns, findOrAddLeaf_eq]
    rw [Fill.wordLeaf] at hleaf
    rw [hleaf]
    exact ⟨rfl, rfl⟩
  rw [Fill.exec, hT, fillSwitch, addOrFillLeaf, returns_bind] at h
  obtain ⟨_, _, hfound, h⟩ := h
  obtain ⟨rfl, rfl⟩ := hfound.det hfind
  simp only [fillLeaf, returns_bind, returns_gets, returns_demand, returns_tell] at h
  obtain ⟨_, _, ⟨rfl, rfl⟩, T, _, ⟨-, rfl⟩, _, i, rfl, h⟩ := h
  split at h
  · simp only [returns_bind, returns_pure] at h
    obtain ⟨_, d, hpush, _, e, hcall, -, rfl⟩ := h
    rw [← hcls] at hv
    have hd : d.wordsAt loc = i.wordsAt loc := by
      rw [← hpush.2]
      exact preserves_pushDataArray (I := fun k => k.wordsAt loc = i.wordsAt loc)
        (fun _ _ hk => hk) (fun xs k hk => (BankInfo.wordsAt_pushLeaf (Ne.symm hne)).trans hk) hv rfl
    refine ⟨?_, fun hzero => ?_⟩
    · rw [← hcall.2, BankInfo.wordsAt_callBack, hd, hwords]
    · rw [hzero] at hpush
      exact not_returns_pushDataArray_empty hv hpush
  · exact absurd h returns_halt

theorem Fill.Counted.words {f : Fill} (hf : f.Counted) (hT : f.type = .prim .uint32) :
    f.count = f.payload.length := by
  obtain ⟨contentType, padding, n, d, hcase, hcount⟩ := hf
  obtain ⟨rfl, rfl⟩ := leafCase_uint32 (hT ▸ hcase)
  rw [hcount]
  ring

theorem Fill.keepsApart_iff {f : Fill} (hf : f.Counted) :
    f.KeepsApart set mem fill ↔ f.ForSVTLeaf set := by
  constructor
  · intro h v loc i hv hT hleaf
    by_contra hne
    obtain ⟨stat, j, hr, -, hwords⟩ := h v loc i hv hT hleaf hne
    obtain ⟨hsame, hcount⟩ := wordsAt_fill hv hT hleaf hne hr
    rw [hsame, List.self_eq_append_right] at hwords
    rw [hf.words hT, hwords] at hcount
    exact hcount rfl
  · intro h v loc i hv hT hleaf hne
    exact absurd (h v loc i hv hT hleaf) hne

/-- SVT banks decode the words that are for their `SVTleaf`, which all words for them are to be. -/
theorem parseEvioBuff_svtLeaf {tag : UInt16} {num : UInt8} {c : Container} {trees : List Tree}
    (hw : (Tree.container tag num c trees).WF .bank)
    (hm : mem.Holds 0 ((Tree.container tag num c trees).encode .bank)) :
    (∃ F, ∀ fuel, F ≤ fuel → ∀ b, Follows (parseEvioBuff set mem fill fuel >>= fun _ => pure ())
      (visitEvent set mem fill tag num c trees) b) ∧
    ∀ b, (∀ f ∈ fills (visitEvent set mem fill tag num c trees b).log, f.KeepsApart set mem fill) ↔
      ∀ f ∈ fills (visitEvent set mem fill tag num c trees b).log, f.ForSVTLeaf set :=
  ⟨followsEvent hw hm, fun _ => forall₂_congr fun _ hf => Fill.keepsApart_iff (counted_visitEvent hf)⟩

def svtTrees (tag : UInt16) : List Tree :=
  [.container 51 0 .bank10 [.leaf tag 0 1 0 [9, 0x00020001, 0x00040003, 0x00060005, 0, 9]]]

def svtMem (tag : UInt16) : Mem :=
  Mem.ofList ((Tree.container 0 1 .bank10 (svtTrees tag)).encode .bank)

theorem wf_svtTrees : (Tree.container 0 1 .bank10 (svtTrees 3)).WF .bank ∧
    (Tree.container 0 1 .bank10 (svtTrees 57610)).WF .bank := by
  simp [svtTrees, Tree.WF, Tree.WFAll]
  decide

def svtTop : Bank :=
  .node { name := "EvioTool", title := "", tags := [0] }
    [.node { name := "SVT", title := "", tags := [51], cls := .svtBank2016 {}, leafs :=
      [⟨.prim .uint32, { name := "SVTLeaf", title := "", tag := 3, num := 0 }⟩] } []]

theorem parseEvioBuff_svtLeaf_three :
    (∃ F, ∀ fuel, F ≤ fuel → ∀ b,
      Follows (parseEvioBuff { fAutoAdd := true } (svtMem 3) 3 fuel >>= fun _ => pure ())
        (visitEvent { fAutoAdd := true } (svtMem 3) 3 0 1 .bank10 (svtTrees 3)) b) ∧
    ∀ f ∈ fills (visitEvent { fAutoAdd := true } (svtMem 3) 3 0 1 .bank10 (svtTrees 3) svtTop).log,
      f.KeepsApart { fAutoAdd := true } (svtMem 3) 3 := by
  have hloc : ∀ f ∈ fills (visitEvent { fAutoAdd := true } (svtMem 3) 3 0 1 .bank10 (svtTrees 3)
      svtTop).log, f.node.cls.svt?.map SVTBank.svtLeaf = some 0 ∧
        (f.wordLeaf { fAutoAdd := true }).map Prod.fst = some 0 := by decide
  refine ⟨(parseEvioBuff_svtLeaf wf_svtTrees.1 (Mem.holds_ofList _)).1, ?_⟩
  refine ((parseEvioBuff_svtLeaf wf_svtTrees.1 (Mem.holds_ofList _)).2 svtTop).mpr ?_
  intro f hf v loc i hv _ hleaf
  obtain ⟨hnode, hword⟩ := hloc f hf
  rw [hv] at hnode
  rw [hleaf] at hword
  exact (Option.some.inj hword).trans (Option.some.inj hnode).symm

theorem header_decoded :
    (Tree.container 0 1 .bank10 (svtTrees 57610)).WF .bank ∧
    (∃ f ∈ fills (visitEvent { fAutoAdd := true } (svtMem 57610) 3 0 1 .bank10 (svtTrees 57610)
        svtTop).log, ¬f.KeepsApart { fAutoAdd := true } (svtMem 57610) 3) ∧
    ∃ e, Returns (parseEvioBuff { fAutoAdd := true } (svtMem 57610) 3 6) svtTop 0 e ∧
      e.subs.map (fun b => (b.label.cls.svt?.map SVTBank.svtData,
        b.label.leafs.map fun l => (l.tagNum, l.words))) =
      [(some [⟨0x00020001, 0x00040003, 0x00060005, 0⟩], [((3, 0), []), ((57610, 0), [])])] := by
  refine ⟨wf_svtTrees.2, ⟨_, List.mem_of_getElem? (i := 0) rfl, fun h => ?_⟩, _, ⟨rfl, rfl⟩, by decide⟩
  obtain ⟨stat, j, hr, -, hwords⟩ := h _ _ _ rfl rfl rfl (by decide)
  rw [← hr.2] at hwords
  exact absurd hwords (by decide)

end EvioTool
