import EvioTool.Defs.Tree
import EvioTool.Lib.Shadow
import EvioTool.Laws.ParseBank

namespace EvioTool

open Lib Exec

def Obs.cast? : Obs → Option (ElemType × ElemType)
  | .filled have_ want => some (have_, want)
  | _ => none

def Note.cast? : Note → Option (ElemType × ElemType) := Sum.elim Obs.cast? fun _ => none

abbrev Quiet (m : Exec Halt Obs σ α) (s : σ) : Prop := Logs (fun o => Obs.cast? o = none) m s

variable {set : Settings} {mem : Mem} {fill : Nat} {k : Kind} {enclosing mark : UInt16}
  {buf depth : Int} {b : Bank}

section Quiet

variable {σ : Type} {s : σ}

theorem quiet_readWord (a : Int) : Quiet (readWord mem .parser a) s := by
  refine Logs.bind (logs_tell.mpr ?_) fun _ _ _ => logs_demand
  rfl

theorem quiet_readHeader (a : Int) (bankType : Nat) : Quiet (readHeader mem a bankType) s := by
  unfold readHeader
  split
  · exact (quiet_readWord _).bind fun _ _ _ => (quiet_readWord _).bind fun _ _ _ => logs_pure
  · exact (quiet_readWord _).bind fun _ _ _ => (quiet_readWord _).bind fun _ _ _ => logs_pure
  · exact (quiet_readWord _).bind fun _ _ _ => logs_pure
  · exact (quiet_readWord _).bind fun _ _ _ => logs_pure
  · exact (quiet_readWord _).bind fun _ _ _ => logs_pure
  · exact (quiet_readWord _).bind fun _ _ _ => logs_pure
  · exact logs_pure

theorem quiet_int32 (x : Int) : Quiet (int32 x) s := by
  unfold int32
  split
  · exact logs_pure
  · exact logs_halt

theorem quiet_readLength (contentType : Nat) (a : Int) : Quiet (readLength mem contentType a) s :=
  (quiet_readWord a).bind fun _ _ _ => logs_pure

end Quiet

/-- The executions agree, apart from what is noted and how the way is found. -/
abbrev Follows (m : Exec Halt Obs Bank Unit) (m' : Exec Halt Note Bank Unit) (b : Bank) : Prop :=
  Shadows Obs.cast? Note.cast? m m' b

theorem shadows_lift {σ : Type} {s : σ} (m : Exec Halt Obs σ α) :
    Shadows Obs.cast? Note.cast? m (mapLog .inl m) s := .mapLog fun _ => rfl

theorem shadows_return {σ : Type} {s : σ} (stat : Int) :
    Shadows Obs.cast? Note.cast? (return_ stat >>= fun _ => pure ()) (pure ()) s :=
  .skip (s := s) (a := stat) ⟨rfl, rfl⟩ (logs_return_ rfl) shadows_pure

theorem follows_then_return {m : Exec Halt Obs Bank Unit} {n : Exec Halt Note Bank Unit} {stat : Int}
    (h : Follows m n b) : Follows (m >>= fun _ => return_ stat >>= fun _ => pure ()) n b := by
  rw [← bind_pure n]
  exact .bind h fun _ _ _ => shadows_return stat

theorem shadows_noteFill {i : BankInfo} {f : BankInfo → Fill} {m : Exec Halt Obs BankInfo Int}
    (hm : (f i).exec set mem fill = m) :
    Shadows Obs.cast? Note.cast? m (noteFill set mem fill f) i := by
  subst hm
  refine Shadows.congr (.note (w := .inr (f i)) rfl (shadows_lift _)) ?_
  rw [noteFill, gets_bind_apply]

/-- The call at `buf` does what the visit of the tree there does. -/
def ParsesAs (set : Settings) (mem : Mem) (fill : Nat) (t : Tree) : Prop :=
  ∀ (k : Kind) (bankType : Nat) (enclosing mark : UInt16) (buf depth : Int),
    bankType ∈ k.bankTypes → t.WF k → mem.Holds buf (t.encode k) → (t.encode k).length < 2 ^ 31 →
    ∃ F, ∀ fuel, F ≤ fuel → ∀ b, Follows
      (parseBank set mem fill fuel buf bankType depth >>= fun _ => pure ())
      (visit set mem fill k enclosing mark buf depth t) b

theorem parsesAs_leaf (tag : UInt16) (num : UInt8) (contentType padding : Nat)
    (payload : List UInt32) : ParsesAs set mem fill (.leaf tag num contentType padding payload) := by
  intro k bankType enclosing mark buf depth hk hw hm hu
  obtain ⟨hleaf, hfit⟩ := hw
  simp only [Tree.encode, List.length_append, Kind.length_header] at hm hu
  have hh := headerAt_of_holds hk hfit hm.append.1
  have hlen : (k.decoded tag.toNat contentType num.toNat padding payload.length).length -
      (k.decoded tag.toNat contentType num.toNat padding payload.length).dataOffset = _ :=
    Kind.length_decoded (by omega)
  have hfits : FitsInt payload.length := fitsInt_natCast (by omega)
  refine ⟨1, fun fuel hF b => ?_⟩
  obtain ⟨fuel, rfl⟩ := Nat.exists_eq_add_of_le' hF
  rw [parseBank, visit, bind_assoc]
  refine .skip ((returns_readHeader hh).mpr ⟨rfl, rfl⟩) (quiet_readHeader _ _) ?_
  dsimp only
  rw [bind_assoc, hlen]
  refine .skip (returns_int32.mpr ⟨hfits, rfl, rfl⟩) (quiet_int32 _) ?_
  simp only [Kind.decoded]
  cases hcase : leafCase contentType padding with
  | none =>
    simp only [hleaf, Bool.false_eq_true, if_false]
    exact shadows_return _
  | some r =>
    obtain ⟨T, n, d⟩ := r
    dsimp only
    rw [bind_assoc]
    refine .bind (shadows_lift _) fun count t _ => ?_
    rw [bind_assoc]
    refine .bind (.zoom fun i _ => shadows_noteFill rfl) fun stat u _ => shadows_return _

theorem returns_readLength_header {σ : Type} {s : σ} {c : Container} {a : Int}
    {t contentType n padding len : Nat}
    (hfit : c.kind.Fits t contentType n padding len)
    (hm : mem.Holds a (c.kind.header t contentType n padding len)) :
    ∃ w, Returns (readLength mem c.contentType a) s w s ∧ w.toNat + 1 = c.kind.dataOffset + len := by
  have hread {w : UInt32} (h : mem a = some w) :
      Returns (readLength mem c.contentType a) s (w &&& childMask c.contentType) s := by
    simp [h]
  cases c with
  | bankE | bank10 =>
    obtain ⟨-, -, -, -, hl⟩ := hfit
    refine ⟨_, hread hm.head, ?_⟩
    rw [UInt32.toNat_and_of (n := 32) rfl, UInt32.toNat_ofNat_of_lt' hl]
    simp only [Container.kind, Kind.dataOffset]
    omega
  | segmentD | segment20 =>
    obtain ⟨ht, hc, -, hp, hl⟩ := hfit
    refine ⟨_, hread hm.head, ?_⟩
    rw [UInt32.toNat_and_of (n := 16) rfl,
      UInt32.toNat_ofNat_of_lt' (by norm_num [UInt32.size] at *; omega)]
    simp only [Container.kind, Kind.dataOffset]
    omega
  | tagsegmentC =>
    obtain ⟨ht, hc, -, -, hl⟩ := hfit
    refine ⟨_, hread hm.head, ?_⟩
    rw [UInt32.toNat_and_of (n := 16) rfl,
      UInt32.toNat_ofNat_of_lt' (by norm_num [UInt32.size] at *; omega)]
    simp only [Container.kind, Kind.dataOffset]
    omega

theorem Container.contentType_mem (c : Container) : c.contentType ∈ c.kind.bankTypes := by
  cases c <;> decide

theorem nextPos_header {σ : Type} {s : σ} {c : Container} {t contentType n padding len : Nat}
    {ws body : List UInt32} {a p : Int}
    (he : ws = c.kind.header t contentType n padding len ++ body) (hlen : body.length = len)
    (hfit : c.kind.Fits t contentType n padding len) (hm : mem.Holds a ws) (hp : 0 ≤ p)
    (hu : p + ws.length < 2 ^ 31) :
    0 < ws.length ∧ ∃ w, Returns (readLength mem c.contentType a) s w s ∧
      nextPos p w = p + ws.length := by
  subst he
  obtain ⟨w, hr, hn⟩ := returns_readLength_header (s := s) hfit hm.append.1
  have hk := c.kind.dataOffset_pos
  simp only [List.length_append, Kind.length_header, hlen] at hu ⊢
  refine ⟨by omega, w, hr, ?_⟩
  rw [nextPos, toInt32_eq] <;> omega

theorem Tree.encode_eq (k : Kind) (t : Tree) (hw : t.WF k) : ∃ tag contentType num padding len body,
    t.encode k = k.header tag contentType num padding len ++ body ∧ body.length = len ∧
      k.Fits tag contentType num padding len := by
  cases t with
  | leaf tag num contentType padding payload => exact ⟨_, _, _, _, _, _, rfl, rfl, hw.2⟩
  | container tag num c trees => exact ⟨_, _, _, _, _, _, rfl, rfl, hw.1⟩

theorem nextPos_tree {σ : Type} {s : σ} {c : Container} {t : Tree} {a p : Int} (hw : t.WF c.kind)
    (hm : mem.Holds a (t.encode c.kind)) (hp : 0 ≤ p)
    (hu : p + (t.encode c.kind).length < 2 ^ 31) :
    0 < (t.encode c.kind).length ∧ ∃ w, Returns (readLength mem c.contentType a) s w s ∧
      nextPos p w = p + (t.encode c.kind).length := by
  obtain ⟨tag, contentType, num, padding, len, body, he, hlen, hfit⟩ := t.encode_eq c.kind hw
  exact nextPos_header he hlen hfit hm hp hu

section Children

variable {c : Container} {trees : List Tree} {data bankLen p : Int}

theorem shadows_children_skip (hw : Tree.WFAll c.kind trees)
    (hm : mem.Holds (data + p) (Tree.encodeAll c.kind trees)) (hp : 0 ≤ p)
    (hl : p + (Tree.encodeAll c.kind trees).length = bankLen) (hu : bankLen < 2 ^ 31) :
    ∃ F, ∀ fuel, F ≤ fuel → ∀ b, Follows
      (children set mem fill fuel false data bankLen c.contentType depth p) (pure ()) b := by
  induction trees generalizing p with
  | nil =>
    refine ⟨1, fun fuel hF b => ?_⟩
    obtain ⟨fuel, rfl⟩ := Nat.exists_eq_add_of_le' hF
    simp only [Tree.encodeAll, List.length_nil] at hl
    rw [children, if_neg (by omega)]
    exact shadows_pure
  | cons t ts ih =>
    obtain ⟨ht, hts⟩ := hw
    obtain ⟨mh, mt⟩ := hm.append
    simp only [Tree.encodeAll, List.length_append, Nat.cast_add] at hl
    obtain ⟨F, hF⟩ := ih hts (by rwa [← add_assoc]) (by omega) (by omega)
    refine ⟨F + 1, fun fuel hfuel b => ?_⟩
    obtain ⟨fuel, rfl⟩ := Nat.exists_eq_add_of_le' hfuel
    obtain ⟨hpos, w, hr, hn⟩ := nextPos_tree (s := b) ht mh hp (by omega)
    rw [← add_assoc, children, if_pos (by omega)]
    refine .skip (a := ()) ⟨rfl, rfl⟩ logs_pure (.skip hr (quiet_readLength _ _) ?_)
    refine .skip (a := ()) ⟨rfl, rfl⟩ (logs_tell.mpr rfl) ?_
    rw [hn]
    exact hF _ (by omega) b

theorem shadows_children (ih : ∀ t ∈ trees, ParsesAs set mem fill t)
    (hw : Tree.WFAll c.kind trees) (hm : mem.Holds (data + p) (Tree.encodeAll c.kind trees))
    (hp : 0 ≤ p) (hl : p + (Tree.encodeAll c.kind trees).length = bankLen) (hu : bankLen < 2 ^ 31) :
    ∃ F, ∀ fuel, F ≤ fuel → ∀ b, Follows
      (children set mem fill fuel true data bankLen c.contentType depth p)
      (visitAll set mem fill c.kind enclosing mark (data + p) depth trees) b := by
  induction trees generalizing p mark with
  | nil =>
    refine ⟨1, fun fuel hF b => ?_⟩
    obtain ⟨fuel, rfl⟩ := Nat.exists_eq_add_of_le' hF
    simp only [Tree.encodeAll, List.length_nil] at hl
    rw [children, if_neg (by omega), visitAll]
    exact shadows_pure
  | cons t ts iht =>
    obtain ⟨ht, hts⟩ := hw
    obtain ⟨mh, mt⟩ := hm.append
    simp only [Tree.encodeAll, List.length_append, Nat.cast_add] at hl
    obtain ⟨F, hF⟩ := ih t (by simp) c.kind c.contentType enclosing mark (data + p) depth
      c.contentType_mem ht mh (by omega)
    obtain ⟨G, hG⟩ : ∃ G, ∀ fuel, G ≤ fuel → ∀ b, Follows _ (visitAll set mem fill c.kind enclosing
        (t.mark set depth mark) _ depth ts) b :=
      iht (fun u hu => ih u (by simp [hu])) hts (by rwa [← add_assoc]) (by omega) (by omega)
    refine ⟨max F G + 1, fun fuel hfuel b => ?_⟩
    obtain ⟨fuel, rfl⟩ := Nat.exists_eq_add_of_le' hfuel
    have hpos := (nextPos_tree (s := b) ht mh hp (by omega)).1
    rw [← add_assoc, children, if_pos (by omega), visitAll]
    refine .bind (hF _ (by omega) b) fun _ s _ => ?_
    obtain ⟨-, w, hr, hn⟩ := nextPos_tree (s := s) ht mh hp (by omega)
    refine .skip hr (quiet_readLength _ _) (.skip (a := ()) ⟨rfl, rfl⟩ (logs_tell.mpr rfl) ?_)
    rw [hn, add_assoc]
    exact hG _ (by omega) s

end Children

theorem parsesAs_container {tag : UInt16} {num : UInt8} {c : Container} {trees : List Tree}
    (ih : ∀ t ∈ trees, ParsesAs set mem fill t) :
    ParsesAs set mem fill (.container tag num c trees) := by
  intro k bankType enclosing mark buf depth hk hw hm hu
  obtain ⟨hfit, htrees⟩ := hw
  simp only [Tree.encode, List.length_append, Kind.length_header] at hm hu
  have hh := headerAt_of_holds hk hfit hm.append.1
  have hpay := hm.append.2
  rw [Kind.length_header, ← add_zero (buf + (k.dataOffset : Int))] at hpay
  have hlen : (k.decoded tag.toNat c.contentType num.toNat 0 (Tree.encodeAll c.kind trees).length).length -
      (k.decoded tag.toNat c.contentType num.toNat 0 (Tree.encodeAll c.kind trees).length).dataOffset = _ :=
    Kind.length_decoded (by omega)
  have hfits : FitsInt (Tree.encodeAll c.kind trees).length := fitsInt_natCast (by omega)
  have hbound : ((Tree.encodeAll c.kind trees).length : Int) < 2 ^ 31 := by omega
  have hcase (x : Int) : leafCase c.contentType x = none := by cases c <;> rfl
  have hcont : isContainer c.contentType = true := by cases c <;> rfl
  obtain ⟨F, hF⟩ : ∃ F, ∀ fuel, F ≤ fuel → ∀ b, Follows (children set mem fill fuel false
      (buf + k.dataOffset) _ c.contentType (depth + 1) 0) (pure ()) b :=
    shadows_children_skip htrees hpay le_rfl (zero_add _) hbound
  obtain ⟨G, hG⟩ : ∃ G, ∀ fuel, G ≤ fuel → ∀ b, Follows (children set mem fill fuel true
      (buf + k.dataOffset) _ c.contentType (depth + 1) 0)
      (visitAll set mem fill c.kind tag tag (buf + k.dataOffset + 0) (depth + 1) trees) b :=
    shadows_children ih htrees hpay le_rfl (zero_add _) hbound
  rw [add_zero] at hG
  refine ⟨max F G + 1, fun fuel hfuel b => ?_⟩
  obtain ⟨fuel, rfl⟩ := Nat.exists_eq_add_of_le' hfuel
  rw [← add_assoc, parseBank, visit, bind_assoc]
  refine .skip ((returns_readHeader hh).mpr ⟨rfl, rfl⟩) (quiet_readHeader _ _) ?_
  dsimp only
  rw [bind_assoc, hlen]
  refine .skip (returns_int32.mpr ⟨hfits, rfl, rfl⟩) (quiet_int32 _) ?_
  simp only [Kind.decoded, hcase, hcont, if_true, UInt16.ofNat_toNat, UInt8.ofNat_toNat]
  rw [bind_assoc]
  refine .bind (shadows_lift _) fun x d _ => ?_
  rw [bind_assoc]
  have hchildren (e : Bank) := hG (fuel + max F G) (Nat.le_add_left_of_le (le_max_right _ _)) e
  rcases x with _ | _ | i
  · exact follows_then_return (hF _ (Nat.le_add_left_of_le (le_max_left _ _)) d)
  · exact follows_then_return (hchildren d)
  · refine follows_then_return ?_
    simp only [onTarget, onSub, Option.isSome_some]
    exact .zoom fun e _ => hchildren e

theorem parsesAs (t : Tree) : ParsesAs set mem fill t := by
  induction t using Tree.ind with
  | leaf tag num contentType padding payload => exact parsesAs_leaf tag num contentType padding payload
  | container tag num c trees ih => exact parsesAs_container ih

section Event

variable {tag : UInt16} {num : UInt8} {c : Container} {trees : List Tree}

theorem follows_huge (hw : (Tree.container tag num c trees).WF .bank)
    (hm : mem.Holds 0 ((Tree.container tag num c trees).encode .bank))
    (hu : 2 ^ 31 ≤ (Tree.encodeAll c.kind trees).length + 2) (fuel : Nat) (b : Bank) :
    Follows (parseBank set mem fill (fuel + 2) 0 0x10 0 >>= fun _ => pure ()) (do
      let header := Kind.bank.decoded tag.toNat c.contentType num.toNat 0
        (Tree.encodeAll c.kind trees).length
      let _ ← mapLog .inl (int32 (header.length - header.dataOffset))
      visit set mem fill .bank tag tag 0 0 (.container tag num c [])) b := by
  obtain ⟨hfit, -⟩ := hw
  have hh : headerAt mem 0 0x10 = _ := headerAt_of_holds (k := .bank) (by decide) hfit hm.append.1
  have hcase (x : Int) : leafCase c.contentType x = none := by cases c <;> rfl
  have hcont : isContainer c.contentType = true := by cases c <;> rfl
  have hl : (Tree.encodeAll c.kind trees).length + 1 < 2 ^ 32 := hfit.2.2.2.2
  have hneg : ¬0 < toInt32 ((Tree.encodeAll c.kind trees).length + (Kind.bank.dataOffset : Int)) -
      (Kind.bank.dataOffset : Int) := by
    simp only [Kind.dataOffset]
    rw [toInt32_wrap] <;> omega
  have hchildren {live : Bool} : children set mem fill (fuel + 1) live (0 + Kind.bank.dataOffset)
      (toInt32 ((Tree.encodeAll c.kind trees).length + (Kind.bank.dataOffset : Int)) -
        (Kind.bank.dataOffset : Int)) c.contentType (0 + 1) 0 = pure () := by
    rw [children, if_neg hneg]
  rw [parseBank, visit, bind_assoc]
  refine .skip ((returns_readHeader hh).mpr ⟨rfl, rfl⟩) (quiet_readHeader _ _) ?_
  dsimp only
  rw [bind_assoc]
  refine .bind (shadows_lift _) fun len d hlen => ?_
  simp only [(returns_int32.mp hlen).2.1, Kind.decoded, hcase, hcont, if_true, UInt16.ofNat_toNat, UInt8.ofNat_toNat]
  rw [bind_assoc]
  refine .bind (shadows_lift _) fun x e _ => ?_
  rw [bind_assoc, hchildren]
  rcases x with _ | _ | i
  · exact follows_then_return shadows_pure
  · exact follows_then_return shadows_pure
  · refine follows_then_return ?_
    simp only [onTarget, onSub]
    exact .zoom fun e _ => shadows_pure

theorem followsEvent (hw : (Tree.container tag num c trees).WF .bank)
    (hm : mem.Holds 0 ((Tree.container tag num c trees).encode .bank)) :
    ∃ F, ∀ fuel, F ≤ fuel → ∀ b, Follows (parseEvioBuff set mem fill fuel >>= fun _ => pure ())
      (visitEvent set mem fill tag num c trees) b := by
  have hh : headerAt mem 0 0x10 = _ :=
    headerAt_of_holds (k := .bank) (by decide) hw.1 hm.append.1
  simp only [headerAt, Option.bind_eq_some_iff, Option.map_eq_some_iff, zero_add] at hh
  obtain ⟨w0, h0, w1, h1, hw01⟩ := hh
  obtain ⟨F, hF⟩ : ∃ F, ∀ fuel, F ≤ fuel → ∀ b,
      Follows (parseBank set mem fill fuel 0 0x10 0 >>= fun _ => pure ())
        (if (Tree.encodeAll c.kind trees).length + 2 < 2 ^ 31 then
            visit set mem fill .bank tag tag 0 0 (.container tag num c trees)
          else do
            let header := Kind.bank.decoded tag.toNat c.contentType num.toNat 0
              (Tree.encodeAll c.kind trees).length
            let _ ← mapLog .inl (int32 (header.length - header.dataOffset))
            visit set mem fill .bank tag tag 0 0 (.container tag num c [])) b := by
    by_cases hu : (Tree.encodeAll c.kind trees).length + 2 < 2 ^ 31
    · simp only [if_pos hu]
      refine parsesAs (.container tag num c trees) .bank 0x10 tag tag 0 0 (by decide) hw hm ?_
      simp only [Tree.encode, List.length_append, Kind.length_header, Kind.dataOffset]
      omega
    · simp only [if_neg hu]
      refine ⟨2, fun fuel hfuel b => ?_⟩
      obtain ⟨fuel, rfl⟩ := Nat.exists_eq_add_of_le' hfuel
      exact follows_huge hw hm (Nat.not_lt.mp hu) fuel b
  have htag : (w1 >>> 16).toUInt16 = tag := by
    simpa [bankHeader, Kind.decoded] using congrArg Header.tag hw01
  have hnum : (w1 &&& 0xFF).toUInt8 = num := by
    simpa [bankHeader, Kind.decoded] using congrArg Header.num hw01
  have hct : ((w1 >>> 8) &&& 0x3F).toNat = c.contentType := by
    simpa only [bankHeader, Kind.decoded] using congrArg Header.contentType hw01
  have hkind : (c.contentType ≠ 0x10 ∧ c.contentType ≠ 0xE) ↔ c.kind ≠ .bank := by
    cases c <;> decide
  refine ⟨F, fun fuel hfuel b => ?_⟩
  rw [parseEvioBuff, visitEvent, bind_assoc]
  refine .skip (returns_readWord.mpr ⟨h1, rfl⟩) (quiet_readWord _) ?_
  simp only [htag, hnum, hct, hkind]
  rw [bind_assoc]
  refine .bind ⟨rfl, rfl, rfl⟩ fun _ d _ => ?_
  rw [bind_assoc]
  refine .bind ⟨rfl, rfl, rfl⟩ fun pass e _ => ?_
  split
  · exact shadows_pure
  · split
    · exact shadows_pure
    · rw [bind_assoc]
      exact hF fuel hfuel e

end Event

section Notes

variable {P : Note → Prop} {tag : UInt16} {num : UInt8} {c : Container} {trees : List Tree}

def Fill.Counted (f : Fill) : Prop := ∃ contentType padding n d,
  leafCase contentType padding = some (f.type, n, d) ∧ f.count = f.payload.length * n - d

theorem leafCase_uint32 {contentType : Nat} {padding n d : Int}
    (h : leafCase contentType padding = some (.prim .uint32, n, d)) : n = 1 ∧ d = 0 := by
  rw [leafCase.eq_def] at h
  split at h <;> cases h <;> exact ⟨rfl, rfl⟩

theorem logs_visit (hobs : ∀ o, P (.inl o)) (hfill : ∀ f : Fill, f.Counted → P (.inr f)) (t : Tree)
    (k : Kind) (enclosing mark : UInt16) (buf depth : Int) (b : Bank) :
    Logs P (visit set mem fill k enclosing mark buf depth t) b := by
  have hlift {σ α : Type} {s : σ} {m : Exec Halt Obs σ α} : Logs P (mapLog .inl m) s :=
    logs_mapLog.mpr fun o _ => hobs o
  induction t using Tree.ind generalizing k enclosing mark buf depth b with
  | leaf tag num contentType padding payload =>
    rw [visit]
    cases hcase : leafCase contentType padding with
    | none => exact logs_pure
    | some r =>
      obtain ⟨T, n, d⟩ := r
      refine hlift.bind fun count c hc => ?_
      obtain ⟨-, -, hcount, -⟩ := returns_elemCount.mp (returns_mapLog.mp hc)
      refine Logs.bind (Logs.zoom fun i => ?_) fun _ _ _ => logs_pure
      refine logs_gets.bind fun f i hf => ?_
      obtain ⟨rfl, -⟩ := returns_gets.mp hf
      refine (logs_tell.mpr (hfill _ ?_)).bind fun _ _ _ => hlift
      exact ⟨contentType, padding, n, d, hcase, hcount⟩
  | container tag num c trees ih =>
    have hall (mark : UInt16) (buf depth : Int) (b : Bank) :
        Logs P (visitAll set mem fill c.kind tag mark buf depth trees) b := by
      induction trees generalizing mark buf b with
      | nil => exact logs_pure
      | cons t ts iht =>
        rw [visitAll]
        exact (ih t (by simp) _ _ _ _ _ _).bind fun _ _ _ =>
          iht (fun u hu => ih u (by simp [hu])) _ _ _
    rw [visit]
    refine hlift.bind fun x d _ => ?_
    match x with
    | none => exact logs_pure
    | some .self => exact hall _ _ _ _
    | some (.sub i) => exact .zoom fun _ => hall _ _ _ _

theorem logs_visitEvent (hobs : ∀ o, P (.inl o))
    (hvisit : ∀ trees b, b.label.thisTag = tag →
      Logs P (visit set mem fill .bank tag tag 0 0 (.container tag num c trees)) b) :
    Logs P (visitEvent set mem fill tag num c trees) b := by
  have htag : (b.setLabel (b.label.setTag tag num)).label.thisTag = tag := by
    cases b
    rfl
  unfold visitEvent
  refine logs_modify.bind fun _ d hd => ?_
  obtain rfl := returns_modify.mp hd
  refine logs_gets.bind fun pass e he => ?_
  obtain ⟨-, rfl⟩ := returns_gets.mp he
  dsimp only
  split
  · exact logs_pure
  · split
    · exact logs_pure
    · split
      · exact hvisit trees _ htag
      · refine Logs.bind (logs_mapLog.mpr fun o _ => hobs o) fun len d hd => ?_
        obtain rfl := (returns_int32.mp (returns_mapLog.mp hd)).2.2
        exact hvisit [] _ htag

theorem mem_fills {f : Fill} {log : List Note} : f ∈ fills log ↔ .inr f ∈ log := by
  simp [fills]

theorem counted_visitEvent {f : Fill}
    (hf : f ∈ fills (visitEvent set mem fill tag num c trees b).log) : f.Counted := by
  have hlogs : Logs (fun w => ∀ f, w = .inr f → f.Counted)
      (visitEvent set mem fill tag num c trees) b :=
    logs_visitEvent (fun _ _ h => nomatch h) fun trees b _ =>
      logs_visit (fun _ _ h => nomatch h) (fun f hf g hg => by cases hg; exact hf) _ _ _ _ _ _ b
  exact hlogs _ (mem_fills.mp hf) f rfl

end Notes

end EvioTool
