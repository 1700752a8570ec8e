import EvioTool.Defs.TriggerFilter
import EvioTool.Laws.Damage
import EvioTool.Laws.LeafPath
import EvioTool.Laws.StringLeaf
import EvioTool.Lib.Tracks

namespace EvioTool

open Lib Exec

variable {set : Settings} {mem : Mem} {fill loc : Nat} {σ : Type} {s : σ} {c start len buf : Int}
  {bs : List UInt8}

theorem tracks_byte (mem : Mem) (who : Reader) (c : Int) (s : σ) :
    Tracks (readLE mem who c 1) (mem.byte c) (fun x n t => n = x.toNat ∧ t = s) s := by
  have hbytes : mem.bytes c 1 = (mem.byte c).map fun x => [x] := by
    simp [Mem.bytes, List.range_succ]
    cases mem.byte c <;> rfl
  unfold readLE
  apply Tracks.tell_bind
  rw [hbytes]
  cases hx : mem.byte c with
  | none =>
    rw [Option.map_none, demand_none, halt_bind]
    exact tracks_halt
  | some x =>
    rw [Option.map_some, demand_some, pure_bind]
    exact tracks_pure ⟨by simp [leNat], rfl⟩

structure Lib.Mem.EndsWith (mem : Mem) (c : Int) (bs : List UInt8) : Prop where
  holds : mem.HoldsBytes c bs
  ends : mem.byte (c + bs.length) = none

theorem Lib.Mem.EndsWith.nil (h : mem.EndsWith c []) : mem.byte c = none := by
  simpa using h.ends

theorem Lib.Mem.EndsWith.head {x : UInt8} (h : mem.EndsWith c (x :: bs)) : mem.byte c = some x := by
  have := h.holds 0 (Nat.succ_pos _)
  rwa [Int.natCast_zero, add_zero, List.getElem_cons_zero] at this

theorem Lib.Mem.EndsWith.append {xs : List UInt8} (h : mem.EndsWith c (xs ++ bs)) :
    mem.EndsWith (c + xs.length) bs := by
  refine ⟨h.holds.append.2, ?_⟩
  rw [← h.ends, List.length_append, Nat.cast_add, add_assoc]

theorem Lib.Mem.EndsWith.tail {x : UInt8} (h : mem.EndsWith c (x :: bs)) : mem.EndsWith (c + 1) bs :=
  Mem.EndsWith.append (show mem.EndsWith c ([x] ++ bs) from h)

theorem Lib.Mem.EndsWith.of_words {a : Int} {ws : List UInt32} (h : mem.Holds a ws)
    (hend : mem (a + ws.length) = none) : mem.EndsWith (4 * a) (Mem.wordBytes ws) := by
  refine ⟨h.bytes, ?_⟩
  have haddr : (4 * a + ((Mem.wordBytes ws).length : Int)) / 4 = a + ws.length := by
    rw [Mem.length_wordBytes]
    omega
  rw [Mem.byte, haddr, hend, Option.map_none]

theorem tracks_readRun {k : Nat} (h : mem.EndsWith c bs) (hk : bs.length ≤ k) :
    Tracks (readRun mem k c) (if bs.dropWhile isprint = [] then none else some (bs.takeWhile isprint))
      (fun s r t => r = s ∧ t = s') s' := by
  induction bs generalizing c k with
  | nil =>
    rw [List.dropWhile_nil, if_pos rfl]
    cases k with
    | zero => exact tracks_halt
    | succ k =>
      have hbyte := tracks_byte mem .string c s'
      rw [h.nil] at hbyte
      exact hbyte.bind_none
  | cons x bs ih =>
    obtain ⟨k, rfl⟩ := Nat.exists_eq_add_of_le' (show 1 ≤ k from (Nat.succ_pos _).trans_le hk)
    have hbyte := tracks_byte mem .string c s'
    rw [h.head] at hbyte
    obtain ⟨n, t, hread, rfl, rfl⟩ := hbyte.of_some
    unfold readRun
    apply Tracks.after hread
    rw [UInt8.ofNat_toNat]
    dsimp only
    cases hx : isprint x with
    | true =>
      rw [if_pos rfl, List.dropWhile_cons_of_pos hx, List.takeWhile_cons_of_pos hx]
      have hrest := (ih h.tail (by simpa using hk)).map (k := (x :: ·)) (l := (x :: ·))
        (R := fun s r u => r = s ∧ u = t) fun _ _ _ hr => ⟨by rw [hr.1], hr.2⟩
      rwa [apply_ite (Option.map _)] at hrest
    | false =>
      rw [if_neg Bool.false_ne_true, List.dropWhile_cons_of_neg (by simp [hx]),
        List.takeWhile_cons_of_neg (by simp [hx]), if_neg (List.cons_ne_nil _ _)]
      exact tracks_pure ⟨rfl, rfl⟩

theorem tracks_readStrings {k m : Nat} (h : mem.EndsWith c bs) (hk : bs.length < k)
    (hm : bs.length < m) :
    Tracks (readStrings mem start len k c) (stringsIn m (len - (c - start)) bs)
      (fun ss r t => r = ss ∧ t = s') s' := by
  induction k generalizing c bs m with
  | zero => omega
  | succ k ih =>
    obtain ⟨m, rfl⟩ := Nat.exists_eq_add_of_le' (show 1 ≤ m by omega)
    have hbyte := tracks_byte mem .string c s'
    cases bs with
    | nil =>
      rw [h.nil] at hbyte
      exact hbyte.bind_none
    | cons x bs =>
      rw [h.head] at hbyte
      obtain ⟨n, t, hread, rfl, rfl⟩ := hbyte.of_some
      unfold readStrings stringsIn
      apply Tracks.after hread
      have hgo : (x.toNat ≠ 0x4 ∧ c - start < len) ↔ (x ≠ 0x4 ∧ 0 < len - (c - start)) := by
        rw [ne_eq, ne_eq, ← UInt8.toNat_inj, sub_pos]
        rfl
      rw [if_congr hgo rfl rfl]
      refine Tracks.ite (fun _ => ?_) fun _ => tracks_pure ⟨rfl, rfl⟩
      have hrun : Tracks (readRun mem k c) _ _ t :=
        tracks_readRun h (show (x :: bs).length ≤ k by omega)
      have hsplit := List.takeWhile_append_dropWhile (p := isprint) (l := x :: bs)
      cases hdrop : (x :: bs).dropWhile isprint with
      | nil =>
        rw [hdrop, if_pos rfl] at hrun
        exact hrun.bind_none
      | cons y rest =>
        rw [hdrop, if_neg (List.cons_ne_nil _ _)] at hrun
        obtain ⟨s, u, hrun, rfl, rfl⟩ := hrun.of_some
        apply Tracks.after hrun
        rw [hdrop] at hsplit
        generalize (x :: bs).takeWhile isprint = s at hsplit
        rw [← hsplit] at h hk hm
        have hend : mem.EndsWith (c + s.length + 1) rest := h.append.tail
        simp only [List.length_append, List.length_cons] at hk hm
        have hlen : len - (c + s.length + 1 - start) = len - (c - start) - s.length - 1 := by ring
        dsimp only
        rw [← hlen]
        exact (ih hend (by omega) (by omega)).map fun _ _ _ hr => ⟨by rw [hr.1], hr.2⟩

section Leaf

variable {i : BankInfo} {b : Bank} {hd : Header} {count : Int} {T : ElemType} {k : Kind}
  {enclosing mark : UInt16} {depth : Int} {tag : UInt16} {num : UInt8} {contentType padding : Nat}
  {payload : List UInt32}

theorem returns_fillSwitch_none (ha : set.fAutoAdd = false) (hf : i.findLeaf hd.tag hd.num = none) :
    Returns (fillSwitch set mem fill T buf count hd) i 0 i := by
  obtain ⟨str, desc, push, -, -, -, heq⟩ : ∃ str desc push, _ ∧ _ ∧ _ ∧
    fillSwitch set mem fill T buf count hd = _ := fillSwitch_eq T buf count hd
  have hfind : findOrAddLeaf set.fAutoAdd T str desc hd.tag hd.num i = ⟨.ok none, i, []⟩ := by
    rw [findOrAddLeaf_eq, BankInfo.leafFor, hf, ha]
    rfl
  rw [heq]
  exact Returns.bind ⟨congrArg Outcome.out hfind, congrArg Outcome.state hfind⟩
    (returns_pure.mpr ⟨rfl, rfl⟩)

theorem BankInfo.typeFor_of_leaf {S : ElemType} {l : Leaf S} (hf : i.findLeaf tag num = some loc)
    (hl : i.leafs[loc]? = some ⟨S, l⟩) : i.typeFor tag num = some S := by
  simp [typeFor, hf, hl]

theorem not_returns_fillSwitch {S : ElemType} {l : Leaf S} (hf : i.findLeaf hd.tag hd.num = some loc)
    (hl : i.leafs[loc]? = some ⟨S, l⟩) (hS : S ≠ T) (x : Int) (j : BankInfo) :
    ¬Returns (fillSwitch set mem fill T buf count hd) i x j := by
  intro hr
  obtain ⟨str, desc, push, -, -, -, heq⟩ : ∃ str desc push, _ ∧ _ ∧ _ ∧
    fillSwitch set mem fill T buf count hd = _ := fillSwitch_eq T buf count hd
  rw [heq, returns_bind] at hr
  obtain ⟨x, k, hfind, hr⟩ := hr
  rw [Returns, findOrAddLeaf_found hf] at hfind
  obtain ⟨hx, rfl⟩ := hfind
  cases hx
  simp only [fillLeaf, hl, returns_bind, returns_gets, returns_demand, returns_tell] at hr
  obtain ⟨_, _, ⟨rfl, rfl⟩, S', _, ⟨hS', rfl⟩, _, _, rfl, hr⟩ := hr
  cases hS'
  rw [if_neg hS] at hr
  exact returns_halt hr

theorem tracks_fillWords {l : Leaf (.prim .uint32)} (hcls : i.cls = .bank)
    (hf : i.findLeaf hd.tag hd.num = some loc) (hl : i.leafs[loc]? = some ⟨_, l⟩)
    (hm : mem.Holds buf payload) :
    Tracks (fillSwitch set mem fill (.prim .uint32) buf payload.length hd)
      (LeafPtr.callBack ⟨_, l.pushDataArray (payload.map UInt32.toBitVec)⟩).toOption
      (fun m _ j => j = i.setLeaf loc m) i := by
  have hlt : loc < i.leafs.length := (List.getElem?_eq_some_iff.mp hl).1
  have hpush : Returns (pushDataArray mem fill loc .uint32 buf payload.length) i ()
      (i.setLeaf loc ⟨_, l.pushDataArray (payload.map UInt32.toBitVec)⟩) := by
    rw [returns_congr (pushDataArray_plain (.inl hcls)), Bank.pushDataArray]
    refine Returns.bind (returns_readElems.mpr ⟨Int.natCast_nonneg _, ?_, rfl⟩)
      (returns_pushLeaf.mpr (BankInfo.pushLeaf_eq hl _))
    exact hm.elems_words
  have hget : (i.setLeaf loc ⟨_, l.pushDataArray (payload.map UInt32.toBitVec)⟩).leafs[loc]? =
      some ⟨_, l.pushDataArray (payload.map UInt32.toBitVec)⟩ := List.getElem?_set_self hlt
  have hcall := BankInfo.callBack_apply
    (i := i.setLeaf loc ⟨_, l.pushDataArray (payload.map UInt32.toBitVec)⟩) loc
  rw [hget] at hcall
  dsimp only at hcall
  refine Tracks.congr ?_ (addOrFillLeaf_found hf)
  cases hcb : LeafPtr.callBack ⟨_, l.pushDataArray (payload.map UInt32.toBitVec)⟩ with
  | error e =>
    rw [hcb] at hcall
    intro r j hr
    obtain ⟨d, hd, hcalled, -⟩ := (returns_fillLeaf hl).mp hr
    obtain ⟨-, rfl⟩ := hpush.det hd
    have hout := hcalled.1
    rw [hcall] at hout
    cases hout
  | ok m =>
    rw [hcb] at hcall
    refine ⟨1, i.setLeaf loc m, (returns_fillLeaf hl).mpr ⟨_, hpush, ?_, rfl⟩, rfl⟩
    rw [Returns, hcall]
    exact ⟨rfl, BankInfo.setLeaf_setLeaf _ _ _⟩

theorem tracks_fillStrings {l : Leaf .string} {bs : List UInt8} (hf : i.findLeaf hd.tag hd.num = some loc)
    (hl : i.leafs[loc]? = some ⟨_, l⟩) (hm : mem.EndsWith (4 * buf) bs) (hfill : bs.length < fill) :
    Tracks (fillSwitch set mem fill .string buf count hd) (stringsIn (bs.length + 1) count bs)
      (fun ss _ j => j = i.setLeaf loc ⟨_, l.pushDataArray ss⟩) i := by
  have hleaf : i.leafFor set.fAutoAdd .string (stringStr hd.tag hd.num) "Auto added string leaf"
      hd.tag hd.num = some (loc, i) := by rw [BankInfo.leafFor, hf]
  have hread : Tracks (readStrings mem (4 * buf) count fill (4 * buf)) _ _ i :=
    tracks_readStrings hm hfill (Nat.lt_succ_self bs.length)
  rw [sub_self, sub_zero] at hread
  have hiff (r : Int) (j : BankInfo) : Returns (fillSwitch set mem fill .string buf count hd) i r j ↔
      r = 1 ∧ ∃ xs, Returns (readStrings mem (4 * buf) count fill (4 * buf)) i xs i ∧
        j = i.setLeaf loc ⟨_, l.pushDataArray xs⟩ := by
    have h : Runs (fun _ => True) (fillSwitch set mem fill .string buf count hd) i r j ↔ _ :=
      runs_addOrFillLeafString_iff hleaf hl fun _ _ => trivial
    simp only [Runs, Logs, implies_true, and_true] at h
    exact h
  cases hss : stringsIn (bs.length + 1) count bs with
  | none =>
    rw [hss] at hread
    intro r j hr
    obtain ⟨-, xs, hxs, -⟩ := (hiff r j).mp hr
    exact hread _ _ hxs
  | some ss =>
    rw [hss] at hread
    obtain ⟨xs, j, hxs, rfl, rfl⟩ := hread
    exact ⟨1, _, (hiff _ _).mpr ⟨rfl, xs, hxs, rfl⟩, rfl⟩

theorem tracks_int32 (n : Int) : Tracks (int32 n) (if FitsInt n then some n else none)
    (fun m x t => x = m ∧ t = s) s := by
  unfold int32
  exact Tracks.ite (fun _ => tracks_pure ⟨rfl, rfl⟩) fun _ => tracks_halt

theorem tracks_elemCount (n k d : Int) : Tracks (elemCount n k d)
    (if FitsInt (n * k) ∧ FitsInt (n * k - d) then some (n * k - d) else none)
    (fun m x t => x = m ∧ t = s) s := by
  split
  · rename_i h
    exact ⟨_, s, returns_elemCount.mpr ⟨h.1, h.2, rfl, rfl⟩, rfl, rfl⟩
  · rename_i h
    intro x t hr
    obtain ⟨h1, h2, -⟩ := returns_elemCount.mp hr
    exact h ⟨h1, h2⟩

theorem tracks_visit_leaf {β : Type} {o : Option β} {P : β → Bank → Prop} {x : β}
    (hnone : leafCase contentType padding = none → o = some x ∧ P x b)
    (hsome : ∀ T n d, leafCase contentType padding = some (T, n, d) →
      ∃ o', o = (if FitsInt (payload.length * n) ∧ FitsInt (payload.length * n - d) then o' else none) ∧
        Tracks (fillSwitch set mem fill T (buf + k.dataOffset) (payload.length * n - d)
            (k.decoded tag.toNat contentType num.toNat padding payload.length)) o'
          (fun y _ j => P y (b.setLabel j)) b.label) :
    Tracks (visit set mem fill k enclosing mark buf depth (.leaf tag num contentType padding payload)) o
      (fun y _ c => P y c) b := by
  rw [visit]
  cases hcase : leafCase contentType padding with
  | none =>
    obtain ⟨rfl, hP⟩ := hnone hcase
    exact tracks_pure hP
  | some r =>
    obtain ⟨T, n, d⟩ := r
    obtain ⟨o', rfl, hfill⟩ := hsome T n d hcase
    have hcount := Tracks.mapLog (k := Sum.inl (β := Fill))
      (tracks_elemCount (s := b) payload.length n d)
    have hrest : (if FitsInt (payload.length * n) ∧ FitsInt (payload.length * n - d) then o' else none) =
        (if FitsInt (payload.length * n) ∧ FitsInt (payload.length * n - d) then
          some (payload.length * n - d) else none) >>= fun _ => o' := by split <;> rfl
    dsimp only
    rw [hrest]
    refine hcount.bind fun m count t hm hc => ?_
    obtain ⟨rfl, rfl⟩ := hc
    obtain rfl : (payload.length : Int) * n - d = count := by
      split at hm
      · exact Option.some.inj hm
      · cases hm
    have hid : o'.map id = o' := Option.map_id_apply
    rw [← hid]
    refine Tracks.map (l := id) (P := fun y _ c => P y c) ?_ fun _ _ _ hP => hP
    refine Tracks.zoom rfl ?_ fun _ _ _ hP => hP
    exact Tracks.gets_bind (Tracks.tell_bind (Tracks.mapLog hfill))

end Leaf

end EvioTool
