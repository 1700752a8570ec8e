import EvioTool.Laws.EventTree

/-! On a finite buffer the fillers finish, and so does the parser unless a length word
wraps the position of the child loop. -/

namespace EvioTool

open Lib Exec

/-- The loops had all the steps that they needed. -/
def Halt.Final (e : Halt) : Prop := e ≠ .fuel ∧ e ≠ .fillFuel

theorem Halt.final_outside : Final .outside := ⟨by decide, by decide⟩

theorem Halt.final_undefined : Final .undefined := ⟨by decide, by decide⟩

variable {Q : Obs → Prop} {mem : Mem} {N : Nat} {σ : Type} {s t : σ} {b : BankInfo}

section Reads

theorem stops_readWord {who : Reader} {a : Int} : Stops Halt.Final Q (readWord mem who a) s :=
  stops_tell.bind fun _ _ _ => stops_demand Halt.final_outside

theorem stops_readLE {who : Reader} {a : Int} {n : Nat} :
    Stops Halt.Final Q (readLE mem who a n) s :=
  stops_tell.bind fun _ _ _ => (stops_demand Halt.final_outside).bind fun _ _ _ => stops_pure

theorem stops_int32 {x : Int} : Stops Halt.Final Q (int32 x) s := by
  unfold int32
  split
  · exact stops_pure
  · exact stops_halt.mpr Halt.final_undefined

theorem stops_readElems {who : Reader} {t : Prim} {buf len : Int} :
    Stops Halt.Final Q (readElems mem who t buf len) s := by
  unfold readElems
  split
  · exact stops_halt.mpr Halt.final_undefined
  · exact stops_tell.bind fun _ _ _ => stops_demand Halt.final_outside

theorem stops_pushLeaf {loc : Nat} {T : ElemType} {xs : List T.Val} :
    Stops Halt.Final Q (pushLeaf loc T xs) b := by
  intro e h
  simp only [pushLeaf] at h
  split at h
  · cases h
  · cases h
    exact .inl Halt.final_undefined

theorem stops_basePushDataArray {who : Reader} {t : Prim} {loc : Nat} {buf len : Int} :
    Stops Halt.Final Q (Bank.pushDataArray mem who loc t buf len) b :=
  stops_readElems.bind fun _ _ _ => stops_pushLeaf

theorem lt_of_readWord {who : Reader} {a : Int} {w : UInt32} (hm : mem.Below N)
    (h : Returns (readWord mem who a) s w t) : 0 ≤ a ∧ a < N :=
  hm a w (returns_readWord.mp h).1

theorem lt_of_readLE {who : Reader} {a : Int} {n v : Nat} (hm : mem.Below N) (hn : 0 < n)
    (h : Returns (readLE mem who a n) s v t) : 0 ≤ a ∧ a < 4 * N := by
  simp only [readLE, returns_bind, returns_demand] at h
  obtain ⟨_, _, -, bs, _, ⟨hbs, -⟩, -⟩ := h
  exact hm.bytes hn hbs

end Reads

section SVT

theorem stops_readSVTWords {a : Int} : Stops Halt.Final Q (readSVTWords mem a) s :=
  stops_readWord.bind fun _ _ _ => stops_readWord.bind fun _ _ _ =>
    stops_readWord.bind fun _ _ _ => stops_readWord.bind fun _ _ _ => stops_pure

theorem lt_of_readSVTWords {a : Int} {v : SVTWords} (hm : mem.Below N)
    (h : Returns (readSVTWords mem a) s v t) : 0 ≤ a ∧ a + 3 < N := by
  simp only [readSVTWords, returns_bind] at h
  obtain ⟨_, _, h0, _, _, -, _, _, -, _, _, h3, -⟩ := h
  exact ⟨(lt_of_readWord hm h0).1, (lt_of_readWord hm h3).2⟩

theorem stops_pushChan {cn : SVTWords} : Stops Halt.Final Q (SVTBank.pushChan cn) b :=
  stops_modify.when

variable {dat : Int} (hm : mem.Below N) (hN : N ≤ 2 ^ 32) (hd : 0 < dat)

include hm hN hd

theorem toNat_of_readSVTWords {i : UInt32} {v : SVTWords}
    (h : Returns (readSVTWords mem (dat + i.toNat)) s v t) :
    i.toNat < N ∧ (i + 4).toNat = i.toNat + 4 := by
  have := lt_of_readSVTWords hm h
  exact ⟨by omega, UInt32.toNat_add_four (by omega)⟩

theorem le_of_readChans {frameEnd : UInt32} (n : Nat) {i j : UInt32} {c : BankInfo}
    (h : Returns (SVTBank.readChans mem dat frameEnd n i) b j c) : i.toNat ≤ j.toNat := by
  induction n generalizing i b with
  | zero => simp [SVTBank.readChans] at h
  | succ n ih =>
    rw [SVTBank.readChans] at h
    split at h
    · simp only [returns_bind] at h
      obtain ⟨_, _, hr, _, _, -, h⟩ := h
      obtain ⟨-, hi⟩ := toNat_of_readSVTWords hm hN hd hr
      have := ih h
      omega
    · simp only [returns_pure] at h
      simp [h.1]

theorem stops_readChans {frameEnd : UInt32} (n : Nat) (i : UInt32) (hn : 0 < n)
    (hi : N < n + i.toNat) : Stops Halt.Final Q (SVTBank.readChans mem dat frameEnd n i) b := by
  induction n generalizing i b with
  | zero => omega
  | succ n ih =>
    rw [SVTBank.readChans]
    split
    · refine stops_readSVTWords.bind fun _ _ hr => stops_pushChan.bind fun _ _ _ => ?_
      obtain ⟨hlt, h4⟩ := toNat_of_readSVTWords hm hN hd hr
      exact ih _ (by omega) (by omega)
    · exact stops_pure

theorem stops_readFrames {v : SVTBank} {len : Int} (n : Nat) (i : UInt32) (hn : 0 < n)
    (hi : N < n + i.toNat) : Stops Halt.Final Q (SVTBank.readFrames v mem dat len n i) b := by
  induction n generalizing i b with
  | zero => omega
  | succ n ih =>
    rw [SVTBank.readFrames]
    split
    · refine stops_readSVTWords.bind fun _ _ hr => ?_
      obtain ⟨hlt, h4⟩ := toNat_of_readSVTWords hm hN hd hr
      refine stops_modify.when.bind fun _ _ _ => ?_
      refine (stops_readChans hm hN hd n _ (by omega) (by omega)).bind fun j _ hj => ?_
      have := le_of_readChans hm hN hd n hj
      refine stops_readSVTWords.bind fun _ _ hr => ?_
      obtain ⟨hlt', h4'⟩ := toNat_of_readSVTWords hm hN hd hr
      refine stops_modify.when.bind fun _ _ _ => stops_basePushDataArray.when.bind fun _ _ _ => ?_
      exact ih _ (by omega) (by omega)
    · exact stops_pure

theorem stops_readFrames2016 {len : Int} (n : Nat) (i : UInt32) (hn : 0 < n)
    (hi : N < n + i.toNat) : Stops Halt.Final Q (SVTBank2016.readFrames mem dat len n i) b := by
  induction n generalizing i b with
  | zero => omega
  | succ n ih =>
    rw [SVTBank2016.readFrames]
    split
    · refine stops_readSVTWords.bind fun _ _ hr => stops_pushChan.bind fun _ _ _ => ?_
      obtain ⟨hlt, h4⟩ := toNat_of_readSVTWords hm hN hd hr
      exact ih _ (by omega) (by omega)
    · exact stops_pure

theorem stops_pushDataArray {fill loc : Nat} {t : Prim} {len : Int} (hf : N < fill) :
    Stops Halt.Final Q (pushDataArray mem fill loc t dat len) b := by
  refine stops_gets.bind fun c _ _ => ?_
  cases c with
  | bank => exact stops_basePushDataArray
  | svtBank v =>
    simp only [BankClass.pushDataArray]
    split
    · exact stops_readFrames hm hN hd _ _ (by omega) (by simp; omega)
    · exact stops_basePushDataArray
  | svtBank2016 v =>
    simp only [BankClass.pushDataArray]
    split
    · refine (stops_readFrames2016 hm hN hd _ _ (by omega) (by simp; omega)).bind fun _ _ _ => ?_
      refine (stops_readWord.bind fun _ _ _ => stops_modify).when.bind fun _ _ _ => ?_
      exact stops_basePushDataArray.when
    · exact stops_basePushDataArray

end SVT

section Decoders

variable (hm : mem.Below N)

include hm

theorem stops_readRun (k : Nat) (n : Int) (hk : 0 < k) (hn : 4 * (N : Int) < k + n) :
    Stops Halt.Final Q (readRun mem k n) s := by
  induction k generalizing n s with
  | zero => omega
  | succ k ih =>
    refine stops_readLE.bind fun c _ hr => ?_
    have := lt_of_readLE hm (by decide) hr
    dsimp only
    split
    · exact (ih (n + 1) (by omega) (by omega)).bind fun _ _ _ => stops_pure
    · exact stops_pure

theorem stops_readStrings {start len : Int} (k : Nat) (c : Int) (hk : 0 < k)
    (hc : 4 * (N : Int) + 1 < k + c) : Stops Halt.Final Q (readStrings mem start len k c) s := by
  induction k generalizing c s with
  | zero => omega
  | succ k ih =>
    refine stops_readLE.bind fun c0 _ hr => ?_
    have := lt_of_readLE hm (by decide) hr
    split
    · refine (stops_readRun hm k c (by omega) (by omega)).bind fun r _ _ => ?_
      exact (ih _ (by omega) (by omega)).bind fun _ _ _ => stops_pure
    · exact stops_pure

omit hm in
theorem stops_repeatEntry {entry : Int → Exec Halt Obs σ (FADCdata × Int)}
    (he : ∀ i s, Stops Halt.Final Q (entry i) s) (n : Nat) (indx : Int) :
    Stops Halt.Final Q (FADCdata.repeatEntry entry n indx) s := by
  induction n generalizing indx s with
  | zero => exact stops_pure
  | succ n ih =>
    exact (he indx s).bind fun _ _ _ => (ih _).bind fun _ _ _ => stops_pure

omit hm in
theorem stops_getNext {cbuf indx : Int} {n : Nat} :
    Stops Halt.Final Q (FADCdata.getNext mem cbuf indx n) s :=
  stops_readLE.bind fun _ _ _ => stops_int32.bind fun _ _ _ => stops_pure

omit hm in
theorem stops_ofSamples {cbuf : Int} {d : FADCdata} (indx : Int) :
    Stops Halt.Final Q (FADCdata.ofSamples mem cbuf d indx) s := by
  refine stops_getNext.bind fun _ _ _ => stops_getNext.bind fun _ _ _ => ?_
  dsimp only
  split
  · exact stops_halt.mpr Halt.final_undefined
  · exact stops_tell.bind fun _ _ _ => (stops_demand Halt.final_outside).bind fun _ _ _ =>
      stops_int32.bind fun _ _ _ => stops_int32.bind fun _ _ _ => stops_pure

omit hm in
theorem stops_readEntries {entry : Int → Exec Halt Obs σ (FADCdata × Int)}
    (he : ∀ i s, Stops Halt.Final Q (entry i) s) (cbuf indx : Int) :
    Stops Halt.Final Q (FADCdata.readEntries mem cbuf entry indx) s :=
  stops_getNext.bind fun _ _ _ => stops_repeatEntry he _ _

omit hm in
theorem stops_readHits {tag : UInt16} {cbuf : Int} {d : FADCdata} {indx : Int} :
    Stops Halt.Final Q (FADCdata.readHits mem tag cbuf d indx) s := by
  unfold FADCdata.readHits
  split
  · exact stops_readEntries (fun _ _ => stops_ofSamples _) _ _
  · split
    · exact stops_readEntries (fun _ _ => stops_getNext.bind fun _ _ _ => stops_pure) _ _
    · split
      · exact stops_readEntries (fun _ _ => stops_getNext.bind fun _ _ _ =>
          stops_getNext.bind fun _ _ _ => stops_pure) _ _
      · exact stops_pure

def Advances (entry : Int → Exec Halt Obs σ (FADCdata × Int)) : Prop :=
  ∀ i s r t, Returns (entry i) s r t → i ≤ r.2

omit hm in
theorem advances_getNext {cbuf indx : Int} {n : Nat} {p : Nat × Int}
    (h : Returns (FADCdata.getNext mem cbuf indx n) s p t) : indx ≤ p.2 := by
  obtain ⟨-, -, hp⟩ := FADCdata.returns_getNext.mp h
  omega

omit hm in
theorem advances_ofSamples {cbuf : Int} {d : FADCdata} :
    Advances fun i => (FADCdata.ofSamples mem cbuf d i : Exec Halt Obs σ _) := by
  intro i s r t h
  obtain ⟨⟨_, i₁⟩, _, h₁, h⟩ := returns_bind.mp h
  obtain ⟨⟨_, i₂⟩, _, h₂, h⟩ := returns_bind.mp h
  have hle₁ : i ≤ i₁ := advances_getNext h₁
  have hle₂ : i₁ ≤ i₂ := advances_getNext h₂
  dsimp only at h
  split at h
  · exact absurd h returns_halt
  · simp only [returns_bind, returns_int32, returns_pure] at h
    obtain ⟨_, _, -, _, _, -, size, _, ⟨-, hsize, -⟩, i₃, _, ⟨-, hnext, -⟩, hr, -⟩ := h
    rw [hr, hnext, hsize]
    omega

omit hm in
theorem advances_ofValue {cbuf : Int} {d : FADCdata} :
    Advances fun i => (FADCdata.ofValue mem cbuf d i : Exec Halt Obs σ _) := by
  intro i s r t h
  obtain ⟨⟨_, i₁⟩, _, h₁, h⟩ := returns_bind.mp h
  obtain ⟨rfl, -⟩ := returns_pure.mp h
  exact advances_getNext h₁

omit hm in
theorem advances_ofChanVal {cbuf : Int} {d : FADCdata} :
    Advances fun i => (FADCdata.ofChanVal mem cbuf d i : Exec Halt Obs σ _) := by
  intro i s r t h
  obtain ⟨⟨_, i₁⟩, _, h₁, h⟩ := returns_bind.mp h
  obtain ⟨⟨_, i₂⟩, _, h₂, h⟩ := returns_bind.mp h
  obtain ⟨rfl, -⟩ := returns_pure.mp h
  have hle : i ≤ i₁ := advances_getNext h₁
  exact hle.trans (advances_getNext h₂)

omit hm in
theorem Advances.repeatEntry {entry : Int → Exec Halt Obs σ (FADCdata × Int)} (he : Advances entry)
    (n : Nat) {indx : Int} {r : List FADCdata × Int}
    (h : Returns (FADCdata.repeatEntry entry n indx) s r t) : indx ≤ r.2 := by
  induction n generalizing indx s r t with
  | zero =>
    simp only [FADCdata.repeatEntry, returns_pure] at h
    simp [h.1]
  | succ n ih =>
    simp only [FADCdata.repeatEntry, returns_bind, returns_pure] at h
    obtain ⟨_, _, h₁, _, _, h₂, rfl, -⟩ := h
    have := he _ _ _ _ h₁
    have := ih h₂
    dsimp only
    omega

omit hm in
theorem Advances.readEntries {entry : Int → Exec Halt Obs σ (FADCdata × Int)} (he : Advances entry)
    {cbuf indx : Int} {r : List FADCdata × Int}
    (h : Returns (FADCdata.readEntries mem cbuf entry indx) s r t) : indx ≤ r.2 := by
  obtain ⟨⟨_, i₁⟩, _, h₁, h⟩ := returns_bind.mp h
  have hle : indx ≤ i₁ := advances_getNext h₁
  exact hle.trans (he.repeatEntry _ h)

omit hm in
theorem le_of_readHits {tag : UInt16} {cbuf : Int} {d : FADCdata} {indx : Int}
    {r : List FADCdata × Int} (h : Returns (FADCdata.readHits mem tag cbuf d indx) s r t) :
    indx ≤ r.2 := by
  unfold FADCdata.readHits at h
  split at h
  · exact advances_ofSamples.readEntries h
  · split at h
    · exact advances_ofValue.readEntries h
    · split at h
      · exact advances_ofChanVal.readEntries h
      · simp only [returns_pure] at h
        simp [h.1]

theorem stops_readSlots {crate : UInt8} {tag : UInt16} {cbuf buflen : Int} (k : Nat) (indx : Int)
    (hk : 0 < k) (hi : 4 * (N : Int) < k + cbuf + indx) :
    Stops Halt.Final Q (FADCdata.readSlots mem crate tag cbuf buflen k indx) s := by
  induction k generalizing indx s with
  | zero => omega
  | succ k ih =>
    rw [FADCdata.readSlots]
    split
    · refine stops_getNext.bind fun slot _ hslot => stops_getNext.bind fun trig _ htrig =>
        stops_getNext.bind fun time _ htime => stops_readHits.bind fun r _ hhits => ?_
      obtain ⟨hread, -, hnext⟩ := FADCdata.returns_getNext.mp hslot
      have hlt := lt_of_readLE hm (by decide) hread
      have hle₁ := advances_getNext htrig
      have hle₂ := advances_getNext htime
      have hle₃ := le_of_readHits hhits
      exact (ih _ (by omega) (by omega)).bind fun _ _ _ => stops_pure
    · exact stops_pure

theorem stops_readFADC {fill : Nat} {crate : UInt8} {tag : UInt16} {buf : Int} (hb : 0 ≤ buf)
    (hf : 4 * N < fill) : Stops Halt.Final Q (FADCdata.read mem fill crate tag buf) s := by
  refine stops_readWord.bind fun _ _ _ => stops_readWord.bind fun _ _ _ =>
    stops_int32.bind fun _ _ _ => stops_int32.bind fun _ _ _ => ?_
  exact stops_readSlots hm _ _ (by omega) (by omega)

end Decoders

theorem VTPBank.parseWords_error {data : List UInt32} {v : VTPBank} {e : Halt}
    (h : parseWords data v = .error e) : e = .outside := by
  fun_induction parseWords data v <;> simp_all

theorem LeafPtr.callBack_error {l : LeafPtr} {e : Halt} (h : l.callBack = .error e) :
    e = .outside := by
  obtain ⟨T, l⟩ := l
  obtain ⟨_, _, _, _, data, cls⟩ := l
  cases cls with
  | leaf => cases h
  | vtpBank v =>
    simp only [LeafPtr.callBack, Leaf.callBack, LeafClass.callBack] at h
    split at h
    · cases hp : VTPBank.parseBank (data.map UInt32.ofBitVec) v with
      | error e' =>
        rw [hp] at h
        cases h
        exact VTPBank.parseWords_error hp
      | ok w =>
        rw [hp] at h
        cases h
    · cases h

theorem stops_findOrAddLeaf {fAutoAdd : Bool} {T : ElemType} {str desc : String} {tag : UInt16}
    {num : UInt8} : Stops Halt.Final Q (findOrAddLeaf fAutoAdd T str desc tag num) b := by
  refine stops_gets.bind fun loc _ _ => ?_
  cases loc with
  | some loc => exact stops_pure
  | none =>
    dsimp only
    split
    · exact stops_modify.bind fun _ _ _ => stops_gets.bind fun _ _ _ => stops_pure
    · exact stops_pure

theorem stops_callBack {loc : Nat} : Stops Halt.Final Q (callBack loc) b :=
  stops_gets.bind fun _ _ _ => (stops_demand Halt.final_undefined).bind fun _ _ _ =>
    (stops_ofExcept fun _ h => LeafPtr.callBack_error h ▸ Halt.final_outside).bind
      fun _ _ _ => stops_modify

theorem stops_fillLeaf {T : ElemType} {loc : Nat} {push : Exec Halt Obs BankInfo Unit}
    (hp : ∀ c, Stops Halt.Final Q push c) : Stops Halt.Final Q (fillLeaf T loc push) b := by
  refine stops_gets.bind fun _ _ _ => (stops_demand Halt.final_undefined).bind fun _ _ _ =>
    stops_tell.bind fun _ _ _ => ?_
  split
  · exact (hp _).bind fun _ _ _ => stops_callBack.bind fun _ _ _ => stops_pure
  · exact stops_halt.mpr Halt.final_undefined

def Obs.Forward : Obs → Prop
  | .child p _ next => p < next
  | _ => True

instance : DecidablePred Obs.Forward := fun o => match o with
  | .child p _ next => inferInstanceAs (Decidable (p < next))
  | .read .. | .filled .. | .returned .. => .isTrue trivial

def Obs.Wraps : Obs → Prop
  | .child p w _ => 2 ^ 31 ≤ p + w.toNat + 1
  | _ => False

theorem headerAt_below {bankType : Nat} {buf : Int} {h : Header} (hm : mem.Below N)
    (hh : headerAt mem buf bankType = some h) : 0 ≤ buf ∧ buf < N ∧ 1 ≤ h.dataOffset := by
  have hword (w : UInt32) (hw : mem buf = some w) : 0 ≤ buf ∧ buf < N := hm buf w hw
  unfold headerAt at hh
  split at hh <;> simp only [Option.bind_eq_some_iff, Option.map_eq_some_iff, reduceCtorEq] at hh
  case h_1 | h_2 =>
    obtain ⟨w, hw, w', -, rfl⟩ := hh
    obtain ⟨hb, hlt⟩ := hword w hw
    exact ⟨hb, hlt, by simp [bankHeader]⟩
  all_goals
    obtain ⟨w, hw, rfl⟩ := hh
    obtain ⟨hb, hlt⟩ := hword w hw
    exact ⟨hb, hlt, le_rfl⟩

theorem stops_readHeader {bankType : Nat} {buf : Int} :
    Stops Halt.Final Q (readHeader mem buf bankType) s := by
  unfold readHeader
  split
  case h_1 | h_2 =>
    exact stops_readWord.bind fun _ _ _ => stops_readWord.bind fun _ _ _ => stops_pure
  case h_7 => exact stops_pure
  all_goals exact stops_readWord.bind fun _ _ _ => stops_pure

theorem stops_return_ {stat : Int} : Stops Halt.Final Q (return_ stat) s :=
  stops_tell.bind fun _ _ _ => stops_pure

theorem stops_containerNodeHandler {set : Settings} {tag : UInt16} {num : UInt8} {depth : Int}
    {b : Bank} : Stops Halt.Final Q (containerNodeHandler set tag num depth) b := by
  unfold containerNodeHandler
  split
  · exact stops_modify.bind fun _ _ _ => stops_pure
  · refine stops_gets.bind fun loc _ _ => stops_gets.bind fun n _ _ => ?_
    split
    · exact (Stops.zoom Halt.final_undefined fun _ => stops_modify).bind fun _ _ _ => stops_pure
    · exact stops_modify.bind fun _ _ _ =>
        (Stops.zoom Halt.final_undefined fun _ => stops_modify).bind fun _ _ _ => stops_pure
    · exact stops_pure

theorem stops_onTarget {x : Option Target} {m : Exec Halt Obs Bank α} {b : Bank}
    (hm : ∀ c, Stops Halt.Final Q m c) : Stops Halt.Final Q (onTarget x m) b := by
  unfold onTarget
  split
  · exact Stops.zoom Halt.final_undefined hm
  · exact hm b

section Parser

variable {set : Settings} {fill : Nat} (hm : mem.Below N) (hN : N ≤ 2 ^ 32)
  (hf : 4 * N + 1 < fill)

include hm hN hf

theorem stops_fillSwitch {T : ElemType} {buf n : Int} {h : Header} (hb : 0 < buf) :
    Stops Halt.Final Q (fillSwitch set mem fill T buf n h) b := by
  cases T with
  | prim t =>
    refine stops_findOrAddLeaf.bind fun loc _ _ => ?_
    cases loc with
    | none => exact stops_pure
    | some loc => exact stops_fillLeaf fun _ => stops_pushDataArray hm hN hb (by omega)
  | string =>
    refine stops_findOrAddLeaf.bind fun loc _ _ => ?_
    cases loc with
    | none => exact stops_pure
    | some loc =>
      refine stops_fillLeaf fun _ => ?_
      exact (stops_readStrings hm _ _ (by omega) (by omega)).bind fun _ _ _ => stops_pushLeaf
  | fadc =>
    refine stops_findOrAddLeaf.bind fun loc _ _ => ?_
    cases loc with
    | none => exact stops_pure
    | some loc =>
      refine stops_fillLeaf fun _ => stops_gets.bind fun _ _ _ => ?_
      exact (stops_readFADC hm hb.le (by omega)).bind fun _ _ _ => stops_pushLeaf

theorem stops_parse (n : Nat) :
    (∀ bankType (buf : Int) depth (b : Bank), 0 ≤ buf → 2 * (N - buf) + 1 ≤ n → 1 ≤ n →
      Stops Halt.Final Obs.Wraps (parseBank set mem fill n buf bankType depth) b) ∧
    (∀ live (data : Int) bankLen contentType depth (p : Int) (b : Bank), 0 ≤ data → 0 ≤ p →
      2 * (N - (data + p)) + 2 ≤ n → 2 ≤ n →
      Stops Halt.Final Obs.Wraps
        (children set mem fill n live data bankLen contentType depth p) b) := by
  induction n with
  | zero => exact ⟨fun _ _ _ _ _ _ _ => by omega, fun _ _ _ _ _ _ _ _ _ _ _ => by omega⟩
  | succ n ih =>
    obtain ⟨ihp, ihc⟩ := ih
    constructor
    · intro bankType buf depth b hb hn _
      rw [parseBank]
      refine stops_readHeader.bind fun x t hx => ?_
      obtain ⟨rfl, rfl⟩ := returns_readHeader_inv hx
      cases hh : headerAt mem buf bankType with
      | none => exact stops_return_
      | some h =>
        obtain ⟨-, hlt, hoff⟩ := headerAt_below hm hh
        refine stops_int32.bind fun len _ _ => ?_
        cases leafCase h.contentType h.padding with
        | some r =>
          obtain ⟨T, k, d⟩ := r
          refine (stops_int32.bind fun _ _ _ => stops_int32).bind fun m _ _ => ?_
          refine Stops.bind ?_ fun _ _ _ => stops_return_
          exact Stops.zoom Halt.final_undefined fun _ =>
            stops_fillSwitch hm hN hf (by omega)
        | none =>
          dsimp only
          split
          · refine stops_containerNodeHandler.bind fun x _ _ => ?_
            refine (stops_onTarget fun c => ?_).bind fun _ _ _ => stops_return_
            exact ihc _ _ _ _ _ _ c (by omega) le_rfl (by omega) (by omega)
          · exact stops_return_
    · intro live data bankLen contentType depth p b hd hp hn _
      rw [children]
      split
      · refine (ihp _ _ _ b (by omega) (by omega) (by omega)).when.bind fun _ c _ => ?_
        refine (stops_readWord.bind fun _ _ _ => stops_pure).bind fun w d hw => ?_
        obtain ⟨v, hv, -, -⟩ := returns_readLength.mp hw
        have hlt := hm _ _ hv
        refine Stops.tell_bind fun hwrap => ?_
        simp only [Obs.Wraps, not_le] at hwrap
        have hnext : nextPos p w = p + w.toNat + 1 := toInt32_eq (by omega) hwrap
        rw [hnext]
        exact ihc _ _ _ _ _ _ d hd (by omega) (by omega) (by omega)
      · exact stops_pure

end Parser

/-- The loop moves forward at a child exactly when its length word does not wrap the position. -/
def Obs.StepLaw : Obs → Prop
  | .child p w next => p < next ↔ p + w.toNat + 1 < 2 ^ 31
  | _ => True

theorem Obs.stepLaw_ofFillers : Obs.OfFillers Obs.StepLaw where
  svt _ _ := trivial
  string _ _ := trivial
  fadc _ _ := trivial
  filled _ _ := trivial

theorem logs_readHeader_of {P : Obs → Prop} {bankType : Nat} {buf : Int}
    (h : ∀ a n, P (.read .parser a n)) : Logs P (readHeader mem buf bankType) s := by
  unfold readHeader
  split
  case h_1 | h_2 =>
    exact (logs_readWord_of h _).bind fun _ _ _ => (logs_readWord_of h _).bind fun _ _ _ => logs_pure
  case h_7 => exact logs_pure
  all_goals exact (logs_readWord_of h _).bind fun _ _ _ => logs_pure

theorem logs_stepLaw {set : Settings} {fill : Nat} (n : Nat) :
    (∀ bankType buf depth (b : Bank),
      Logs Obs.StepLaw (parseBank set mem fill n buf bankType depth) b) ∧
    (∀ live data bankLen contentType depth p (b : Bank), FitsInt p →
      Logs Obs.StepLaw (children set mem fill n live data bankLen contentType depth p) b) := by
  induction n with
  | zero => exact ⟨fun _ _ _ _ => logs_halt, fun _ _ _ _ _ _ _ _ => logs_halt⟩
  | succ n ih =>
    obtain ⟨ihp, ihc⟩ := ih
    constructor
    · intro bankType buf depth b
      refine logs_parseBank (logs_readHeader_of fun _ _ => trivial) (fun _ => trivial) ?_ ?_
      · intro h T k d _ _
        exact logs_fillSwitch Obs.stepLaw_ofFillers fun _ _ _ => trivial
      · intro h _ _ _ live c
        exact ihc _ _ _ _ _ _ c (by decide)
    · intro live data bankLen contentType depth p b hp
      rw [children]
      split
      · refine (ihp _ _ _ b).when.bind fun _ c _ => ?_
        refine ((logs_readWord_of (fun _ _ => trivial) _).bind fun _ _ _ => logs_pure).bind
          fun w d _ => ?_
        have hstep : Obs.StepLaw (.child p w (nextPos p w)) := lt_toInt32_add_iff hp.1 hp.2 w
        refine (logs_tell.mpr hstep).bind fun _ e _ => ?_
        exact ihc _ _ _ _ _ _ e ⟨le_toInt32 _, toInt32_lt _⟩
      · exact logs_pure

/-- A run in which the child loops move forward only has an end, after at most two steps
for each word of the event. -/
theorem parseEvioBuff_finishes (ws : List UInt32) {set : Settings} {fuel fill : Nat} {b : Bank}
    (hN : ws.length ≤ 2 ^ 32) (hfuel : 2 * ws.length + 1 ≤ fuel) (hfill : 4 * ws.length + 1 < fill) :
    Logs Obs.StepLaw (parseEvioBuff set (Mem.ofList ws) fill fuel) b ∧
    (Logs Obs.Forward (parseEvioBuff set (Mem.ofList ws) fill fuel) b →
      ∀ e, (parseEvioBuff set (Mem.ofList ws) fill fuel b).out = .error e → e.Final) := by
  have hlaw : Logs Obs.StepLaw (parseEvioBuff set (Mem.ofList ws) fill fuel) b := by
    refine (logs_readWord_of (fun _ _ => trivial) _).bind fun w t _ => logs_modify.bind fun _ c _ =>
      logs_gets.bind fun _ d _ => ?_
    split
    · exact logs_pure
    · split
      · exact logs_pure
      · exact ((logs_stepLaw fuel).1 _ _ _ d).bind fun _ _ _ => logs_pure
  have hstops : Stops Halt.Final Obs.Wraps (parseEvioBuff set (Mem.ofList ws) fill fuel) b := by
    refine stops_readWord.bind fun w t _ => stops_modify.bind fun _ c _ =>
      stops_gets.bind fun _ d _ => ?_
    split
    · exact stops_pure
    · split
      · exact stops_pure
      · refine ((stops_parse (Mem.below_ofList ws) hN hfill fuel).1 _ 0 _ d ?_ ?_ ?_).bind
          fun _ _ _ => stops_pure <;> omega
  refine ⟨hlaw, fun hforward e he => (hstops e he).resolve_right ?_⟩
  rintro ⟨o, ho, hwraps⟩
  cases o with
  | child p w next =>
    have := (hlaw _ ho).mp (hforward _ ho)
    simp only [Obs.Wraps] at hwraps
    omega
  | _ => exact hwraps

def oneBankWords : List UInt32 := [4, 0x00001001, 2, 0x00010100, 77]

theorem oneBank_finishes :
    Logs Obs.StepLaw (parseEvioBuff {} (Mem.ofList oneBankWords) 22 11) emptyTop ∧
    ∀ e, (parseEvioBuff {} (Mem.ofList oneBankWords) 22 11 emptyTop).out = .error e → e.Final := by
  have hforward : Logs Obs.Forward (parseEvioBuff {} (Mem.ofList oneBankWords) 22 11) emptyTop := by
    unfold Logs
    decide
  have hfinishes : _ ∧ (_ → ∀ e, (parseEvioBuff {} (Mem.ofList oneBankWords) 22 11 emptyTop).out =
      .error e → e.Final) :=
    parseEvioBuff_finishes oneBankWords (by decide) (by decide) (by decide)
  exact ⟨hfinishes.1, hfinishes.2 hforward⟩

def hangWords : List UInt32 := [3, 0x00001001, 0xFFFFFFFF, 0x00003F00]

theorem children_hang {fill : Nat} (n : Nat) (b : Bank) :
    (children {} (Mem.ofList hangWords) fill n true 2 2 0x10 1 0 b).out = .error .fuel := by
  induction n generalizing b with
  | zero => rfl
  | succ n ih =>
    rw [children, if_pos (by decide)]
    cases n with
    | zero => rfl
    | succ n =>
      have hchild : Returns (when true (parseBank {} (Mem.ofList hangWords) fill (n + 1) (2 + 0) 0x10 1))
          b () b := returns_when_true.mpr ⟨-5, rfl, rfl⟩
      have hlength : Returns (readLength (Mem.ofList hangWords) 0x10 (2 + 0)) b 0xFFFFFFFF b :=
        ⟨rfl, rfl⟩
      have hnext : nextPos 0 0xFFFFFFFF = 0 := by decide
      rw [hchild.out_bind, hlength.out_bind, hnext]
      exact (returns_tell (r := ()).mpr rfl).out_bind.trans (ih b)

theorem parseBank_hang {fill : Nat} (n : Nat) (b : Bank) :
    (parseBank {} (Mem.ofList hangWords) fill n 0 0x10 0 b).out = .error .fuel := by
  cases n with
  | zero => rfl
  | succ n =>
    have hh : headerAt (Mem.ofList hangWords) 0 0x10 = some (bankHeader 3 0x00001001) := rfl
    have hread : Returns (readHeader (Mem.ofList hangWords) 0 0x10) b
        (some (bankHeader 3 0x00001001)) b := (returns_readHeader hh).mpr ⟨rfl, rfl⟩
    have hlen : Returns (int32 ((bankHeader 3 0x00001001).length - 2)) b 2 b := ⟨rfl, rfl⟩
    have hnode : Returns (containerNodeHandler {} 0 1 0) b (some .self)
        (b.setLabel (b.label.setTag 0 1)) := ⟨rfl, rfl⟩
    rw [parseBank, hread.out_bind]
    refine hlen.out_bind.trans (hnode.out_bind.trans ?_)
    exact out_bind_of_error (children_hang n _)

theorem parseEvioBuff_hang :
    (∀ fill fuel,
      (parseEvioBuff {} (Mem.ofList hangWords) fill fuel emptyTop).out = .error .fuel) ∧
    ¬Logs Obs.Forward (parseEvioBuff {} (Mem.ofList hangWords) 0 3) emptyTop := by
  constructor
  · intro fill fuel
    have hread : Returns (readWord (Mem.ofList hangWords) .parser 1) emptyTop 0x00001001 emptyTop :=
      ⟨rfl, rfl⟩
    exact hread.out_bind.trans ((returns_modify (r := ()).mpr rfl).out_bind.trans
      ((returns_gets.mpr ⟨rfl, rfl⟩).out_bind.trans (out_bind_of_error (parseBank_hang fuel _))))
  · intro h
    exact absurd (h (.child 0 0xFFFFFFFF 0) (by decide)) (by decide)

end EvioTool
