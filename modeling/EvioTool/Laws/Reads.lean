import EvioTool.Laws.Header

namespace EvioTool

open Lib Exec

variable {P : Obs → Prop} {mem : Mem} {σ : Type} {s : σ} {b : BankInfo}

theorem logs_readWord_of {who : Reader} (h : ∀ b n, P (.read who b n)) (a : Int) :
    Logs P (readWord mem who a) s :=
  (logs_tell.mpr (h _ _)).bind fun _ _ _ => logs_demand

theorem logs_readLE {who : Reader} (h : ∀ b n, P (.read who b n)) (a : Int) (n : Nat) :
    Logs P (readLE mem who a n) s :=
  (logs_tell.mpr (h _ _)).bind fun _ _ _ => logs_demand.bind fun _ _ _ => logs_pure

theorem logs_readElems {who : Reader} {t : Prim} {buf len : Int}
    (h : 0 ≤ len → P (.read who (4 * buf) (len.toNat * t.width))) :
    Logs P (readElems mem who t buf len) s := by
  unfold readElems
  split
  · exact logs_halt
  · exact (logs_tell.mpr (h (by omega))).bind fun _ _ _ => logs_demand

theorem logs_pushLeaf (loc : Nat) (T : ElemType) (xs : List T.Val) :
    Logs P (pushLeaf loc T xs) b := by
  simp only [Logs, pushLeaf]
  split <;> simp

theorem logs_basePushDataArray {who : Reader} {t : Prim} {loc : Nat} {buf len : Int}
    (h : 0 ≤ len → P (.read who (4 * buf) (len.toNat * t.width))) :
    Logs P (Bank.pushDataArray mem who loc t buf len) b :=
  (logs_readElems h).bind fun _ _ _ => logs_pushLeaf _ _ _

section SVT

variable (h : ∀ a n, P (.read .svt a n))

include h

theorem logs_readSVTWords (a : Int) : Logs P (readSVTWords mem a) s :=
  (logs_readWord_of h _).bind fun _ _ _ => (logs_readWord_of h _).bind fun _ _ _ =>
    (logs_readWord_of h _).bind fun _ _ _ => (logs_readWord_of h _).bind fun _ _ _ => logs_pure

omit h in
theorem logs_pushChan (cn : SVTWords) : Logs P (SVTBank.pushChan cn) b :=
  logs_modify.when

theorem logs_readChans (dat : Int) (frameEnd : UInt32) (n : Nat) (i : UInt32) :
    Logs P (SVTBank.readChans mem dat frameEnd n i) b := by
  induction n generalizing i b with
  | zero => exact logs_halt
  | succ n ih =>
    rw [SVTBank.readChans]
    split
    · exact (logs_readSVTWords h _).bind fun _ _ _ => (logs_pushChan _).bind fun _ _ _ => ih _
    · exact logs_pure

theorem logs_readFrames (v : SVTBank) (dat len : Int) (n : Nat) (i : UInt32) :
    Logs P (v.readFrames mem dat len n i) b := by
  induction n generalizing i b with
  | zero => exact logs_halt
  | succ n ih =>
    rw [SVTBank.readFrames]
    split
    · exact (logs_readSVTWords h _).bind fun _ _ _ =>
        logs_modify.when.bind fun _ _ _ =>
        (logs_readChans h _ _ _ _).bind fun _ _ _ =>
        (logs_readSVTWords h _).bind fun _ _ _ =>
        logs_modify.when.bind fun _ _ _ =>
        (logs_basePushDataArray fun _ => h _ _).when.bind fun _ _ _ => ih _
    · exact logs_pure

theorem logs_readFrames2016 (dat len : Int) (n : Nat) (i : UInt32) :
    Logs P (SVTBank2016.readFrames mem dat len n i) b := by
  induction n generalizing i b with
  | zero => exact logs_halt
  | succ n ih =>
    rw [SVTBank2016.readFrames]
    split
    · exact (logs_readSVTWords h _).bind fun _ _ _ => (logs_pushChan _).bind fun _ _ _ => ih _
    · exact logs_pure

theorem logs_pushDataArray2016 (v : SVTBank) (fill : Nat) (dat len : Int) :
    Logs P (SVTBank2016.pushDataArray v mem fill dat len) b :=
  (logs_readFrames2016 h _ _ _ _).bind fun _ _ _ =>
    ((logs_readWord_of h _).bind fun _ _ _ => logs_modify).when.bind fun _ _ _ =>
    (logs_basePushDataArray fun _ => h _ _).when

end SVT

theorem logs_pushDataArray {t : Prim} {fill loc : Nat} {buf len : Int}
    (hsvt : ∀ a n, P (.read .svt a n))
    (hleaf : 0 ≤ len → P (.read .leaf (4 * buf) (len.toNat * t.width))) :
    Logs P (pushDataArray mem fill loc t buf len) b := by
  refine logs_gets.bind fun cls _ _ => ?_
  have hbase {c : BankInfo} : Logs P (Bank.pushDataArray mem .leaf loc t buf len) c :=
    logs_basePushDataArray hleaf
  cases cls with
  | bank => exact hbase
  | svtBank v =>
    rw [BankClass.pushDataArray]
    split
    · exact logs_readFrames hsvt _ _ _ _ _
    · exact hbase
  | svtBank2016 v =>
    rw [BankClass.pushDataArray]
    split
    · exact logs_pushDataArray2016 hsvt _ _ _ _
    · exact hbase

theorem logs_readRun (h : ∀ a n, P (.read .string a n)) (k : Nat) (c : Int) :
    Logs P (readRun mem k c) s := by
  induction k generalizing c s with
  | zero => exact logs_halt
  | succ k ih =>
    refine (logs_readLE h _ _).bind fun _ _ _ => ?_
    dsimp only
    split
    · exact (ih _).bind fun _ _ _ => logs_pure
    · exact logs_pure

theorem logs_readStrings (h : ∀ a n, P (.read .string a n)) (start len : Int) (k : Nat) (c : Int) :
    Logs P (readStrings mem start len k c) s := by
  induction k generalizing c s with
  | zero => exact logs_halt
  | succ k ih =>
    refine (logs_readLE h _ _).bind fun _ _ _ => ?_
    split
    · exact (logs_readRun h _ _).bind fun _ _ _ => (ih _).bind fun _ _ _ => logs_pure
    · exact logs_pure

theorem logs_int32 (x : Int) : Logs P (int32 x : Exec Halt Obs σ Int) s := by
  unfold int32
  split <;> simp

section FADC

variable (h : ∀ a n, P (.read .fadc a n))

include h

theorem logs_getNext (cbuf indx : Int) (n : Nat) : Logs P (FADCdata.getNext mem cbuf indx n) s :=
  (logs_readLE h _ _).bind fun _ _ _ => (logs_int32 _).bind fun _ _ _ => logs_pure

theorem logs_ofSamples (cbuf : Int) (d : FADCdata) (indx : Int) :
    Logs P (FADCdata.ofSamples mem cbuf d indx) s := by
  refine (logs_getNext h _ _ _).bind fun _ _ _ => (logs_getNext h _ _ _).bind fun _ _ _ => ?_
  dsimp only
  split
  · exact logs_halt
  · exact (logs_tell.mpr (h _ _)).bind fun _ _ _ => logs_demand.bind fun _ _ _ =>
      (logs_int32 _).bind fun _ _ _ => (logs_int32 _).bind fun _ _ _ => logs_pure

theorem logs_ofValue (cbuf : Int) (d : FADCdata) (indx : Int) :
    Logs P (FADCdata.ofValue mem cbuf d indx) s :=
  (logs_getNext h _ _ _).bind fun _ _ _ => logs_pure

theorem logs_ofChanVal (cbuf : Int) (d : FADCdata) (indx : Int) :
    Logs P (FADCdata.ofChanVal mem cbuf d indx) s :=
  (logs_getNext h _ _ _).bind fun _ _ _ => (logs_getNext h _ _ _).bind fun _ _ _ => logs_pure

omit h in
theorem logs_repeatEntry {entry : Int → Exec Halt Obs σ (FADCdata × Int)}
    (he : ∀ i s, Logs P (entry i) s) (n : Nat) (indx : Int) :
    Logs P (FADCdata.repeatEntry entry n indx) s := by
  induction n generalizing indx s with
  | zero => exact logs_pure
  | succ n ih => exact (he _ _).bind fun _ _ _ => (ih _).bind fun _ _ _ => logs_pure

theorem logs_readEntries {entry : Int → Exec Halt Obs σ (FADCdata × Int)}
    (he : ∀ i s, Logs P (entry i) s) (cbuf indx : Int) :
    Logs P (FADCdata.readEntries mem cbuf entry indx) s :=
  (logs_getNext h _ _ _).bind fun _ _ _ => logs_repeatEntry he _ _

theorem logs_readHits (tag : UInt16) (cbuf : Int) (d : FADCdata) (indx : Int) :
    Logs P (FADCdata.readHits mem tag cbuf d indx) s := by
  unfold FADCdata.readHits
  split
  · exact logs_readEntries h (fun _ _ => logs_ofSamples h _ _ _) _ _
  · split
    · exact logs_readEntries h (fun _ _ => logs_ofValue h _ _ _) _ _
    · split
      · exact logs_readEntries h (fun _ _ => logs_ofChanVal h _ _ _) _ _
      · exact logs_pure

theorem logs_readSlots (crate : UInt8) (tag : UInt16) (cbuf buflen : Int) (k : Nat) (indx : Int) :
    Logs P (FADCdata.readSlots mem crate tag cbuf buflen k indx) s := by
  induction k generalizing indx s with
  | zero => exact logs_halt
  | succ k ih =>
    rw [FADCdata.readSlots]
    split
    · exact (logs_getNext h _ _ _).bind fun _ _ _ => (logs_getNext h _ _ _).bind fun _ _ _ =>
        (logs_getNext h _ _ _).bind fun _ _ _ => (logs_readHits h _ _ _ _).bind fun _ _ _ =>
        (ih _).bind fun _ _ _ => logs_pure
    · exact logs_pure

theorem logs_readFADC (fill : Nat) (crate : UInt8) (tag : UInt16) (buf : Int) :
    Logs P (FADCdata.read mem fill crate tag buf) s :=
  (logs_readWord_of h _).bind fun _ _ _ => (logs_readWord_of h _).bind fun _ _ _ =>
    (logs_int32 _).bind fun _ _ _ => (logs_int32 _).bind fun _ _ _ => logs_readSlots h _ _ _ _ _ _

end FADC

theorem logs_findOrAddLeaf (fAutoAdd : Bool) (T : ElemType) (str desc : String) (tag : UInt16)
    (num : UInt8) : Logs P (findOrAddLeaf fAutoAdd T str desc tag num) b := by
  refine logs_gets.bind fun loc _ _ => ?_
  cases loc with
  | some loc => exact logs_pure
  | none =>
    dsimp only
    split
    · exact logs_modify.bind fun _ _ _ => logs_gets.bind fun _ _ _ => logs_pure
    · exact logs_pure

theorem logs_callBack (loc : Nat) : Logs P (callBack loc) b :=
  logs_gets.bind fun _ _ _ => logs_demand.bind fun _ _ _ =>
    logs_ofExcept.bind fun _ _ _ => logs_modify

theorem logs_fillLeaf (hfill : ∀ S T, P (.filled S T)) {T : ElemType} {loc : Nat}
    {push : Exec Halt Obs BankInfo Unit} (hpush : ∀ c, Logs P push c) :
    Logs P (fillLeaf T loc push) b := by
  refine logs_gets.bind fun _ _ _ => logs_demand.bind fun _ _ _ =>
    (logs_tell.mpr (hfill _ _)).bind fun _ _ _ => ?_
  split
  · exact (hpush _).bind fun _ _ _ => (logs_callBack _).bind fun _ _ _ => logs_pure
  · exact logs_halt

/-- `P` holds of everything a filler may log, except for the reads of a payload of
fixed-width elements. -/
structure Obs.OfFillers (P : Obs → Prop) : Prop where
  svt : ∀ a n, P (.read .svt a n)
  string : ∀ a n, P (.read .string a n)
  fadc : ∀ a n, P (.read .fadc a n)
  filled : ∀ S T, P (.filled S T)

theorem Obs.within_ofFillers (lo hi : Int) : Obs.OfFillers (Obs.Within lo hi) where
  svt _ _ := trivial
  string _ _ := trivial
  fadc _ _ := trivial
  filled _ _ := trivial

theorem logs_fillSwitch (hP : Obs.OfFillers P) {set : Settings} {fill : Nat} {T : ElemType}
    {buf n : Int} {h : Header}
    (hleaf : ∀ t, T = .prim t → 0 ≤ n → P (.read .leaf (4 * buf) (n.toNat * t.width))) :
    Logs P (fillSwitch set mem fill T buf n h) b := by
  cases T with
  | prim t =>
    refine (logs_findOrAddLeaf _ _ _ _ _ _).bind fun loc _ _ => ?_
    cases loc with
    | none => exact logs_pure
    | some loc => exact logs_fillLeaf hP.filled fun _ => logs_pushDataArray hP.svt (hleaf t rfl)
  | string =>
    refine (logs_findOrAddLeaf _ _ _ _ _ _).bind fun loc _ _ => ?_
    cases loc with
    | none => exact logs_pure
    | some loc =>
      exact logs_fillLeaf hP.filled fun _ =>
        (logs_readStrings hP.string _ _ _ _).bind fun _ _ _ => logs_pushLeaf _ _ _
  | fadc =>
    refine (logs_findOrAddLeaf _ _ _ _ _ _).bind fun loc _ _ => ?_
    cases loc with
    | none => exact logs_pure
    | some loc =>
      exact logs_fillLeaf hP.filled fun _ => logs_gets.bind fun _ _ _ =>
        (logs_readFADC hP.fadc _ _ _ _).bind fun _ _ _ => logs_pushLeaf _ _ _

end EvioTool
