import EvioTool.Lib.Alike
import EvioTool.Laws.AddOrFillLeaf

namespace EvioTool

open Lib Exec

structure FillRel (fAutoAdd : Bool) (R : BankInfo → BankInfo → Prop) : Prop where
  cls : ∀ i j, R i j → j.cls = i.cls
  thisTag : ∀ i j, R i j → j.thisTag = i.thisTag
  findLeaf : ∀ i j tag num, R i j → j.findLeaf tag num = i.findLeaf tag num
  length : ∀ i j, R i j → j.leafs.length = i.leafs.length
  type : ∀ i j (loc : Nat), R i j → j.leafs[loc]?.map Sigma.fst = i.leafs[loc]?.map Sigma.fst
  svt : ∀ i j f, (∀ v, SVTBank.clear (f v) = v.clear) → R i j →
    R { i with cls := i.cls.mapSVT f } { j with cls := j.cls.mapSVT f }
  push : ∀ loc T xs, Keeps R (pushLeaf loc T xs)
  callBack : ∀ loc, Keeps R (callBack loc)
  addLeaf : ∀ i j T name tag num desc, fAutoAdd = true → R i j →
    R (i.addLeaf T name tag num desc) (j.addLeaf T name tag num desc)

section Reading

variable {mem : Mem} {σ : Type} {R : σ → σ → Prop}

theorem keeps_readWord (who : Reader) (a : Int) : Keeps R (readWord mem who a) :=
  keeps_tell.bind fun _ => keeps_demand

theorem keeps_readLE (who : Reader) (a : Int) (n : Nat) : Keeps R (readLE mem who a n) :=
  keeps_tell.bind fun _ => keeps_demand.bind fun _ => keeps_pure

theorem keeps_int32 (x : Int) : Keeps R (int32 x) := by
  unfold int32
  split
  · exact keeps_pure
  · exact keeps_halt

theorem keeps_readElems (who : Reader) (t : Prim) (buf len : Int) :
    Keeps R (readElems mem who t buf len) := by
  unfold readElems
  split
  · exact keeps_halt
  · exact keeps_tell.bind fun _ => keeps_demand

theorem keeps_readSVTWords (a : Int) : Keeps R (readSVTWords mem a) :=
  (keeps_readWord _ _).bind fun _ => (keeps_readWord _ _).bind fun _ =>
    (keeps_readWord _ _).bind fun _ => (keeps_readWord _ _).bind fun _ => keeps_pure

theorem keeps_readRun (k : Nat) (c : Int) : Keeps R (readRun mem k c) := by
  induction k generalizing c with
  | zero => exact keeps_halt
  | succ k ih =>
    refine (keeps_readLE _ _ _).bind fun _ => ?_
    dsimp only
    split
    · exact (ih _).bind fun _ => keeps_pure
    · exact keeps_pure

theorem keeps_readStrings (start len : Int) (k : Nat) (c : Int) :
    Keeps R (readStrings mem start len k c) := by
  induction k generalizing c with
  | zero => exact keeps_halt
  | succ k ih =>
    refine (keeps_readLE _ _ _).bind fun _ => ?_
    split
    · exact (keeps_readRun _ _).bind fun _ => (ih _).bind fun _ => keeps_pure
    · exact keeps_pure

theorem keeps_getNext (cbuf indx : Int) (n : Nat) : Keeps R (FADCdata.getNext mem cbuf indx n) :=
  (keeps_readLE _ _ _).bind fun _ => (keeps_int32 _).bind fun _ => keeps_pure

theorem keeps_ofSamples (cbuf : Int) (d : FADCdata) (indx : Int) :
    Keeps R (FADCdata.ofSamples mem cbuf d indx) := by
  refine (keeps_getNext _ _ _).bind fun _ => (keeps_getNext _ _ _).bind fun _ => ?_
  dsimp only
  generalize toInt32 _ = nsamples
  split
  · exact keeps_halt
  · exact keeps_tell.bind fun _ => keeps_demand.bind fun _ => (keeps_int32 _).bind fun _ =>
      (keeps_int32 _).bind fun _ => keeps_pure

theorem keeps_ofValue (cbuf : Int) (d : FADCdata) (indx : Int) :
    Keeps R (FADCdata.ofValue mem cbuf d indx) :=
  (keeps_getNext _ _ _).bind fun _ => keeps_pure

theorem keeps_ofChanVal (cbuf : Int) (d : FADCdata) (indx : Int) :
    Keeps R (FADCdata.ofChanVal mem cbuf d indx) :=
  (keeps_getNext _ _ _).bind fun _ => (keeps_getNext _ _ _).bind fun _ => keeps_pure

theorem keeps_repeatEntry {entry : Int → Exec Halt Obs σ (FADCdata × Int)}
    (he : ∀ i, Keeps R (entry i)) (n : Nat) (indx : Int) :
    Keeps R (FADCdata.repeatEntry entry n indx) := by
  induction n generalizing indx with
  | zero => exact keeps_pure
  | succ n ih => exact (he _).bind fun _ => (ih _).bind fun _ => keeps_pure

theorem keeps_readEntries {entry : Int → Exec Halt Obs σ (FADCdata × Int)}
    (he : ∀ i, Keeps R (entry i)) (cbuf indx : Int) :
    Keeps R (FADCdata.readEntries mem cbuf entry indx) :=
  (keeps_getNext _ _ _).bind fun _ => keeps_repeatEntry he _ _

theorem keeps_readHits (tag : UInt16) (cbuf : Int) (d : FADCdata) (indx : Int) :
    Keeps R (FADCdata.readHits mem tag cbuf d indx) := by
  unfold FADCdata.readHits
  split
  · exact keeps_readEntries (fun _ => keeps_ofSamples _ _ _) _ _
  · split
    · exact keeps_readEntries (fun _ => keeps_ofValue _ _ _) _ _
    · split
      · exact keeps_readEntries (fun _ => keeps_ofChanVal _ _ _) _ _
      · exact keeps_pure

theorem keeps_readSlots (crate : UInt8) (tag : UInt16) (cbuf buflen : Int) (k : Nat) (indx : Int) :
    Keeps R (FADCdata.readSlots mem crate tag cbuf buflen k indx) := by
  induction k generalizing indx with
  | zero => exact keeps_halt
  | succ k ih =>
    rw [FADCdata.readSlots]
    split
    · exact (keeps_getNext _ _ _).bind fun _ => (keeps_getNext _ _ _).bind fun _ =>
        (keeps_getNext _ _ _).bind fun _ => (keeps_readHits _ _ _ _).bind fun _ =>
        (ih _).bind fun _ => keeps_pure
    · exact keeps_pure

theorem keeps_readFADC (fill : Nat) (crate : UInt8) (tag : UInt16) (buf : Int) :
    Keeps R (FADCdata.read mem fill crate tag buf) :=
  (keeps_readWord _ _).bind fun _ => (keeps_readWord _ _).bind fun _ =>
    (keeps_int32 _).bind fun _ => (keeps_int32 _).bind fun _ => keeps_readSlots _ _ _ _ _ _

end Reading

namespace FillRel

variable {mem : Mem} {fill : Nat} {fAutoAdd : Bool} {R : BankInfo → BankInfo → Prop}
  (hR : FillRel fAutoAdd R)

include hR

theorem basePushDataArray (who : Reader) (loc : Nat) (t : Prim) (buf len : Int) :
    Keeps R (Bank.pushDataArray mem who loc t buf len) :=
  (keeps_readElems _ _ _ _).bind fun _ => hR.push _ _ _

theorem modifySVT {f : SVTBank → SVTBank} (hf : ∀ v, (f v).clear = v.clear) :
    Keeps R (modifySVT f) := keeps_modify fun i j h => hR.svt i j f hf h

theorem pushChan (cn : SVTWords) : Keeps R (SVTBank.pushChan cn) :=
  (hR.modifySVT (by exact fun _ => rfl)).when

theorem readChans (dat : Int) (frameEnd : UInt32) (n : Nat) (i : UInt32) :
    Keeps R (SVTBank.readChans mem dat frameEnd n i) := by
  induction n generalizing i with
  | zero => exact keeps_halt
  | succ n ih =>
    rw [SVTBank.readChans]
    split
    · exact (keeps_readSVTWords _).bind fun _ => (hR.pushChan _).bind fun _ => ih _
    · exact keeps_pure

theorem readFrames (v : SVTBank) (dat len : Int) (n : Nat) (i : UInt32) :
    Keeps R (v.readFrames mem dat len n i) := by
  induction n generalizing i with
  | zero => exact keeps_halt
  | succ n ih =>
    rw [SVTBank.readFrames]
    split
    · exact (keeps_readSVTWords _).bind fun _ => (hR.modifySVT (by exact fun _ => rfl)).when.bind fun _ =>
        (hR.readChans _ _ _ _).bind fun _ => (keeps_readSVTWords _).bind fun _ =>
        (hR.modifySVT (by exact fun _ => rfl)).when.bind fun _ =>
        (hR.basePushDataArray _ _ _ _ _).when.bind fun _ => ih _
    · exact keeps_pure

theorem readFrames2016 (dat len : Int) (n : Nat) (i : UInt32) :
    Keeps R (SVTBank2016.readFrames mem dat len n i) := by
  induction n generalizing i with
  | zero => exact keeps_halt
  | succ n ih =>
    rw [SVTBank2016.readFrames]
    split
    · exact (keeps_readSVTWords _).bind fun _ => (hR.pushChan _).bind fun _ => ih _
    · exact keeps_pure

theorem pushDataArray2016 (v : SVTBank) (dat len : Int) :
    Keeps R (SVTBank2016.pushDataArray v mem fill dat len) :=
  (hR.readFrames2016 _ _ _ _).bind fun _ =>
    ((keeps_readWord _ _).bind fun _ => hR.modifySVT (by exact fun _ => rfl)).when.bind fun _ =>
    (hR.basePushDataArray _ _ _ _ _).when

theorem pushDataArray (loc : Nat) (t : Prim) (buf len : Int) :
    Keeps R (pushDataArray mem fill loc t buf len) := by
  refine (keeps_gets hR.cls).bind fun cls => ?_
  have hbase : Keeps R (Bank.pushDataArray mem .leaf loc t buf len) :=
    hR.basePushDataArray _ _ _ _ _
  cases cls with
  | bank => exact hbase
  | svtBank v =>
    rw [BankClass.pushDataArray]
    split
    · exact hR.readFrames _ _ _ _ _
    · exact hbase
  | svtBank2016 v =>
    rw [BankClass.pushDataArray]
    split
    · exact hR.pushDataArray2016 _ _ _
    · exact hbase

theorem findOrAddLeaf (T : ElemType) (str desc : String) (tag : UInt16) (num : UInt8) :
    Keeps R (findOrAddLeaf fAutoAdd T str desc tag num) := by
  refine (keeps_gets fun i j h => hR.findLeaf i j tag num h).bind fun loc => ?_
  cases loc with
  | some loc => exact keeps_pure
  | none =>
    dsimp only
    split <;> rename_i ha
    · exact (keeps_modify fun i j h => hR.addLeaf i j _ _ _ _ _ ha h).bind fun _ =>
        (keeps_gets hR.length).bind fun _ => keeps_pure
    · exact keeps_pure

theorem fillLeaf (T : ElemType) (loc : Nat) {push : Exec Halt Obs BankInfo Unit}
    (hpush : Keeps R push) : Keeps R (fillLeaf T loc push) := by
  refine (keeps_gets fun i j h => hR.type i j loc h).bind fun _ => keeps_demand.bind fun _ =>
    keeps_tell.bind fun _ => ?_
  split
  · exact hpush.bind fun _ => (hR.callBack _).bind fun _ => keeps_pure
  · exact keeps_halt

theorem fillSwitch {set : Settings} (hset : set.fAutoAdd = fAutoAdd) (T : ElemType) (buf n : Int)
    (h : Header) : Keeps R (fillSwitch set mem fill T buf n h) := by
  subst hset
  cases T with
  | prim t =>
    refine (hR.findOrAddLeaf _ _ _ _ _).bind fun loc => ?_
    cases loc with
    | none => exact keeps_pure
    | some loc => exact hR.fillLeaf _ _ (hR.pushDataArray _ _ _ _)
  | string =>
    refine (hR.findOrAddLeaf _ _ _ _ _).bind fun loc => ?_
    cases loc with
    | none => exact keeps_pure
    | some loc => exact hR.fillLeaf _ _ ((keeps_readStrings _ _ _ _).bind fun _ => hR.push _ _ _)
  | fadc =>
    refine (hR.findOrAddLeaf _ _ _ _ _).bind fun loc => ?_
    cases loc with
    | none => exact keeps_pure
    | some loc =>
      exact hR.fillLeaf _ _ ((keeps_gets hR.thisTag).bind fun _ =>
        (keeps_readFADC _ _ _ _).bind fun _ => hR.push _ _ _)

end FillRel

end EvioTool
