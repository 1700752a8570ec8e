import EvioTool.Defs.PushDataArray

/-! `AddOrFillLeaf`: find or add the leaf of a leaf bank and fill it. -/

namespace EvioTool

open Lib Exec

def readLE (mem : Mem) (who : Reader) (b : Int) (n : Nat) : Exec Halt Obs σ Nat := do
  tell (.read who b n)
  let bs ← demand .outside (mem.bytes b n)
  pure (leNat bs)

def isprint (c : UInt8) : Bool := 0x20 ≤ c && c ≤ 0x7E

def readRun (mem : Mem) : Nat → Int → Exec Halt Obs σ (List UInt8)
  | 0, _ => halt .fillFuel
  | k + 1, n => do
    let c := UInt8.ofNat (← readLE mem .string n 1)
    if isprint c then
      let s ← readRun mem k (n + 1)
      pure (c :: s)
    else pure []

def readStrings (mem : Mem) (start len : Int) : Nat → Int → Exec Halt Obs σ (List (List UInt8))
  | 0, _ => halt .fillFuel
  | k + 1, c => do
    let c0 ← readLE mem .string c 1
    if c0 ≠ 0x4 ∧ c - start < len then
      let s ← readRun mem k c
      let rest ← readStrings mem start len k (c + s.length + 1)
      pure (if 0 < s.length then s :: rest else rest)
    else pure []

namespace FADCdata

def getNext (mem : Mem) (cbuf indx : Int) (n : Nat) : Exec Halt Obs σ (Nat × Int) := do
  let x ← readLE mem .fadc (cbuf + indx) n
  let indx ← int32 (indx + n)
  pure (x, indx)

def ofSamples (mem : Mem) (cbuf : Int) (d : FADCdata) (indx : Int) :
    Exec Halt Obs σ (FADCdata × Int) := do
  let (chan, indx) ← getNext mem cbuf indx 1
  let (count, indx) ← getNext mem cbuf indx 4
  let nsamples := toInt32 count
  -- reserve throws on a negative count
  if nsamples < 0 then halt .undefined
  else do
    tell (.read .fadc (cbuf + indx) (nsamples.toNat * 2))
    let samples ← demand .outside (mem.elems (cbuf + indx) 2 nsamples.toNat)
    let size ← int32 (nsamples * 2)
    let indx ← int32 (indx + size)
    pure ({ d with chan := UInt8.ofNat chan, samples := samples.map UInt16.ofBitVec }, indx)

def ofValue (mem : Mem) (cbuf : Int) (d : FADCdata) (indx : Int) :
    Exec Halt Obs σ (FADCdata × Int) := do
  let (value, indx) ← getNext mem cbuf indx 4
  pure ({ d with iAdc := UInt32.ofNat value }, indx)

def ofChanVal (mem : Mem) (cbuf : Int) (d : FADCdata) (indx : Int) :
    Exec Halt Obs σ (FADCdata × Int) := do
  let (chan, indx) ← getNext mem cbuf indx 1
  let (val, indx) ← getNext mem cbuf indx 2
  pure ({ d with chan := UInt8.ofNat chan, adc := UInt16.ofNat val }, indx)

def repeatEntry (entry : Int → Exec Halt Obs σ (FADCdata × Int)) :
    Nat → Int → Exec Halt Obs σ (List FADCdata × Int)
  | 0, indx => pure ([], indx)
  | n + 1, indx => do
    let (d, indx) ← entry indx
    let (ds, indx) ← repeatEntry entry n indx
    pure (d :: ds, indx)

def readEntries (mem : Mem) (cbuf : Int) (entry : Int → Exec Halt Obs σ (FADCdata × Int))
    (indx : Int) : Exec Halt Obs σ (List FADCdata × Int) := do
  let (count, indx) ← getNext mem cbuf indx 4
  repeatEntry entry (toInt32 count).toNat indx

def readHits (mem : Mem) (tag : UInt16) (cbuf : Int) (d : FADCdata) (indx : Int) :
    Exec Halt Obs σ (List FADCdata × Int) :=
  if tag = 57601 then readEntries mem cbuf (ofSamples mem cbuf d) indx
  else if tag = 57650 then readEntries mem cbuf (ofValue mem cbuf d) indx
  else if tag = 57622 then readEntries mem cbuf (ofChanVal mem cbuf d) indx
  else pure ([], indx)

def readSlots (mem : Mem) (crate : UInt8) (tag : UInt16) (cbuf buflen : Int) :
    Nat → Int → Exec Halt Obs σ (List FADCdata)
  | 0, _ => halt .fillFuel
  | k + 1, indx =>
    if indx < buflen then do
      let (slot, indx) ← getNext mem cbuf indx 1
      let (trig, indx) ← getNext mem cbuf indx 4
      let (time, indx) ← getNext mem cbuf indx 8
      let d : FADCdata :=
        { crate, slot := UInt8.ofNat slot, trig := UInt32.ofNat trig,
          reftime := UInt64.ofNat time }
      let (ds, indx) ← readHits mem tag cbuf d indx
      let rest ← readSlots mem crate tag cbuf buflen k indx
      pure (ds ++ rest)
    else pure []

def read (mem : Mem) (fill : Nat) (crate : UInt8) (tag : UInt16) (buf : Int) :
    Exec Halt Obs σ (List FADCdata) := do
  let formatLen : Int := ((← readWord mem .fadc buf) &&& 0xFFFF).toNat
  let dataLen := toInt32 ((← readWord mem .fadc (buf + 1 + formatLen)).toNat - 1)
  let buflen ← int32 (dataLen * 4)
  let buflen ← int32 (buflen - 4)
  readSlots mem crate tag (4 * (buf + 3 + formatLen)) buflen fill 0

end FADCdata

def findOrAddLeaf (fAutoAdd : Bool) (T : ElemType) (str desc : String) (tag : UInt16)
    (num : UInt8) : Exec Halt Obs BankInfo (Option Nat) := do
  match ← gets fun b => b.findLeaf tag num with
  | some loc => pure (some loc)
  | none =>
    if fAutoAdd then
      modify fun b => b.addLeaf T str tag num desc
      let n ← gets fun b => b.leafs.length
      pure (some (n - 1))
    else pure none

def callBack (loc : Nat) : Exec Halt Obs BankInfo Unit := do
  let l ← demand .undefined (← gets fun b => b.leafs[loc]?)
  let l ← ofExcept l.callBack
  modify fun b => b.setLeaf loc l

/-- Fill the leaf at `loc`, which is taken for a `Leaf<T>` without a check. -/
def fillLeaf (T : ElemType) (loc : Nat) (push : Exec Halt Obs BankInfo Unit) :
    Exec Halt Obs BankInfo Int := do
  let have_ ← demand .undefined (← gets fun b => b.leafs[loc]?.map Sigma.fst)
  tell (.filled have_ T)
  if have_ = T then
    push
    callBack loc
    pure 1
  else halt .undefined

def intStr (tag : UInt16) (num : UInt8) : String :=
  "Int-" ++ toString tag.toNat ++ "d-" ++ toString num.toNat ++ "d"

def addOrFillLeaf (fAutoAdd : Bool) (mem : Mem) (fill : Nat) (t : Prim) (buf len : Int)
    (tag : UInt16) (num : UInt8) : Exec Halt Obs BankInfo Int := do
  match ← findOrAddLeaf fAutoAdd (.prim t) (intStr tag num) "Auto added int leaf" tag num with
  | none => pure 0
  | some loc => fillLeaf (.prim t) loc (pushDataArray mem fill loc t buf len)

def addOrFillLeafString (fAutoAdd : Bool) (mem : Mem) (fill : Nat) (buf len : Int)
    (tag : UInt16) (num : UInt8) : Exec Halt Obs BankInfo Int := do
  let str := "String-" ++ toString tag.toNat ++ "-" ++ toString num.toNat
  match ← findOrAddLeaf fAutoAdd .string str "Auto added string leaf" tag num with
  | none => pure 0
  | some loc => fillLeaf .string loc do
    let xs ← readStrings mem (4 * buf) len fill (4 * buf)
    pushLeaf loc .string xs

def addOrFillLeafFADCdata (fAutoAdd : Bool) (mem : Mem) (fill : Nat) (buf : Int)
    (tag : UInt16) (num : UInt8) : Exec Halt Obs BankInfo Int := do
  let str := "FADC-" ++ toString tag.toNat ++ "-" ++ toString num.toNat
  match ← findOrAddLeaf fAutoAdd .fadc str "Auto added string leaf" tag num with
  | none => pure 0
  | some loc => fillLeaf .fadc loc do
    let crate := (← gets BankInfo.thisTag).toUInt8
    let xs ← FADCdata.read mem fill crate tag buf
    pushLeaf loc .fadc xs

end EvioTool
