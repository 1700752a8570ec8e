import EvioTool.Defs.Bank

/-! `PushDataArray`: `Bank` copies the payload into the leaf, the SVT banks decode it. -/

namespace EvioTool

open Lib Exec

def readElems (mem : Mem) (who : Reader) (t : Prim) (buf len : Int) :
    Exec Halt Obs σ (List (ElemType.prim t).Val) := do
  if len < 0 then halt .undefined
  else
    tell (.read who (4 * buf) (len.toNat * t.width))
    demand .outside (mem.elems (4 * buf) t.width len.toNat)

namespace BankInfo

def setLeaf (b : BankInfo) (loc : Nat) (l : LeafPtr) : BankInfo :=
  { b with leafs := b.leafs.set loc l }

def pushLeaf (b : BankInfo) (loc : Nat) (T : ElemType) (xs : List T.Val) : Option BankInfo := do
  let l ← b.leafs[loc]?
  let l ← l.pushDataArray T xs
  some (b.setLeaf loc l)

end BankInfo

def pushLeaf (loc : Nat) (T : ElemType) (xs : List T.Val) : Exec Halt Obs BankInfo Unit :=
  fun b => match b.pushLeaf loc T xs with
    | some b => ⟨.ok (), b, []⟩
    | none => ⟨.error .undefined, b, []⟩

def Bank.pushDataArray (mem : Mem) (who : Reader) (loc : Nat) (t : Prim) (buf len : Int) :
    Exec Halt Obs BankInfo Unit := do
  let xs ← readElems mem who t buf len
  pushLeaf loc (.prim t) xs

def modifySVT (f : SVTBank → SVTBank) : Exec Halt Obs BankInfo Unit :=
  modify fun b => { b with cls := b.cls.mapSVT f }

namespace SVTWords

def totalEvtSize (h : SVTWords) : UInt32 := (h.w3 >>> 8) &&& 0xFFFFF

def isTail (cn : SVTWords) : Bool := (cn.w3 >>> 29) &&& 1 == 1

def isHeader (cn : SVTWords) : Bool := (cn.w3 >>> 30) &&& 1 == 1

end SVTWords

def readSVTWords (mem : Mem) (a : Int) : Exec Halt Obs σ SVTWords := do
  let w0 ← readWord mem .svt a
  let w1 ← readWord mem .svt (a + 1)
  let w2 ← readWord mem .svt (a + 2)
  let w3 ← readWord mem .svt (a + 3)
  pure { w0, w1, w2, w3 }

namespace SVTBank

def pushChan (cn : SVTWords) : Exec Halt Obs BankInfo Unit :=
  when (!cn.isTail && !cn.isHeader)
    (modifySVT fun v => { v with svtData := v.svtData ++ [cn] })

def readChans (mem : Mem) (dat : Int) (frameEnd : UInt32) :
    Nat → UInt32 → Exec Halt Obs BankInfo UInt32
  | 0, _ => halt .fillFuel
  | n + 1, i =>
    if i < frameEnd then do
      let cn ← readSVTWords mem (dat + i.toNat)
      pushChan cn
      readChans mem dat frameEnd n (i + 4)
    else pure i

def storeRaw (v : SVTBank) (mem : Mem) (dat len : Int) : Exec Halt Obs BankInfo Unit :=
  Bank.pushDataArray mem .svt v.svtLeaf .uint32 dat len

def readFrames (v : SVTBank) (mem : Mem) (dat len : Int) :
    Nat → UInt32 → Exec Halt Obs BankInfo Unit
  | 0, _ => halt .fillFuel
  | n + 1, i =>
    if i < UInt32.ofInt (len - 1) then do
      let head ← readSVTWords mem (dat + i.toNat)
      when v.fSaveHeaders (modifySVT fun v => { v with svtHeaders := v.svtHeaders ++ [head] })
      let i ← readChans mem dat (i + head.totalEvtSize / 4 - 4) n (i + 4)
      -- the check of the tail prints a message at most, but it reads all four words
      let tail ← readSVTWords mem (dat + i.toNat)
      when v.fSaveHeaders (modifySVT fun v => { v with svtTails := v.svtTails ++ [tail.w0] })
      when v.fStoreRaw (storeRaw v mem dat len)
      readFrames v mem dat len n (i + 4)
    else pure ()

def pushDataArray (v : SVTBank) (mem : Mem) (fill : Nat) (dat len : Int) :
    Exec Halt Obs BankInfo Unit :=
  readFrames v mem dat len fill 1

end SVTBank

namespace SVTBank2016

def readFrames (mem : Mem) (dat len : Int) : Nat → UInt32 → Exec Halt Obs BankInfo Unit
  | 0, _ => halt .fillFuel
  | n + 1, i =>
    if i < UInt32.ofInt (len - 1) then do
      let cn ← readSVTWords mem (dat + i.toNat)
      SVTBank.pushChan cn
      readFrames mem dat len n (i + 4)
    else pure ()

def pushDataArray (v : SVTBank) (mem : Mem) (fill : Nat) (dat len : Int) :
    Exec Halt Obs BankInfo Unit := do
  readFrames mem dat len fill 1
  when v.fSaveHeaders do
    let tail ← readWord mem .svt (dat + (len - 1))
    modifySVT fun v => { v with svtTails := v.svtTails ++ [tail] }
  when v.fStoreRaw (v.storeRaw mem dat len)

end SVTBank2016

def BankClass.pushDataArray (mem : Mem) (fill : Nat) (loc : Nat) (t : Prim) (buf len : Int) :
    BankClass → Exec Halt Obs BankInfo Unit
  | .bank => Bank.pushDataArray mem .leaf loc t buf len
  | .svtBank v =>
    if t = .uint32 then v.pushDataArray mem fill buf len
    else Bank.pushDataArray mem .leaf loc t buf len
  | .svtBank2016 v =>
    if t = .uint32 then SVTBank2016.pushDataArray v mem fill buf len
    else Bank.pushDataArray mem .leaf loc t buf len

def pushDataArray (mem : Mem) (fill : Nat) (loc : Nat) (t : Prim) (buf len : Int) :
    Exec Halt Obs BankInfo Unit := do
  (← gets BankInfo.cls).pushDataArray mem fill loc t buf len

end EvioTool
