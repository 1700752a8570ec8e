import EvioTool.Defs.EvioBlocks
import EvioTool.Defs.EventTree
import EvioTool.Defs.EvioTool

/-! An `EvioTool` that reads a file. -/

namespace EvioTool

open Lib Exec

structure FileReader where
  world : World
  input : Option EvReader := none

namespace FileReader

def onTool (m : Exec Halt Obs World α) : Exec Halt Obs FileReader α :=
  zoom (fun s => some s.world) (fun w s => { s with world := w }) .undefined m

def openFile (env : ReadEnv) (fuel : Nat) (file : List UInt32) : Exec Halt Obs FileReader Int := do
  let input ← demand .undefined (EvReader.evOpen env fuel file)
  modify fun s => { s with input := input.getRight? }
  onTool (open_ input.isRight)

def nextEvent (env : ReadEnv) (fill fuel : Nat) : Exec Halt Obs FileReader Int := do
  match ← gets input with
  | none => onTool (next fill fuel { read := .error })
  | some a =>
    let (status, event, a) ← demand .outside (a.evReadNoCopy env)
    modify fun s => { s with input := some a }
    onTool (next fill fuel
      { read := if status = 0 then .ok event else if status = EV_EOF then .eof else .error })

def closeFile : Exec Halt Obs FileReader Unit := do
  onTool close
  modify fun s => { s with input := none }

def readEvents (env : ReadEnv) (fill fuel : Nat) : Nat → Exec Halt Obs FileReader (List Bank × Int)
  | 0 => halt .fuel
  | n + 1 => do
    let stat ← nextEvent env fill fuel
    if stat = S_SUCCESS then
      let b ← gets fun s => s.world.tool.bank
      let (bs, stat) ← readEvents env fill fuel n
      pure (b :: bs, stat)
    else pure ([], stat)

def readFile (env : ReadEnv) (fill fuel : Nat) (file : List UInt32) :
    Exec Halt Obs FileReader (List Bank × Int) := do
  let _ ← openFile env fuel file
  let r ← readEvents env fill fuel fuel
  closeFile
  pure r

end FileReader

/-- A well-formed event of 32-bit words. -/
structure ItemEvent where
  tag : UInt16
  num : UInt8
  container : Container
  items : List Item
  banks : container.kind = .bank
  wf : (Item.container tag num container items).WF .bank

namespace ItemEvent

def words (e : ItemEvent) : List UInt32 := (Item.container e.tag e.num e.container e.items).encode .bank

def enter (set : Settings) (e : ItemEvent) (b : Bank) : Bank :=
  if set.fChopLevel > 0 ∧ !b.label.checkTag e.tag then b.setLabel (b.label.setTag e.tag e.num)
  else foldEvent set e.tag e.num e.container e.items b

def replace (set : Settings) (full : Bool) (e : ItemEvent) (b : Bank) : Bank :=
  e.enter set ((if full then Bank.clearFull else Bank.clear) b)

def replaceAll (set : Settings) (full : Bool) : List ItemEvent → Bank → List Bank
  | [], _ => []
  | e :: es, b => e.replace set full b :: replaceAll set full es (e.replace set full b)

end ItemEvent

end EvioTool
