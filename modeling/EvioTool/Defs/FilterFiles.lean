import EvioTool.Defs.FileReader
import EvioTool.Defs.TriggerFilter
import EvioTool.Defs.WrittenFile

/-! `HPS_Trigger_Filter` from the files that it reads to the file that it writes. -/

namespace EvioTool

open Lib Exec

structure FilterFiles where
  reader : FileReader
  config : TriggerConfig := TriggerConfig.ofBank
  output : EvWriter := {}

/-- What the program finds outside: memory, and what of it is not set. -/
structure FilterEnv where
  read : ReadEnv
  garbage : Nat → UInt32
  uninit : UInt32
  config : Uninit

namespace FilterFiles

def onReader (m : Exec Halt Obs FileReader α) : Exec Halt Obs FilterFiles α :=
  zoom (fun s => some s.reader) (fun r s => { s with reader := r }) .undefined m

def writeEvent (env : FilterEnv) : Exec Halt Obs FilterFiles Int := do
  let buf ← demand .undefined (← gets fun s => s.reader.world.tool.fEvioBuf)
  let (status, output) ← demand .outside
    ((← gets output).evWrite env.garbage (buf.words.drop buf.offset))
  modify fun s => { s with output }
  pure status

def trigger (s : FilterFiles) : Option (List UInt32) := Filter.trigger { world := s.reader.world }

def callTrigConf (env : FilterEnv) : Exec Halt Obs FilterFiles Unit := do
  let lines ← demand .undefined (← gets fun s => s.reader.world.configLines)
  zoom (fun s => some s.config) (fun c s => { s with config := c }) .undefined
    (trigConfCallBack env.config lines)

def eventLoop (env : FilterEnv) (a : FilterArgs) (fill fuel : Nat) : Nat → Exec Halt Obs FilterFiles Bool
  | 0 => halt .fuel
  | n + 1 => do
    let stat ← onReader (FileReader.nextEvent env.read fill fuel)
    if stat = S_SUCCESS then
      callTrigConf env
      let data ← demand .undefined (← gets trigger)
      let status ← if a.accepts env.uninit data then writeEvent env else pure 0
      if status ≠ 0 then pure false else eventLoop env a fill fuel n
    else pure true

def start : FilterFiles := { reader := { world := filterReader } }

end FilterFiles

def EvWriter.writeAll (garbage : Nat → UInt32) : EvWriter → List (List UInt32) → Option (Bool × EvWriter)
  | a, [] => some (true, a)
  | a, e :: es => do
    let (status, a) ← a.evWrite garbage e
    if status ≠ 0 then pure (false, a) else writeAll garbage a es

/-- A file of well-formed events, of the local byte order or of the other one. -/
structure InputFile (env : SwapEnv) where
  swapped : Bool
  blocks : List (DiskBlock env swapped)
  last : Nat
  events : List FileEvent
  same : (blocks.flatMap fun b => b.events).map (fun e => e.words) = events.map FileEvent.words

def InputFile.words {env : SwapEnv} (f : InputFile env) : List UInt32 := diskFile f.blocks f.last

namespace FilterFiles

end FilterFiles

end EvioTool
