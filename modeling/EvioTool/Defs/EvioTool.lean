import EvioTool.Defs.ParseBank

/-! The reader: events come from a file or from ET, one after the other. -/

namespace EvioTool

open Lib Exec

def S_SUCCESS : Int := 0
def EvioTool_Status_EOF : Int := 1
def EvioTool_Status_ERROR : Int := 2
def ET_OK : Int := 0
def ET_ERROR : Int := -1
def ET_ERROR_EMPTY : Int := -6
def ET_ERROR_READ : Int := -9

structure EtData where
  words : List UInt32
  length : Nat
  fits : length ≤ 4 * words.length
  deriving DecidableEq

structure EtEvent where
  id : Nat
  data : EtData
  deriving DecidableEq

inductive Locality
  | ET_LOCAL | ET_REMOTE | ET_LOCAL_NOSHARE
  deriving DecidableEq

structure EtParams where
  fETStationName : String := "EvioTool"
  fETPort : Int := 11111
  fETHost : String := "clondaq6"
  fETName : String := "/et/clasprod"
  fETPos : Int := 1
  fETPpos : Int := 1
  fETNoBlock : Bool := true
  deriving DecidableEq

inductive EtCall
  | opened (params : EtParams)
  | get (status : Int) (events : List EtEvent)
  | getdata (entry : Option EtEvent)
  | put (status : Int) (entries : List (Option EtEvent))
  | closed
  deriving DecidableEq

theorem error_ne_ok : ET_ERROR ≠ ET_OK := by decide

/-- A get that succeeds hands out at least one event. -/
inductive GetAnswer
  | ok (first : EtData) (rest : List EtData)
  | error (status : Int) (h : status ≠ ET_OK)

namespace GetAnswer

def status : GetAnswer → Int
  | .ok _ _ => ET_OK
  | .error s _ => s

def data (num : Nat) : GetAnswer → List EtData
  | .ok d ds => (d :: ds).take (min num 0x7FFFFFFF)
  | .error _ _ => []

/-- At most `num` events, which get the identities from `fresh` on. -/
def events (num fresh : Nat) (a : GetAnswer) : List EtEvent :=
  (a.data num).mapIdx fun i d => ⟨fresh + i, d⟩

end GetAnswer

structure OpenAnswer where
  locality : Locality
  et_open : Bool := true
  et_station_create : Bool := true
  et_station_attach : Bool := true
  calloc : Bool := true

inductive ReadAnswer
  | ok (words : List UInt32) | eof | error

/-- What the libraries answer in the course of one call of `Next` or `NextNoParse`;
`putFirst` is the put of the event that was not ended. -/
structure Answers where
  putFirst : Int := ET_OK
  get : GetAnswer := .error ET_ERROR error_ne_ok
  read : ReadAnswer := .error
  putLast : Int := ET_OK

structure EvioBuf where
  words : List UInt32
  offset : Nat
  deriving DecidableEq

def EvioBuf.mem (b : EvioBuf) : Mem := fun a => Mem.ofList b.words (a + b.offset)

/-- The members of `EvioTool`.  `fPEventBuffer` is `none` when it is null or deleted; `locality` is that of the
system that `fEventId` points to. -/
structure Tool where
  bank : Bank
  set : Settings := {}
  fFullErase : Bool := false
  params : EtParams := {}
  fIsOpen : Bool := false
  fReadFromEt : Bool := false
  fEtReadChunkSize : Nat := 10
  fNumRead : Int := 1
  fCurrentChunk : Int := -1
  fEventValid : Bool := false
  fPEventBuffer : Option (List (Option EtEvent)) := none
  locality : Locality := .ET_REMOTE
  fEvioBuf : Option EvioBuf := none

def Tool.entries (t : Tool) : Option (List (Option EtEvent)) := do
  let b ← t.fPEventBuffer
  if t.fNumRead.toNat ≤ b.length then some (b.take t.fNumRead.toNat) else none

def Tool.entry (t : Tool) : Option (Option EtEvent) := do
  let b ← t.fPEventBuffer
  b[t.fCurrentChunk.toNat]?

/-- The reader, and the history of its calls into ET, the latest first. -/
structure World where
  tool : Tool
  calls : List EtCall := []
  fresh : Nat := 0

def modifyTool (f : Tool → Tool) : Exec Halt Obs World Unit :=
  modify fun w => { w with tool := f w.tool }

def call (c : EtCall) : Exec Halt Obs World Unit := modify fun w => { w with calls := c :: w.calls }

def onBank (m : Exec Halt Obs Bank α) : Exec Halt Obs World α :=
  zoom (fun w => some w.tool.bank) (fun b w => { w with tool := { w.tool with bank := b } })
    .undefined m

def open_ (evOpen : Bool) : Exec Halt Obs World Int := do
  modifyTool fun t => { t with fIsOpen := evOpen }
  pure (if evOpen then 0 else 1)

def reOpenEt (a : OpenAnswer) : Exec Halt Obs World Int := do
  modifyTool fun t => { t with fReadFromEt := true }
  if !a.et_open then
    modifyTool fun t => { t with fReadFromEt := false }
    pure ET_ERROR
  else
    call (.opened (← gets fun w => w.tool.params))
    modifyTool fun t => { t with locality := a.locality }
    if !a.et_station_create || !a.et_station_attach then
      modifyTool fun t => { t with fReadFromEt := false }
      pure ET_ERROR
    else if !a.calloc then
      modifyTool fun t => { t with fPEventBuffer := none, fReadFromEt := false }
      pure ET_ERROR
    else
      modifyTool fun t => { t with fPEventBuffer := some (.replicate t.fEtReadChunkSize none) }
      pure ET_OK

def openEt (params : EtParams) (a : OpenAnswer) : Exec Halt Obs World Int := do
  modifyTool fun t => { t with params }
  reOpenEt a

def close : Exec Halt Obs World Unit := do
  when (← gets fun w => w.tool.fReadFromEt) do
    call .closed
    modifyTool fun t => { t with fPEventBuffer := none, fReadFromEt := false }
  modifyTool fun t => { t with fIsOpen := false }

def et_events_put (status : Int) : Exec Halt Obs World Int := do
  let es ← demand .undefined (← gets fun w => w.tool.entries)
  call (.put status es)
  pure status

def et_events_get (num : Nat) (a : GetAnswer) : Exec Halt Obs World (Int × Nat) := do
  let es ← gets fun w => a.events num w.fresh
  call (.get a.status es)
  modify fun w => { w with fresh := w.fresh + es.length }
  let b ← demand .undefined (← gets fun w => w.tool.fPEventBuffer)
  if es.length ≤ b.length then
    modifyTool fun t => { t with fPEventBuffer := some (es.map some ++ b.drop es.length) }
    pure (a.status, es.length)
  else halt .undefined

def endEvent (put : Int) : Exec Halt Obs World Int := do
  let t ← gets World.tool
  let status ← if t.fEventValid && t.fReadFromEt && t.fCurrentChunk == 0 then et_events_put put
    else pure ET_OK
  if status ≠ ET_OK then pure status
  else
    let c ← int32 (t.fCurrentChunk - 1)
    modifyTool fun t => { t with fEventValid := false, fCurrentChunk := c }
    pure ET_OK

def getEvent (a : GetAnswer) : Exec Halt Obs World Int := do
  let t ← gets World.tool
  if t.locality = .ET_LOCAL then
    if t.fCurrentChunk < 0 then
      let (stat, n) ← et_events_get t.fEtReadChunkSize a
      modifyTool fun t => { t with fNumRead := n, fCurrentChunk := n - 1 }
      pure stat
    else pure ET_OK
  else
    let (stat, _) ← et_events_get 1 a
    modifyTool fun t => { t with fNumRead := 1, fCurrentChunk := 0 }
    pure stat

def checkEvent : Exec Halt Obs World Int := do
  let t ← gets World.tool
  if t.fCurrentChunk < 0 then pure ET_ERROR_EMPTY
  else
    let entry ← demand .undefined t.entry
    call (.getdata entry)
    let e ← demand .undefined entry
    modifyTool fun t => { t with fEvioBuf := some ⟨e.data.words, 0⟩ }
    if e.data.length / 4 > 10 then
      let w ← demand .outside e.data.words[7]?
      if w ≠ 0xc0da0100 then
        modifyTool fun t => { t with fCurrentChunk := t.fCurrentChunk - 1 }
        pure ET_ERROR_READ
      else
        modifyTool fun t => { t with fEvioBuf := some ⟨e.data.words, 8⟩, fEventValid := true }
        pure ET_OK
    else pure EvioTool_Status_ERROR

def nextNoParse (a : Answers) : Exec Halt Obs World Int := do
  let t ← gets World.tool
  if t.fReadFromEt then
    when t.fEventValid (endEvent a.putFirst)
    let stat ← getEvent a.get
    if stat ≠ ET_OK then pure stat else checkEvent
  else
    match a.read with
    | .eof => pure EvioTool_Status_EOF
    | .error => pure EvioTool_Status_ERROR
    | .ok words =>
      modifyTool fun t => { t with fEvioBuf := some ⟨words, 0⟩, fEventValid := true }
      pure S_SUCCESS

def next (fill fuel : Nat) (a : Answers) : Exec Halt Obs World Int := do
  let stat ← nextNoParse a
  if stat ≠ S_SUCCESS then pure stat
  else
    let t ← gets World.tool
    onBank (modify (if t.fFullErase then Bank.clearFull else Bank.clear))
    let buf ← demand .undefined t.fEvioBuf
    let stat ← onBank (parseEvioBuff t.set buf.mem fill fuel)
    let _ ← endEvent a.putLast
    pure stat

inductive Op
  | next (a : Answers)
  | nextNoParse (a : Answers)
  | endEvent (put : Int)
  | openEt (params : EtParams) (a : OpenAnswer)
  | reOpenEt (a : OpenAnswer)
  | close

def Op.exec (fill fuel : Nat) : Op → Exec Halt Obs World Unit
  | .next a => EvioTool.next fill fuel a >>= fun _ => pure ()
  | .nextNoParse a => EvioTool.nextNoParse a >>= fun _ => pure ()
  | .endEvent put => EvioTool.endEvent put >>= fun _ => pure ()
  | .openEt params a => EvioTool.openEt params a >>= fun _ => pure ()
  | .reOpenEt a => EvioTool.reOpenEt a >>= fun _ => pure ()
  | .close => EvioTool.close

end EvioTool
