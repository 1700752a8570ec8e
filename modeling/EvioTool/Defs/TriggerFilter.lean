import EvioTool.Defs.Casts
import EvioTool.Defs.ConfigEdits
import EvioTool.Defs.TSBank

/-! `HPS_Trigger_Filter`: events are written to a file by their trigger words. -/

namespace EvioTool

open Lib Exec

structure FilterArgs where
  trigger_setting : UInt32
  exclusive : Bool
  filter_FCup : Bool

/-- The condition under which an event is written. -/
def FilterArgs.accepts (a : FilterArgs) (uninit : UInt32) (data : List UInt32) : Bool :=
  (!a.exclusive && TSBank.isTrigger uninit data a.trigger_setting) ||
    (a.exclusive && TSBank.isExactTrigger uninit data a.trigger_setting) ||
    (a.filter_FCup && TSBank.isFCup data)

def uintLeaf (name title : String) (tag : Int) (cls : LeafClass (.prim .uint32) := .leaf) : LeafPtr :=
  ⟨.prim .uint32, { name, title, tag, num := 0, cls }⟩

def vtpLeaf : LeafPtr :=
  uintLeaf "VTPBank" "VTPBank data" 0xe122
    (.vtpBank { blockHeader := 0, blockTail := 0, eventHeader := 0, trigTime := 0 })

def trigCrate : Bank :=
  .node
    { name := "Trig", title := "Trigger bank", tags := [46],
      nameIndex := [("Headbank", 0), ("TSBank", 1)],
      leafs := [uintLeaf "Headbank" "Headbank data" 57615, uintLeaf "TSBank" "TSBank data" 57610] }
    []

def vtpCrate (tag : UInt16) (title : String) : Bank :=
  .node
    { name := "TrigTop", title, tags := [tag], nameIndex := [("VTPBank", 0)], leafs := [vtpLeaf] }
    []

/-- The dictionary of an `HPSEvioReader` for 2019, without its SVT and ECAL banks.  The leaf
`TriggerBank` is the one of `TrigConf`, whose `CallBack` is in `trigConfCallBack`. -/
def filterTop : Bank :=
  .node
    { name := "EvioTool", title := "The top node of the EVIO tree", tags := [128, 17],
      tagMasks := [128, 17], nameIndex := [("TriggerBank", 0), ("Header", 1)],
      leafs :=
        [⟨.string, { name := "TriggerBank", title := "Trigger configuration data.", tag := 0xE10E,
                     num := 0 }⟩,
         uintLeaf "Header" "Event Header data" 49152] }
    [trigCrate, vtpCrate 11 "Trigger Bank top", vtpCrate 12 "Trigger Bank bottom"]

def filterReader : World := { tool := { bank := filterTop } }

structure Filter where
  world : World
  config : TriggerConfig := TriggerConfig.ofBank
  written : List (List UInt32) := []

def onWorld (m : Exec Halt Obs World α) : Exec Halt Obs Filter α :=
  zoom (fun s => some s.world) (fun w s => { s with world := w }) .undefined m

def World.configLines (w : World) : Option (List Str) := do
  match ← w.tool.bank.label.leafs[0]? with
  | ⟨.string, l⟩ => some l.data
  | _ => none

/-- The `CallBack` of `TrigConf`, for an event that has been read.  The program calls it behind each
bank with the lines up to there; nothing is done with the configuration, and a call stops only if
the last one does (`Parses.of_append`).  Nobody catches its exceptions. -/
def trigConfCallBack (u : Uninit) (lines : List Str) : Exec Halt Obs TriggerConfig Unit :=
  when (lines ≠ []) (quietly (fun _ => .undefined) (TriggerConfig.fill u lines))

def callTrigConf (u : Uninit) : Exec Halt Obs Filter Unit := do
  let lines ← demand .undefined (← gets fun s => s.world.configLines)
  zoom (fun s => some s.config) (fun c s => { s with config := c }) .undefined
    (trigConfCallBack u lines)

def Filter.trigger (s : Filter) : Option (List UInt32) := do
  let c ← s.world.tool.bank.subs[0]?
  match ← c.label.leafs[1]? with
  | ⟨.prim .uint32, l⟩ => some (l.data.map UInt32.ofBitVec)
  | _ => none

def EvioBuf.event (b : EvioBuf) : Option (List UInt32) := do
  let ws := b.words.drop b.offset
  let len ← ws.head?
  let n := len.toNat + 1
  if n ≤ ws.length then some (ws.take n) else none

def evWrite : Exec Halt Obs Filter Unit := do
  let buf ← demand .undefined (← gets fun s => s.world.tool.fEvioBuf)
  let event ← demand .outside buf.event
  modify fun s => { s with written := s.written ++ [event] }

def eventLoop (a : FilterArgs) (uninit : UInt32) (u : Uninit) (fill fuel : Nat) :
    List (List UInt32) → Exec Halt Obs Filter Unit
  | [] => do
    let _ ← onWorld (next fill fuel { read := .eof })
  | ws :: rest => do
    let stat ← onWorld (next fill fuel { read := .ok ws })
    if stat = S_SUCCESS then
      callTrigConf u
      let data ← demand .undefined (← gets Filter.trigger)
      when (a.accepts uninit data) evWrite
      eventLoop a uninit u fill fuel rest
    else pure ()

def triggerFilter (a : FilterArgs) (uninit : UInt32) (u : Uninit) (fill fuel : Nat) :
    List (List (List UInt32)) → Exec Halt Obs Filter Unit
  | [] => pure ()
  | file :: files => do
    let _ ← onWorld (open_ true)
    eventLoop a uninit u fill fuel file
    onWorld close
    triggerFilter a uninit u fill fuel files

/-- A well-formed event of container type. -/
structure FileEvent where
  tag : UInt16
  num : UInt8
  container : Container
  trees : List Tree
  banks : container.kind = .bank
  wf : (Tree.container tag num container trees).WF .bank

namespace FileEvent

def words (e : FileEvent) : List UInt32 :=
  (Tree.container e.tag e.num e.container e.trees).encode .bank

def trigBank? : Tree → Option (List Tree)
  | .container tag _ _ trees => if tag = 46 then some trees else none
  | .leaf _ _ _ _ _ => none

def trigBanks (e : FileEvent) : List (List Tree) := e.trees.filterMap trigBank?

def trigWords (trees : List Tree) : List UInt32 :=
  trees.flatMap fun
    | .leaf tag _ contentType padding payload =>
      if (leafCase contentType padding).isSome && tag = 57610 then payload else []
    | .container _ _ _ _ => []

/-- There is at most one bank of tag 46, with seven trigger words. -/
structure TriggerShaped (e : FileEvent) : Prop where
  one : e.trigBanks.length ≤ 1
  seven : ∀ trees ∈ e.trigBanks, (trigWords trees).length = 7

def passes (e : FileEvent) : Bool := filterTop.label.checkTag e.tag

/-- The event passes the tag check, and its own trigger words are as the arguments say. -/
def Selected (a : FilterArgs) (e : FileEvent) : Prop :=
  e.passes = true ∧ ∃ trees ∈ e.trigBanks,
    let data := trigWords trees
    (a.exclusive = false ∧ data.getD 4 0 &&& a.trigger_setting ≠ 0) ∨
    (a.exclusive = true ∧ data.getD 4 0 = a.trigger_setting) ∨
    (a.filter_FCup = true ∧ data.getD 5 0 &&& 0x8000 ≠ 0)

instance (a : FilterArgs) : DecidablePred (Selected a) :=
  fun _ => inferInstanceAs (Decidable (_ ∧ ∃ _ ∈ _, _))

end FileEvent

/-- An event and what lies behind it in the buffer of its block, which has no more than `2 ^ 32`
words. -/
structure BlockEvent extends FileEvent where
  behind : List UInt32
  fits : toFileEvent.words.length + behind.length ≤ 2 ^ 32

def BlockEvent.buffer (e : BlockEvent) : List UInt32 := e.words ++ e.behind

def BankInfo.typeFor (i : BankInfo) (tag : UInt16) (num : UInt8) : Option ElemType := do
  let loc ← i.findLeaf tag num
  let l ← i.leafs[loc]?
  some l.1

def BankInfo.suits (i : BankInfo) (tag : UInt16) (num : UInt8) (contentType padding words : Nat) :
    Bool :=
  match leafCase contentType padding with
  | none => true
  | some (T, n, d) =>
    decide (FitsInt (words * n) ∧ FitsInt (words * n - d)) && (i.typeFor tag num).all (· = T)

def stringsIn : Nat → Int → List UInt8 → Option (List Str)
  | 0, _, _ => none
  | _ + 1, _, [] => none
  | k + 1, len, c :: bs =>
    if c ≠ 0x4 ∧ 0 < len then
      match (c :: bs).dropWhile isprint with
      | [] => none
      | _ :: rest =>
        let s := (c :: bs).takeWhile isprint
        (stringsIn k (len - s.length - 1) rest).map fun ss => if 0 < s.length then s :: ss else ss
    else some []

def vtpParses (ws : List UInt32) : Bool :=
  match VTPBank.parseBank ws { blockHeader := 0, blockTail := 0, eventHeader := 0, trigTime := 0 } with
  | .ok _ => true
  | .error _ => false

def vtpAdd (node : BankInfo) (ws : List UInt32) : Tree → Option (List UInt32)
  | .container _ _ _ _ => some ws
  | .leaf tag num contentType padding payload =>
    if node.suits tag num contentType padding payload.length then
      if (leafCase contentType padding).isSome ∧ tag = 0xe122 then
        if vtpParses (ws ++ payload) then some (ws ++ payload) else none
      else some ws
    else none

def vtpWords (node : BankInfo) (ws : List UInt32) (trees : List Tree) : Option (List UInt32) :=
  trees.foldlM (vtpAdd node) ws

def trigSuits (tree : Tree) : Bool :=
  match tree with
  | .container _ _ _ _ => true
  | .leaf tag num contentType padding payload =>
    trigCrate.label.suits tag num contentType padding payload.length

structure Held where
  lines : List Str := []
  top : List UInt32 := []
  bottom : List UInt32 := []

/-- What they hold behind a bank of an event, with `behind` in the memory after it; there is nothing
when the reader does not get to its end. -/
def Held.add (behind : List UInt32) (h : Held) : Tree → Option Held
  | .leaf tag num contentType padding payload =>
    if filterTop.label.suits tag num contentType padding payload.length then
      if (leafCase contentType padding).isSome ∧ tag = 0xE10E then
        let bs := Mem.wordBytes (payload ++ behind)
        (stringsIn (bs.length + 1) (payload.length * 4 - padding) bs).map fun ss =>
          { h with lines := h.lines ++ ss }
      else some h
    else none
  | .container tag _ _ trees =>
    if tag = 46 then if trees.all trigSuits then some h else none
    else if tag = 11 then
      (vtpWords (vtpCrate 11 "Trigger Bank top").label h.top trees).map fun top => { h with top }
    else if tag = 12 then
      (vtpWords (vtpCrate 12 "Trigger Bank bottom").label h.bottom trees).map fun bottom =>
        { h with bottom }
    else some h

def Held.read (behind : List UInt32) : Held → List Tree → Option Held
  | h, [] => some h
  | h, tree :: trees => do
    let h ← h.add (Tree.encodeAll .bank trees ++ behind) tree
    Held.read behind h trees

/-- What the leaves hold of an event; `ParseBank` takes the length of one of `2 ^ 31 - 2` words or
more for a negative one, and finds no banks in it. -/
def FileEvent.held (behind : List UInt32) (e : FileEvent) : Option Held :=
  let len := (Tree.encodeAll e.container.kind e.trees).length
  if e.passes = false then some {}
  else if len + 2 < 2 ^ 31 then Held.read behind {} e.trees
  else if FitsInt (toInt32 (len + 2) - 2) then some {}
  else none

/-- The reader gets to the end of the event, and the parser to the end of its configuration. -/
def FileEvent.ReadsTo (u : Uninit) (behind : List UInt32) (e : FileEvent) : Prop :=
  ∃ h ∈ e.held behind, Parses u h.lines

instance (u : Uninit) (behind : List UInt32) : DecidablePred (FileEvent.ReadsTo u behind) :=
  fun e => decidable_of_iff ((e.held behind).any fun h => decide (Parses u h.lines)) (by
    unfold FileEvent.ReadsTo
    cases e.held behind <;> simp)

end EvioTool
