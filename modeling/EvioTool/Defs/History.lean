import EvioTool.Lib.Run
import EvioTool.Defs.EvioTool

/-! The connection as ET sees it: which events are out, which came back. -/

namespace EvioTool

open Lib

def lastGot : List EtCall → List EtEvent
  | [] => []
  | .get _ es :: _ => es
  | _ :: cs => lastGot cs

def timesGot : List EtCall → Nat
  | [] => 0
  | .get _ _ :: cs => timesGot cs + 1
  | _ :: cs => timesGot cs

def timesPut (e : EtEvent) : List EtCall → Nat
  | [] => 0
  | .put status es :: cs => (if status = ET_OK then es.count (some e) else 0) + timesPut e cs
  | _ :: cs => timesPut e cs

def held : List EtCall → List EtEvent
  | [] => []
  | .opened _ :: _ => []
  | .get _ es :: cs => es ++ held cs
  | .put status es :: cs =>
    if status = ET_OK then (held cs).filter fun e => some e ∉ es else held cs
  | _ :: cs => held cs

def ReturnedBefore (cs : List EtCall) : EtCall → Prop
  | .get _ _ => ∀ e ∈ lastGot cs, timesPut e cs = 1
  | _ => True

instance : DecidableRel ReturnedBefore := fun cs c => match c with
  | .get _ _ => inferInstanceAs (Decidable (∀ e ∈ lastGot cs, timesPut e cs = 1))
  | .opened _ | .getdata _ | .put _ _ | .closed => .isTrue trivial

/-- A get comes after all events of the get before it were looked at. -/
def ExaminedBefore (cs : List EtCall) : EtCall → Prop
  | .get _ _ => ∀ e ∈ lastGot cs, .getdata (some e) ∈ cs
  | _ => True

instance : DecidableRel ExaminedBefore := fun cs c => match c with
  | .get _ _ => inferInstanceAs (Decidable (∀ e ∈ lastGot cs, .getdata (some e) ∈ cs))
  | .opened _ | .getdata _ | .put _ _ | .closed => .isTrue trivial

/-- Only events of the current connection that are not back are looked at or put. -/
def OnlyHeld (cs : List EtCall) : EtCall → Prop
  | .getdata x => ∃ e ∈ held cs, x = some e
  | .put _ es => ∀ x ∈ es, ∃ e ∈ held cs, x = some e
  | _ => True

/-- A reader right after its connection to ET was opened for the first time. -/
structure Connected (s : World) : Prop where
  et : s.tool.fReadFromEt = true
  idle : s.tool.fEventValid = false
  start : s.tool.fCurrentChunk < 0
  calls : ∃ params, s.calls = [.opened params]

/-- The calls of a consumer that stays connected. -/
def Op.Consumes : Op → Prop
  | .next _ | .nextNoParse _ | .endEvent _ => True
  | .openEt _ _ | .reOpenEt _ | .close => False

instance : DecidablePred Op.Consumes := fun o => match o with
  | .next _ | .nextNoParse _ | .endEvent _ => .isTrue trivial
  | .openEt _ _ | .reOpenEt _ | .close => .isFalse id

end EvioTool
