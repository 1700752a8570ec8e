import EvioTool.Defs.PushDataArray

/-! SVT data of 2019: frames of a header, multisamples and a tail, between a leading
and a trailing word. -/

namespace EvioTool

open Lib Exec

def SVTWords.words (s : SVTWords) : List UInt32 := [s.w0, s.w1, s.w2, s.w3]

def SVTWords.headerMark (h : SVTWords) : UInt32 := h.w0 >>> 28

structure SVTFrame where
  header : SVTWords
  samples : List SVTWords
  tail : SVTWords
  mark : header.headerMark = 0xB
  noTail : ∀ s ∈ samples, s.isTail = false
  size : header.totalEvtSize.toNat = 16 * (samples.length + 2)

namespace SVTFrame

def words (f : SVTFrame) : List UInt32 :=
  f.header.words ++ f.samples.flatMap SVTWords.words ++ f.tail.words

def data (f : SVTFrame) : List SVTWords := f.samples.filter fun s => !s.isHeader

def payload (lead : UInt32) (frames : List SVTFrame) (trail : UInt32) : List UInt32 :=
  lead :: frames.flatMap words ++ [trail]

end SVTFrame

namespace SVTBank

def addFrames (v : SVTBank) (frames : List SVTFrame) : SVTBank :=
  { v with
    svtData := v.svtData ++ frames.flatMap SVTFrame.data
    svtHeaders := v.svtHeaders ++ if v.fSaveHeaders then frames.map SVTFrame.header else []
    svtTails := v.svtTails ++ if v.fSaveHeaders then frames.map fun f => f.tail.w0 else [] }

end SVTBank

def svtWordsAt (ws : List UInt32) (i : Nat) : SVTWords where
  w0 := ws.getD i 0
  w1 := ws.getD (i + 1) 0
  w2 := ws.getD (i + 2) 0
  w3 := ws.getD (i + 3) 0

def evtWords (ws : List UInt32) (i : Nat) : Nat := (svtWordsAt ws i).totalEvtSize.toNat / 4

def turnWords (ws : List UInt32) (i : Nat) : Nat := 4 * max 2 ((evtWords ws i + 3) / 4)

/-- Behind the first word there are frames of the length that their headers lead to, and at most
one more word.  The first frame has three words at least. -/
def SplitsIntoFrames (ws : List UInt32) : Prop :=
  ∃ (lead : UInt32) (frames : List (List UInt32)) (rest : List UInt32),
    ws = lead :: (frames.flatten ++ rest) ∧ rest.length ≤ 1 ∧
    (∀ f ∈ frames, f.length = turnWords f 0) ∧ ∀ f ∈ frames.head?, 3 ≤ evtWords f 0

end EvioTool
