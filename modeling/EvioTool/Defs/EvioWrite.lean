import EvioTool.Lib.Splice

/-! `evio.c`, writing to a file: events are collected in blocks in an internal buffer, and
the buffer is flushed to the file when it is full. -/

namespace EvioTool

open Lib

def EV_MAGIC : UInt32 := 0xc0da0100
def EV_VERSION : UInt32 := 4
def EV_HDSIZ : Nat := 8
def EV_BLOCKSIZE_V4 : Nat := 64000
def EV_BLOCKSIZE_MIN : Nat := 256
def EV_BLOCKSIZE_MAX : Nat := 25600000
def EV_LASTBLOCK_MASK : UInt32 := 0x200
def EV_EVENTS_MAX : Nat := 100000
def EV_EVENTS_MAX_DEF : Nat := 10000
def EV_HD_BLKSIZ : Nat := 0
def EV_HD_COUNT : Nat := 3
def EV_HD_VER : Nat := 5
def S_FAILURE : Int := -1
def S_EVFILE_BADSIZEREQ : Int := 0x80730006

def u32 (n : Nat) : Nat := n % 4294967296

def sub32 (m n : Nat) : Nat := (m + 4294967296 - n) % 4294967296

/-- What stdio was given for a file that is open for writing, and the position of the stream in it.
When it gets to the disk is left to stdio, as `evFlush` does without its `fflush`. -/
structure Disk where
  words : List UInt32 := []
  pos : Nat := 0
  deriving DecidableEq

namespace Disk

def fwrite (d : Disk) (xs : List UInt32) : Disk := ⟨splice d.words d.pos xs, d.pos + xs.length⟩

def seekBack (d : Disk) (n : Nat) : Disk := if n ≤ d.pos then { d with pos := d.pos - n } else d

end Disk

def blockHeader (size num count : Nat) (ver : UInt32) : List UInt32 :=
  [.ofNat size, .ofNat num, .ofNat EV_HDSIZ, .ofNat count, 0, ver, 0, EV_MAGIC]

def lastBlockHeader (num : Nat) : List UInt32 :=
  blockHeader EV_HDSIZ num 0 (EV_VERSION ||| EV_LASTBLOCK_MASK)

/-- The members of `EVFILE` that writing to a file uses, as `evOpen` sets them.  The pointers
`next` and `currentHeader` are indices into `buf`, `bufRealSize` is its length, and `file` is
`none` until the file is created. -/
structure EvWriter where
  buf : List UInt32 :=
    lastBlockHeader 1 ++ List.replicate (EV_BLOCKSIZE_V4 - EV_HDSIZ) 0
  next : Nat := EV_HDSIZ
  currentHeader : Nat := 0
  blksiz : Nat := EV_HDSIZ
  blknum : Nat := 1
  blkSizeTarget : Nat := EV_BLOCKSIZE_V4
  blkEvCount : Nat := 0
  bufSize : Nat := EV_BLOCKSIZE_V4
  blkEvMax : Nat := EV_EVENTS_MAX_DEF
  bytesToBuf : Nat := 4 * EV_HDSIZ
  eventsToBuf : Nat := 0
  bytesToFile : Nat := 0
  eventCount : Nat := 0
  file : Option Disk := none

def malloc (garbage : Nat → UInt32) (n : Nat) : List UInt32 := (List.range n).map garbage

namespace EvWriter

variable (garbage : Nat → UInt32)

def bufRealSize (a : EvWriter) : Nat := a.buf.length

def isLastBlock (a : EvWriter) (header : Nat) : Option Bool := do
  let ver ← a.buf[header + EV_HD_VER]?
  pure (ver &&& EV_LASTBLOCK_MASK != 0)

def generateSixthWord (isEnd : Bool) : UInt32 :=
  if isEnd then EV_VERSION ||| EV_LASTBLOCK_MASK else EV_VERSION

def writeNewHeader (a : EvWriter) (wordSize eventCount blockNumber : Nat)
    (isLast isCurrentHeader absoluteMode : Bool) : Option (Int × EvWriter) := do
  if sub32 a.bufSize (a.bytesToBuf / 4) < 8 then pure (S_FAILURE, a)
  else
    let a := if isCurrentHeader then { a with currentHeader := a.next } else a
    let buf ← poke a.buf a.next
      (blockHeader wordSize blockNumber eventCount (generateSixthWord isLast))
    let a := { a with buf }
    let a := if absoluteMode then a
      else { a with next := a.next + 8, blksiz := 8, blkEvCount := 0 }
    pure (0, { a with bytesToBuf := u32 (a.bytesToBuf + 4 * EV_HDSIZ) })

def writeEmptyLastBlockHeader (a : EvWriter) (blockNumber : Nat) : Option (Int × EvWriter) :=
  a.writeNewHeader 8 0 blockNumber true false true

/-- The internal buffer is not shrunk; its contents are lost when it grows. -/
def expandBuffer (a : EvWriter) (newSize : Nat) : EvWriter :=
  if newSize ≤ u32 (4 * a.bufSize) then a
  else if newSize ≤ u32 (4 * a.bufRealSize) then { a with bufSize := newSize / 4 }
  else
    { a with
      buf := malloc garbage (newSize / 4)
      currentHeader := 0
      next := EV_HDSIZ
      bufSize := newSize / 4 }

def resetBuffer (a : EvWriter) : Option EvWriter := do
  let buf ← poke a.buf 0 (lastBlockHeader a.blknum)
  pure
    { a with
      buf
      currentHeader := 0
      next := EV_HDSIZ
      blksiz := EV_HDSIZ
      blkEvCount := 0
      bytesToBuf := 4 * EV_HDSIZ
      eventsToBuf := 0 }

def putEvent (a : EvWriter) (event : List UInt32) : Option EvWriter := do
  let wordsToWrite := event.length
  let buf ← poke a.buf a.next event
  pure
    { a with
      buf
      blksiz := u32 (a.blksiz + wordsToWrite)
      bytesToBuf := u32 (a.bytesToBuf + 4 * wordsToWrite)
      next := a.next + wordsToWrite
      blkEvCount := u32 (a.blkEvCount + 1)
      eventsToBuf := u32 (a.eventsToBuf + 1) }

def updateHeader (a : EvWriter) : Option EvWriter := do
  let buf ← poke a.buf (a.currentHeader + EV_HD_BLKSIZ) [.ofNat a.blksiz]
  let buf ← poke buf (a.currentHeader + EV_HD_COUNT) [.ofNat a.blkEvCount]
  pure { a with buf, eventCount := u32 (a.eventCount + 1) }

def clearLastBlockBit (a : EvWriter) : Option EvWriter := do
  if ← a.isLastBlock a.currentHeader then
    let ver ← a.buf[a.currentHeader + EV_HD_VER]?
    let buf ← poke a.buf (a.currentHeader + EV_HD_VER) [ver &&& ~~~EV_LASTBLOCK_MASK]
    pure { a with buf, blknum := u32 (a.blknum + 1) }
  else pure a

def writeEventToBuffer (a : EvWriter) (event : List UInt32) : Option EvWriter := do
  let a ← a.putEvent event
  let a ← a.updateHeader
  let a ← a.clearLastBlockBit
  let (_, a) ← a.writeEmptyLastBlockHeader a.blknum
  pure a

/-- A file that was written to before is gone back in, so that its last block header is
overwritten. -/
def evFlush (a : EvWriter) : Option EvWriter :=
  if a.eventsToBuf < 1 then some a
  else if a.bytesToBuf / 4 ≤ a.buf.length then
    let file := a.file.getD {}
    let file := if a.bytesToFile < 1 then file else file.seekBack EV_HDSIZ
    some
      { a with
        file := some (file.fwrite (a.buf.take (a.bytesToBuf / 4)))
        bytesToFile := a.bytesToFile + a.bytesToBuf }
  else none

def needsNewBlock (a : EvWriter) (wordsToWrite : Nat) : Bool :=
  !(decide (u32 (wordsToWrite + a.blksiz) ≤ a.blkSizeTarget) && decide (a.blkEvCount < a.blkEvMax))

def needBiggerBuffer (a : EvWriter) (bytesToWrite : Nat) : Bool :=
  decide (u32 (4 * a.bufSize) < u32 (bytesToWrite + 2 * (4 * EV_HDSIZ)))

def bufferFull (a : EvWriter) (writeNewBlockHeader : Bool) (bytesToWrite : Nat) : Bool :=
  decide (sub32 (u32 (4 * a.bufSize)) a.bytesToBuf <
    if writeNewBlockHeader then u32 (bytesToWrite + 4 * EV_HDSIZ) else bytesToWrite)

def makeRoom (a : EvWriter) (wordsToWrite : Nat) : Option (Bool × EvWriter) := do
  let bytesToWrite := u32 (4 * wordsToWrite)
  if a.needBiggerBuffer bytesToWrite then
    let a ← a.evFlush
    let a := a.expandBuffer garbage (u32 (4 * u32 (wordsToWrite + 2 * EV_HDSIZ)))
    pure (true, ← a.resetBuffer)
  else if a.bufferFull (a.needsNewBlock wordsToWrite) bytesToWrite then
    let a ← a.evFlush
    pure (true, ← a.resetBuffer)
  else pure (false, a)

def overwriteLast (a : EvWriter) (writeNewBlockHeader : Bool) : Option (Int × EvWriter) := do
  if writeNewBlockHeader then
    let blknum := a.blknum
    let (status, a) ← { a with blknum := u32 (blknum + 1) }.writeNewHeader 8 1 blknum false true false
    if status = 0 then pure (status, { a with bytesToBuf := sub32 a.bytesToBuf (4 * EV_HDSIZ) })
    else pure (status, a)
  else if ← a.isLastBlock a.currentHeader then pure (0, a)
  else pure (0, { a with bytesToBuf := sub32 a.bytesToBuf (4 * EV_HDSIZ) })

/-- `evWriteImpl`, given the memory from the event on. -/
def evWrite (a : EvWriter) (buffer : List UInt32) : Option (Int × EvWriter) := do
  let wordsToWrite := u32 ((← buffer[0]?).toNat + 1)
  let writeNewBlockHeader := a.needsNewBlock wordsToWrite
  let (flushed, a) ← a.makeRoom garbage wordsToWrite
  let (status, a) ← a.overwriteLast (writeNewBlockHeader && !flushed)
  if status ≠ 0 then pure (status, a)
  else if wordsToWrite ≤ buffer.length then
    pure (0, ← a.writeEventToBuffer (buffer.take wordsToWrite))
  else none

def evClose (a : EvWriter) : Option (Option (List UInt32)) := do
  let a ← a.evFlush
  pure (a.file.map Disk.words)

def started (a : EvWriter) : Bool := a.blknum != 1 || a.blkEvCount != 0

def newBuffer (a : EvWriter) (size : Nat) : Option EvWriter := do
  let buf ← poke (malloc garbage size) 0 (lastBlockHeader 1)
  pure { a with buf, currentHeader := 0, bufSize := size }

def roomForBlock (a : EvWriter) (blockSize : Nat) : Option EvWriter :=
  if blockSize + EV_HDSIZ > a.bufRealSize then a.newBuffer garbage (blockSize + EV_HDSIZ)
  else if blockSize + EV_HDSIZ > a.bufSize then some { a with bufSize := blockSize + EV_HDSIZ }
  else some a

def setBlockSize (a : EvWriter) (blockSize : Nat) : Option (Int × EvWriter) :=
  if a.started then some (S_EVFILE_BADSIZEREQ, a)
  else if blockSize = a.blkSizeTarget then some (0, a)
  else if blockSize < EV_BLOCKSIZE_MIN ∨ EV_BLOCKSIZE_MAX < blockSize then
    some (S_EVFILE_BADSIZEREQ, a)
  else do
    let a ← a.roomForBlock garbage blockSize
    pure (0, { a with blkSizeTarget := blockSize, next := EV_HDSIZ })

def setBufferSize (a : EvWriter) (bufferSize : Nat) : Option (Int × EvWriter) :=
  if a.started then some (S_EVFILE_BADSIZEREQ, a)
  else if bufferSize = a.bufSize then some (0, a)
  else if bufferSize < a.blkSizeTarget + EV_HDSIZ ∨ EV_BLOCKSIZE_MAX + EV_HDSIZ < bufferSize then
    some (S_EVFILE_BADSIZEREQ, a)
  else do
    let a ← if bufferSize > a.bufRealSize then a.newBuffer garbage bufferSize else some a
    pure (0, { a with bufSize := bufferSize, next := EV_HDSIZ })

def setMaxEvents (a : EvWriter) (eventsMax : Nat) : Int × EvWriter :=
  if eventsMax < 1 then (S_EVFILE_BADSIZEREQ, a)
  else (0, { a with blkEvMax := min eventsMax EV_EVENTS_MAX })

end EvWriter

end EvioTool
