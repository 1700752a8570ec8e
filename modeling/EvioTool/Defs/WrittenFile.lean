import EvioTool.Defs.EvioBlocks

/-! What is written: blocks of events, some of them in the file and some of them still in the
buffer, and an empty last block behind each of the two. -/

namespace EvioTool

open Lib

structure LocalBlock where
  num : Nat
  events : List EvioEvent

namespace LocalBlock

def payload (b : LocalBlock) : List UInt32 := b.events.flatMap fun e => e.words

def size (b : LocalBlock) : Nat := 8 + b.payload.length

def words (b : LocalBlock) : List UInt32 :=
  blockHeader b.size b.num b.events.length EV_VERSION ++ b.payload

/-- What the writer sees to: only an event that is too large for every block has a block of its
own that is larger than `target`. -/
structure Fits (b : LocalBlock) (target : Nat) : Prop where
  some : b.events ≠ []
  count : b.events.length ≤ EV_EVENTS_MAX
  size : b.size ≤ target ∨ b.events.length = 1

end LocalBlock

def blockWords (bs : List LocalBlock) : List UInt32 := bs.flatMap LocalBlock.words

def blockEvents (bs : List LocalBlock) : List EvioEvent := bs.flatMap LocalBlock.events

def localFile (bs : List LocalBlock) (last : Nat) : List UInt32 := blockWords bs ++ lastBlockHeader last

/-- What is done with a file that is open for writing.  The event is written from memory that
goes on behind it. -/
inductive WriteOp
  | evWrite (event : EvioEvent) (behind : List UInt32)
  | setBlockSize (blockSize : Nat)
  | setBufferSize (bufferSize : Nat)
  | setMaxEvents (eventsMax : Nat)

def writtenEvents : List WriteOp → List EvioEvent
  | [] => []
  | .evWrite event _ :: ops => event :: writtenEvents ops
  | _ :: ops => writtenEvents ops

/-- Events are written without an error. -/
def WriteOp.Succeeds : WriteOp → Int → Prop
  | .evWrite _ _, status => status = 0
  | _, _ => True

namespace EvWriter

variable (garbage : Nat → UInt32)

def perform (a : EvWriter) : WriteOp → Option (Int × EvWriter)
  | .evWrite event behind => a.evWrite garbage (event.words ++ behind)
  | .setBlockSize n => a.setBlockSize garbage n
  | .setBufferSize n => a.setBufferSize garbage n
  | .setMaxEvents n => some (a.setMaxEvents n)

def run (a : EvWriter) : List WriteOp → Option (List Int × EvWriter)
  | [] => some ([], a)
  | op :: ops => do
    let (status, a) ← a.perform garbage op
    let (statuses, a) ← run a ops
    pure (status :: statuses, a)

structure Room (a : EvWriter) : Prop where
  length : a.bufSize ≤ a.buf.length
  fits : a.buf.length < 2 ^ 30
  targetMin : EV_BLOCKSIZE_MIN ≤ a.blkSizeTarget
  targetMax : a.blkSizeTarget ≤ EV_BLOCKSIZE_MAX
  target : a.blkSizeTarget ≤ a.bufSize
  countMin : 1 ≤ a.blkEvMax
  countMax : a.blkEvMax ≤ EV_EVENTS_MAX

def OnDisk (a : EvWriter) (fs : List LocalBlock) : Prop :=
  (fs = [] ∧ a.file = none ∧ a.bytesToFile = 0) ∨
    (fs ≠ [] ∧ 0 < a.bytesToFile ∧
      ∃ last, a.file = some ⟨localFile fs last, (localFile fs last).length⟩)

/-- The buffer is ready for an event of the block whose header is at `currentHeader`, and which
holds the events `es` so far: `bs` are the blocks in front of it, and `pre` are words in front of
these that are not counted.  The last block header is overwritten, or is the header itself. -/
structure Ready (a : EvWriter) (pre : List UInt32) (bs : List LocalBlock) (num : Nat)
    (es : List EvioEvent) (isLast : Bool) : Prop where
  buf : ∃ size count t, a.buf = (pre ++ blockWords bs) ++
    (blockHeader size num count (generateSixthWord isLast) ++ (LocalBlock.payload ⟨num, es⟩ ++ t))
  currentHeader : a.currentHeader = (pre ++ blockWords bs).length
  blksiz : a.blksiz = LocalBlock.size ⟨num, es⟩
  blkEvCount : a.blkEvCount = es.length
  next : a.next = (pre ++ blockWords bs).length + LocalBlock.size ⟨num, es⟩
  bytesToBuf : a.bytesToBuf = 4 * ((blockWords bs).length + LocalBlock.size ⟨num, es⟩)
  eventsToBuf : a.eventsToBuf = (blockEvents bs).length + es.length

def Empty (a : EvWriter) : Prop := a.Ready [] [] a.blknum [] true

structure Open (a : EvWriter) (pre : List UInt32) (bs : List LocalBlock) (b : LocalBlock) : Prop where
  buf : ∃ t, a.buf = (pre ++ blockWords bs) ++ (b.words ++ (lastBlockHeader a.blknum ++ t))
  currentHeader : a.currentHeader = (pre ++ blockWords bs).length
  blksiz : a.blksiz = b.size
  blkEvCount : a.blkEvCount = b.events.length
  next : a.next = (pre ++ blockWords bs).length + b.size
  bytesToBuf : a.bytesToBuf = 4 * ((blockWords bs).length + b.size + 8)
  eventsToBuf : a.eventsToBuf = (blockEvents bs).length + b.events.length
  fits : (blockWords bs).length + b.size + 8 ≤ a.bufSize

def Holds (a : EvWriter) (pre : List UInt32) (bs : List LocalBlock) : Prop :=
  (pre = [] ∧ bs = [] ∧ a.Empty) ∨ ∃ cs b, bs = cs ++ [b] ∧ b.events ≠ [] ∧ a.Open pre cs b

structure Writing (a : EvWriter) (es : List EvioEvent) (fs bs : List LocalBlock) : Prop where
  holds : a.Holds [] bs
  disk : a.OnDisk fs
  room : a.Room
  events : blockEvents (fs ++ bs) = es
  fits : ∀ b ∈ fs ++ bs, b.Fits a.blkSizeTarget

structure Fresh (a : EvWriter) : Prop where
  writing : a.Writing [] [] []
  blknum : a.blknum = 1
  buf : ∃ t, a.buf = lastBlockHeader 1 ++ t

/-- The first event has a place in a block, or is too large even for the buffer. -/
def FirstFits (garbage : Nat → UInt32) : EvWriter → List WriteOp → Prop
  | _, [] => True
  | a, .evWrite event _ :: _ =>
    event.words.length + 8 ≤ a.blkSizeTarget ∨ a.bufSize < event.words.length + 16
  | a, op :: ops => ∀ status a', a.perform garbage op = some (status, a') → FirstFits garbage a' ops

end EvWriter

/-- These are the events of the file, in whatever way it is read. -/
def Yields (env : ReadEnv) (fuel : Nat) (buffer file : List UInt32) (events : List (List UInt32)) : Prop :=
  ∀ read ∈ [EvReader.evReadNoCopy env, EvReader.evReadAlloc env fuel, EvReader.evReadBuffer env fuel buffer],
    EvReader.readFile env read fuel file = some (events, EV_EOF)

end EvioTool
