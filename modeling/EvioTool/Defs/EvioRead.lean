import EvioTool.Defs.EvioSwap
import EvioTool.Defs.EvioWrite

/-! `evio.c`, reading a file: blocks are read into a buffer, in which the events are found. -/

namespace EvioTool

open Lib

def EV_VERSION_MASK : UInt32 := 0xFF
def EV_DICTIONARY_MASK : UInt32 := 0x100
def EV_HD_HDSIZ : Nat := 2
def EV_HD_START : Nat := 3
def EV_HD_USED : Nat := 4
def EV_HD_MAGIC : Nat := 7
def EV_EOF : Int := -1
def S_EVFILE_TRUNC : Int := 0x40730001
def S_EVFILE_BADFILE : Int := 0x80730003
def S_EVFILE_UNXPTDEOF : Int := 0x80730005
def S_EVFILE_BADARG : Int := 0x80730007

structure Stream where
  words : List UInt32
  pos : Nat := 0
  feof : Bool := false
  deriving DecidableEq

namespace Stream

def ahead (f : Stream) (n : Nat) : List UInt32 := (f.words.drop f.pos).take n

def fread (f : Stream) (n : Nat) : Stream :=
  { f with pos := f.pos + (f.ahead n).length, feof := f.feof || decide ((f.ahead n).length < n) }

end Stream

/-- The members of `EVFILE` that reading uses.  The pointer `next` is an index into `buf`, and
`bufSize` is the length of that. -/
structure EvReader where
  file : Stream
  byte_swapped : Bool
  version : Nat
  buf : List UInt32
  next : Nat
  left : Nat
  isLastBlock : Bool
  deriving DecidableEq

/-- What reading needs from outside: what `malloc` and the swap of composite data find. -/
structure ReadEnv where
  garbage : Nat → UInt32
  swap : SwapEnv

namespace EvReader

def readInto (a : EvReader) (i n : Nat) : Option EvReader := do
  let buf ← poke a.buf i (a.file.ahead n)
  pure { a with buf, file := a.file.fread n }

def swapIf (a : EvReader) (i n : Nat) : Option EvReader := do
  if a.byte_swapped then
    let m ← swap_int32_t { data := a.buf } i n
    pure { a with buf := m.data }
  else pure a

def word (a : EvReader) (i : Nat) : Option Nat := a.buf[i]?.map UInt32.toNat

def flag (a : EvReader) (mask : UInt32) : Option Bool :=
  a.buf[EV_HD_VER]?.map fun w => w &&& mask != 0

def readRestOfHeader (a : EvReader) (blkHdrSize : Nat) : Option EvReader := do
  if EV_HDSIZ < blkHdrSize then
    let n := u32 (4 * sub32 blkHdrSize EV_HDSIZ) / 4
    let a ← a.readInto EV_HDSIZ n
    if a.file.feof then pure a else a.swapIf EV_HDSIZ n
  else pure a

def growBuffer (env : ReadEnv) (a : EvReader) (blkHdrSize blksiz : Nat) : Option EvReader := do
  if a.buf.length < blksiz then
    if blkHdrSize ≤ a.buf.length then
      let buf ← poke (malloc env.garbage blksiz) 0 (a.buf.take blkHdrSize)
      pure { a with buf }
    else none
  else pure a

def lastBlock (a : EvReader) : Option Bool :=
  if 3 < a.version then (a.flag EV_LASTBLOCK_MASK).map (a.isLastBlock || ·) else some a.isLastBlock

def used (a : EvReader) (blksiz : Nat) : Option Nat :=
  if a.version < 4 then a.word EV_HD_USED else some blksiz

def blockStatus (a : EvReader) : Int :=
  if a.left < 1 then if a.isLastBlock then EV_EOF else S_EVFILE_UNXPTDEOF else 0

def startBlock (a : EvReader) (blkHdrSize blksiz : Nat) : Option (Int × EvReader) := do
  let isLastBlock ← a.lastBlock
  let used ← a.used blksiz
  let a := { a with isLastBlock, next := blkHdrSize, left := sub32 used blkHdrSize }
  pure (a.blockStatus, a)

def evGetNewBuffer (env : ReadEnv) (a : EvReader) : Option (Int × EvReader) := do
  if 3 < a.version ∧ a.isLastBlock then pure (EV_EOF, a)
  else if a.file.feof then pure (EV_EOF, a)
  else
    let a ← a.readInto 0 EV_HDSIZ
    if a.file.feof then pure (EV_EOF, a)
    else
      let a ← a.swapIf 0 EV_HDSIZ
      let blkHdrSize ← a.word EV_HD_HDSIZ
      let a ← a.readRestOfHeader blkHdrSize
      if a.file.feof then pure (EV_EOF, a)
      else
        let blksiz ← a.word EV_HD_BLKSIZ
        let a ← a.growBuffer env blkHdrSize blksiz
        let a ← a.readInto blkHdrSize (u32 (4 * sub32 blksiz blkHdrSize) / 4)
        if a.file.feof then pure (EV_EOF, a) else a.startBlock blkHdrSize blksiz

def needBlock (env : ReadEnv) (a : EvReader) : Option (Int × EvReader) :=
  if a.left < 1 then a.evGetNewBuffer env else some (0, a)

def eventLength (a : EvReader) : Option Nat := do
  let w ← a.buf[a.next]?
  pure ((if a.byte_swapped then EVIO_SWAP32 w else w) + 1).toNat

def swapEvent (env : ReadEnv) (a : EvReader) : Option (List UInt32) :=
  if a.byte_swapped then
    (evioswap env.swap true env.swap.fuel { data := a.buf } a.next).map Swapped.data
  else some a.buf

def evReadNoCopy (env : ReadEnv) (a : EvReader) : Option (Int × List UInt32 × EvReader) := do
  if a.version < 4 then pure (S_EVFILE_BADFILE, [], a)
  else
    let (status, a) ← a.needBlock env
    if status ≠ 0 then pure (status, [], a)
    else
      let nleft ← a.eventLength
      let buf ← a.swapEvent env
      if a.next + nleft ≤ buf.length then
        pure (0, (buf.drop a.next).take nleft,
          { a with buf, next := a.next + nleft, left := sub32 a.left nleft })
      else none

def collect (env : ReadEnv) : Nat → Nat → List UInt32 → EvReader → Option (Int × List UInt32 × EvReader)
  | 0, _, _, _ => none
  | fuel + 1, nleft, got, a =>
    if nleft = 0 then some (0, got, a)
    else do
      let (status, a) ← a.needBlock env
      if status ≠ 0 then pure (status, got, a)
      else
        let ncopy := min nleft a.left
        if a.next + ncopy ≤ a.buf.length then
          collect env fuel (nleft - ncopy) (got ++ (a.buf.drop a.next).take ncopy)
            { a with next := a.next + ncopy, left := a.left - ncopy }
        else none

def evReadAlloc (env : ReadEnv) (fuel : Nat) (a : EvReader) :
    Option (Int × List UInt32 × EvReader) := do
  let (status, a) ← a.needBlock env
  if status ≠ 0 then pure (status, [], a)
  else
    let nleft ← a.eventLength
    let (status, event, a) ← a.collect env fuel nleft []
    if status ≠ 0 then pure (status, [], a)
    else if a.byte_swapped then
      let m ← evioswap env.swap true env.swap.fuel { data := event } 0
      pure (0, m.data, a)
    else pure (0, event, a)

/-- `evRead` into a buffer: a swapped event is collected in memory of its own, and swapped into
the buffer from there. -/
def evRead (env : ReadEnv) (fuel : Nat) (a : EvReader) (buffer : List UInt32) :
    Option (Int × List UInt32 × EvReader) := do
  if buffer.length < 3 then pure (S_EVFILE_BADARG, buffer, a)
  else
    let (status, a) ← a.needBlock env
    if status ≠ 0 then pure (status, buffer, a)
    else
      let nleft ← a.eventLength
      if buffer.length < nleft then pure (S_EVFILE_TRUNC, buffer, a)
      else
        let (status, event, a) ← a.collect env fuel nleft []
        if !a.byte_swapped then pure (status, ← poke buffer 0 event, a)
        else if status ≠ 0 then pure (status, buffer, a)
        else
          let tmp ← poke (malloc env.garbage buffer.length) 0 event
          let m ← evioswap env.swap true env.swap.fuel { data := tmp, dest := some buffer } 0
          pure (0, m.out, a)

def evReadBuffer (env : ReadEnv) (fuel : Nat) (buffer : List UInt32) (a : EvReader) :
    Option (Int × List UInt32 × EvReader) := do
  let (status, buffer, a) ← a.evRead env fuel buffer
  pure (status, buffer.take ((← buffer[0]?) + 1).toNat, a)

def readAll (read : EvReader → Option (Int × List UInt32 × EvReader)) :
    Nat → EvReader → Option (List (List UInt32) × Int)
  | 0, _ => none
  | fuel + 1, a => do
    let (status, event, a) ← read a
    if status ≠ 0 then pure ([], status)
    else
      let (events, status) ← readAll read fuel a
      pure (event :: events, status)

def checkHeader (header : List UInt32) : Option (Bool × Nat) := do
  let magic ← header[EV_HD_MAGIC]?
  let swapped := magic ≠ EV_MAGIC
  if swapped ∧ EVIO_SWAP32 magic ≠ EV_MAGIC then none
  else
    let info ← header[EV_HD_VER]?
    let version := ((if swapped then EVIO_SWAP32 info else info) &&& EV_VERSION_MASK).toNat
    if version < 1 ∨ 4 < version then none else pure (decide swapped, version)

def readDictionary (env : ReadEnv) (fuel : Nat) (a : EvReader) : Option EvReader := do
  if ← a.flag EV_DICTIONARY_MASK then
    let (_, _, a) ← a.evReadAlloc env fuel
    pure a
  else pure a

def startFirstBlock (env : ReadEnv) (fuel : Nat) (a : EvReader) (blkHdrSize blk_size : Nat) :
    Option EvReader := do
  if a.version < 4 then
    let start ← a.word EV_HD_START
    let used ← a.word EV_HD_USED
    pure { a with next := start, left := sub32 used start }
  else
    let isLastBlock ← a.flag EV_LASTBLOCK_MASK
    { a with next := blkHdrSize, left := sub32 blk_size blkHdrSize, isLastBlock }.readDictionary env fuel

/-- `evOpen` of a file for reading, a status or the file; the size of a header that is too
small is an error. -/
def evOpen (env : ReadEnv) (fuel : Nat) (words : List UInt32) : Option (Int ⊕ EvReader) := do
  let file : Stream := { words }
  let header := file.ahead EV_HDSIZ
  if header.length < EV_HDSIZ then pure (.inl S_EVFILE_BADFILE)
  else
    match checkHeader header with
    | none => pure (.inl S_EVFILE_BADFILE)
    | some (byte_swapped, version) =>
      let header := if byte_swapped then header.map EVIO_SWAP32 else header
      let blkHdrSize ← header[EV_HD_HDSIZ]?.map UInt32.toNat
      if toInt32 (blkHdrSize - EV_HDSIZ) < 0 then pure (.inl S_EVFILE_BADFILE)
      else
        let blk_size ← header[EV_HD_BLKSIZ]?.map UInt32.toNat
        let buf ← poke (malloc env.garbage (max blk_size EV_BLOCKSIZE_MIN)) 0 header
        let a : EvReader :=
          { file := file.fread EV_HDSIZ, byte_swapped, version, buf, next := 0, left := 0,
            isLastBlock := false }
        let a ← a.readInto EV_HDSIZ (u32 (4 * sub32 blk_size EV_HDSIZ) / 4)
        if a.file.feof then pure (.inl S_EVFILE_BADFILE)
        else pure (.inr (← a.startFirstBlock env fuel blkHdrSize blk_size))

def readFile (env : ReadEnv) (read : EvReader → Option (Int × List UInt32 × EvReader))
    (fuel : Nat) (words : List UInt32) : Option (List (List UInt32) × Int) := do
  match ← evOpen env fuel words with
  | .inl status => pure ([], status)
  | .inr a => a.readAll read fuel

end EvReader

/-- The first `n` events of a block, which start at `p` in the memory: their positions, and the
position behind them.  `bytesLeft` is unsigned, and wraps when an event is longer than the
file. -/
def blockPointers (mem : List UInt32) (swapped : Bool) :
    Nat → Nat → Nat → Option (Int ⊕ (List Nat × Nat × Nat))
  | 0, p, bytesLeft => some (.inr ([], p, bytesLeft))
  | n + 1, p, bytesLeft =>
    if bytesLeft < 8 then some (.inl S_EVFILE_UNXPTDEOF)
    else do
      let w ← mem[p]?
      let len := ((if swapped then EVIO_SWAP32 w else w) + 1).toNat
      match ← blockPointers mem swapped n (p + len)
          ((bytesLeft + 2 ^ 64 - u32 (4 * len)) % 2 ^ 64) with
      | .inl status => pure (.inl status)
      | .inr (ps, q, left) => pure (.inr (p :: ps, q, left))

def generatePointerTable (mem : List UInt32) (swapped : Bool) :
    Nat → Bool → Nat → Nat → Option (Int ⊕ List Nat)
  | 0, _, _, _ => none
  | fuel + 1, firstBlock, p, bytesLeft => do
    let word (i : Nat) : Option UInt32 := mem[p + i]?.map fun w => if swapped then EVIO_SWAP32 w else w
    let i ← word EV_HD_VER
    let blkHdrSize := (← word EV_HD_HDSIZ).toNat
    let blockEventCount := (← word EV_HD_COUNT).toNat
    let lastBlock := i &&& EV_LASTBLOCK_MASK != 0
    let p := p + blkHdrSize
    let bytesLeft := (bytesLeft + 2 ^ 64 - u32 (4 * blkHdrSize)) % 2 ^ 64
    let dict := (i &&& EV_DICTIONARY_MASK != 0) && firstBlock
    let len ← if dict then mem[p]?.map fun w => ((if swapped then EVIO_SWAP32 w else w) + 1).toNat
      else pure 0
    let p := p + len
    let bytesLeft := (bytesLeft + 2 ^ 64 - u32 (4 * len)) % 2 ^ 64
    -- the count is compared as an `int`
    let count := if blockEventCount < 2 ^ 31 then blockEventCount else 0
    match ← blockPointers mem swapped count p bytesLeft with
    | .inl status => pure (.inl status)
    | .inr (ps, p, bytesLeft) =>
      if lastBlock then pure (.inr ps)
      else
        match ← generatePointerTable mem swapped fuel (firstBlock && !dict) p bytesLeft with
        | .inl status => pure (.inl status)
        | .inr qs => pure (.inr (ps ++ qs))

def evReadRandom (mem : List UInt32) (pTable : List Nat) (eventNumber : Nat) :
    Option (Int × List UInt32) :=
  if pTable.length < eventNumber then some (S_FAILURE, [])
  else do
    let p ← if eventNumber = 0 then none else pTable[eventNumber - 1]?
    let len := ((← mem[p]?) + 1).toNat
    if p + len ≤ mem.length then pure (0, (mem.drop p).take len) else none

def getEventCount (swapped : Bool) : Nat → Stream → Nat → Option (Int ⊕ Nat)
  | 0, _, _ => none
  | fuel + 1, f, count =>
    let header := f.ahead EV_HDSIZ
    if header.length < EV_HDSIZ then some (.inl S_EVFILE_BADFILE)
    else do
      let header := if swapped then header.map EVIO_SWAP32 else header
      let i ← header[EV_HD_VER]?
      let blockSize := (← header[EV_HD_BLKSIZ]?).toNat
      let count := u32 (count + (← header[EV_HD_COUNT]?).toNat)
      if i &&& EV_LASTBLOCK_MASK != 0 then pure (.inr count)
      else
        let f := f.fread EV_HDSIZ
        getEventCount swapped fuel { f with pos := f.pos + u32 (4 * sub32 blockSize EV_HDSIZ) / 4 } count

end EvioTool
