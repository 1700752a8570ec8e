import EvioTool.Defs.EvioRead

/-! Evio files of version 4 as what they hold: blocks of whole events, and an empty last block. -/

namespace EvioTool

open Lib

structure EvioEvent where
  words : List UInt32
  size : words.head? = some (UInt32.ofNat (words.length - 1))
  fits : words.length + 16 < 2 ^ 30

/-- The words `disk` are those of the event in the other byte order: `evioswap` turns them into
`words`, in place or in another buffer. -/
def SwapsTo (env : SwapEnv) (disk words : List UInt32) : Prop :=
  disk.head? = words.head?.map EVIO_SWAP32 ∧
  ∀ p s q old u : List UInt32, q.length = p.length → old.length = words.length →
    evioswap env true env.fuel { data := p ++ (disk ++ s) } p.length =
        some { data := p ++ (words ++ s) } ∧
      evioswap env true env.fuel { data := p ++ (disk ++ s), dest := some (q ++ (old ++ u)) } p.length =
        some { data := p ++ (disk ++ s), dest := some (q ++ (words ++ u)) }

structure DiskEvent (env : SwapEnv) (swapped : Bool) extends EvioEvent where
  disk : List UInt32
  length : disk.length = words.length
  plain : swapped = false → disk = words
  foreign : swapped = true → SwapsTo env disk words

def EvioEvent.local (env : SwapEnv) (e : EvioEvent) : DiskEvent env false where
  toEvioEvent := e
  disk := e.words
  length := rfl
  plain _ := rfl
  foreign h := absurd h Bool.false_ne_true

def order (swapped : Bool) (ws : List UInt32) : List UInt32 :=
  if swapped then ws.map EVIO_SWAP32 else ws

structure DiskBlock (env : SwapEnv) (swapped : Bool) where
  num : Nat
  events : List (DiskEvent env swapped)
  some : events ≠ []
  fits : 8 + (events.flatMap fun e => e.disk).length < 2 ^ 30

namespace DiskBlock

variable {env : SwapEnv} {swapped : Bool}

def payload (b : DiskBlock env swapped) : List UInt32 := b.events.flatMap fun e => e.disk

def size (b : DiskBlock env swapped) : Nat := 8 + b.payload.length

def words (b : DiskBlock env swapped) : List UInt32 :=
  order swapped (blockHeader b.size b.num b.events.length EV_VERSION) ++ b.payload

end DiskBlock

def diskFile {env : SwapEnv} {swapped : Bool} (bs : List (DiskBlock env swapped)) (last : Nat) :
    List UInt32 :=
  bs.flatMap DiskBlock.words ++ order swapped (lastBlockHeader last)

/-- A block of a file of an earlier version.  Events go on in the next block where one ends, and
the words behind those that are used mean nothing. -/
structure OldBlock where
  num : Nat
  start : UInt32
  payload : List UInt32
  unused : List UInt32
  some : payload ≠ []
  fits : 8 + (payload ++ unused).length < 2 ^ 30

namespace OldBlock

def header (b : OldBlock) (ver : UInt32) : List UInt32 :=
  [.ofNat (8 + (b.payload ++ b.unused).length), .ofNat b.num, 8, b.start,
    .ofNat (8 + b.payload.length), ver, 0, EV_MAGIC]

def words (b : OldBlock) (swapped : Bool) (ver : UInt32) : List UInt32 :=
  order swapped (b.header ver) ++ (b.payload ++ b.unused)

end OldBlock

def oldFile (swapped : Bool) (ver : UInt32) (bs : List OldBlock) : List UInt32 :=
  bs.flatMap fun b => b.words swapped ver

end EvioTool
