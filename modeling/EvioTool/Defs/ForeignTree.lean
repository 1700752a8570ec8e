import EvioTool.Defs.EvioSwap
import EvioTool.Defs.Tree

/-! Event trees in the other byte order. -/

namespace EvioTool

open Lib

def Swapped.Holds (m : Swapped) (i : Nat) (ws : List UInt32) : Prop := m.words i ws.length = some ws

def side (foreign : Bool) (here there : α) : α := if foreign then there else here

def foreignPayload (comp : List UInt32 → List UInt32) (contentType : Nat)
    (payload : List UInt32) : List UInt32 :=
  match dataSwap contentType with
  | .int32 => payload.map EVIO_SWAP32
  | .int16 => payload.map swapHalves
  | .int64 => swapPairs payload
  | .composite => comp payload
  | .copy | .contains _ => payload

/-- Composite data are swapped as `comp` says, in either direction and wherever they are. -/
def CompositeSwaps (env : SwapEnv) (comp : List UInt32 → List UInt32) (payload : List UInt32) :
    Prop :=
  (comp payload).length = payload.length ∧
  ∀ tolocal fuel (m : Swapped) i, 2 ≤ fuel → m.Holds i (side tolocal payload (comp payload)) →
    i + payload.length ≤ m.out.length →
    swap_composite_t env tolocal fuel true m i payload.length =
      some (m.setOut (splice m.out i (side tolocal (comp payload) payload)))

/-- Composite data of one element: a format in a tagsegment, and a bank of data in this format, which
are `disk` in the other byte order. -/
structure Composite (env : SwapEnv) where
  head : UInt32
  format : List UInt32
  bankHead : UInt32
  data : List UInt32
  disk : List UInt32
  text : List UInt8
  codes : List UInt8
  formatLength : (head &&& 0xffff).toNat = format.length
  string : cString (Mem.wordBytes format) = some text
  parsed : eviofmt env.atoi 1024 text = .ok codes
  codes_ne : codes ≠ []
  counts : CountsNoText codes
  fits : data.length < 2 ^ 30
  length : disk.length = data.length
  swaps : eviofmtswap (Mem.wordBytes disk) data.length codes true env.fuel env.fuel =
    some (0, Mem.wordBytes data)

namespace Composite

variable {env : SwapEnv}

def bank (c : Composite env) : List UInt32 := [.ofNat (c.data.length + 1), c.bankHead]

def words (c : Composite env) : List UInt32 := [c.head] ++ (c.format ++ (c.bank ++ c.data))

def foreign (c : Composite env) : List UInt32 :=
  [EVIO_SWAP32 c.head] ++ (c.format ++ (c.bank.map EVIO_SWAP32 ++ c.disk))

end Composite

/-- Numbers of 16 bits can be counted in 32 bits, numbers of 64 bits come in whole ones, and composite
data can be swapped. -/
def PayloadSwaps (env : SwapEnv) (comp : List UInt32 → List UInt32) (contentType : Nat)
    (payload : List UInt32) : Prop :=
  match dataSwap contentType with
  | .int16 => payload.length < 2 ^ 31
  | .int64 => payload.length % 2 = 0
  | .composite => CompositeSwaps env comp payload
  | _ => True

namespace Tree

mutual
def foreign (comp : List UInt32 → List UInt32) (k : Kind) : Tree → List UInt32
  | leaf tag num contentType padding payload =>
    (k.header tag.toNat contentType num.toNat padding payload.length).map EVIO_SWAP32 ++
      foreignPayload comp contentType payload
  | container tag num c trees =>
    (k.header tag.toNat c.contentType num.toNat 0 (encodeAll c.kind trees).length).map EVIO_SWAP32 ++
      foreignAll comp c.kind trees

def foreignAll (comp : List UInt32 → List UInt32) (k : Kind) : List Tree → List UInt32
  | [] => []
  | t :: ts => foreign comp k t ++ foreignAll comp k ts
end

mutual
def Swaps (env : SwapEnv) (comp : List UInt32 → List UInt32) : Tree → Prop
  | leaf _ _ contentType _ payload => PayloadSwaps env comp contentType payload
  | container _ _ _ trees => SwapsAll env comp trees

def SwapsAll (env : SwapEnv) (comp : List UInt32 → List UInt32) : List Tree → Prop
  | [] => True
  | t :: ts => Swaps env comp t ∧ SwapsAll env comp ts
end

mutual
def calls : Tree → Nat
  | leaf _ _ _ _ _ => 4
  | container _ _ _ trees => 3 + callsAll trees

def callsAll : List Tree → Nat
  | [] => 0
  | t :: ts => 1 + calls t + callsAll ts
end

end Tree

end EvioTool
