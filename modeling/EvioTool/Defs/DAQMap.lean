/-! The DAQ map of `InitDAQMaps`. -/

namespace EvioTool

structure DAQChannel where
  crate : Nat
  slot : Int
  chan : Nat
  sub : Int
  x : Int
  y : Int
  deriving DecidableEq

def daqMap : List DAQChannel :=
  [⟨1, 20, 12, 2, -23, 5⟩, ⟨1, 20, 7, 2, -22, 5⟩, ⟨1, 20, 2, 2, -21, 5⟩, ⟨1, 19, 13, 2, -20, 5⟩,
   ⟨1, 19, 8, 2, -19, 5⟩, ⟨1, 19, 3, 2, -18, 5⟩, ⟨1, 18, 14, 2, -17, 5⟩, ⟨1, 18, 9, 2, -16, 5⟩,
   ⟨1, 18, 4, 2, -15, 5⟩, ⟨1, 17, 15, 2, -14, 5⟩, ⟨1, 17, 10, 2, -13, 5⟩, ⟨1, 17, 5, 2, -12, 5⟩,
   ⟨1, 17, 0, 2, -11, 5⟩, ⟨1, 16, 11, 2, -10, 5⟩, ⟨1, 16, 7, 2, -9, 5⟩, ⟨1, 16, 3, 2, -8, 5⟩,
   ⟨1, 15, 15, 2, -7, 5⟩, ⟨1, 15, 11, 2, -6, 5⟩, ⟨1, 15, 7, 2, -5, 5⟩, ⟨1, 15, 3, 2, -4, 5⟩,
   ⟨1, 14, 15, 2, -3, 5⟩, ⟨1, 14, 11, 2, -2, 5⟩, ⟨1, 14, 7, 2, -1, 5⟩, ⟨1, 14, 2, 2, 1, 5⟩,
   ⟨1, 9, 13, 2, 2, 5⟩, ⟨1, 9, 8, 2, 3, 5⟩, ⟨1, 9, 3, 2, 4, 5⟩, ⟨1, 8, 14, 2, 5, 5⟩,
   ⟨1, 8, 9, 2, 6, 5⟩, ⟨1, 8, 4, 2, 7, 5⟩, ⟨1, 7, 15, 2, 8, 5⟩, ⟨1, 7, 10, 2, 9, 5⟩,
   ⟨1, 7, 5, 2, 10, 5⟩, ⟨1, 7, 0, 2, 11, 5⟩, ⟨1, 6, 11, 2, 12, 5⟩, ⟨1, 6, 6, 2, 13, 5⟩,
   ⟨1, 6, 1, 2, 14, 5⟩, ⟨1, 5, 12, 2, 15, 5⟩, ⟨1, 5, 7, 2, 16, 5⟩, ⟨1, 5, 2, 2, 17, 5⟩,
   ⟨1, 4, 13, 2, 18, 5⟩, ⟨1, 4, 8, 2, 19, 5⟩, ⟨1, 4, 3, 2, 20, 5⟩, ⟨1, 3, 14, 2, 21, 5⟩,
   ⟨1, 3, 9, 2, 22, 5⟩, ⟨1, 3, 4, 2, 23, 5⟩, ⟨1, 20, 11, 2, -23, 4⟩, ⟨1, 20, 6, 2, -22, 4⟩,
   ⟨1, 20, 1, 2, -21, 4⟩, ⟨1, 19, 12, 2, -20, 4⟩, ⟨1, 19, 7, 2, -19, 4⟩, ⟨1, 19, 2, 2, -18, 4⟩,
   ⟨1, 18, 13, 2, -17, 4⟩, ⟨1, 18, 8, 2, -16, 4⟩, ⟨1, 18, 3, 2, -15, 4⟩, ⟨1, 17, 14, 2, -14, 4⟩,
   ⟨1, 17, 9, 2, -13, 4⟩, ⟨1, 17, 4, 2, -12, 4⟩, ⟨1, 16, 15, 2, -11, 4⟩, ⟨1, 16, 10, 2, -10, 4⟩,
   ⟨1, 16, 6, 2, -9, 4⟩, ⟨1, 16, 2, 2, -8, 4⟩, ⟨1, 15, 14, 2, -7, 4⟩, ⟨1, 15, 10, 2, -6, 4⟩,
   ⟨1, 15, 6, 2, -5, 4⟩, ⟨1, 15, 2, 2, -4, 4⟩, ⟨1, 14, 14, 2, -3, 4⟩, ⟨1, 14, 10, 2, -2, 4⟩,
   ⟨1, 14, 6, 2, -1, 4⟩, ⟨1, 14, 1, 2, 1, 4⟩, ⟨1, 9, 12, 2, 2, 4⟩, ⟨1, 9, 7, 2, 3, 4⟩,
   ⟨1, 9, 2, 2, 4, 4⟩, ⟨1, 8, 13, 2, 5, 4⟩, ⟨1, 8, 8, 2, 6, 4⟩, ⟨1, 8, 3, 2, 7, 4⟩,
   ⟨1, 7, 14, 2, 8, 4⟩, ⟨1, 7, 9, 2, 9, 4⟩, ⟨1, 7, 4, 2, 10, 4⟩, ⟨1, 6, 15, 2, 11, 4⟩,
   ⟨1, 6, 10, 2, 12, 4⟩, ⟨1, 6, 5, 2, 13, 4⟩, ⟨1, 6, 0, 2, 14, 4⟩, ⟨1, 5, 11, 2, 15, 4⟩,
   ⟨1, 5, 6, 2, 16, 4⟩, ⟨1, 5, 1, 2, 17, 4⟩, ⟨1, 4, 12, 2, 18, 4⟩, ⟨1, 4, 7, 2, 19, 4⟩,
   ⟨1, 4, 2, 2, 20, 4⟩, ⟨1, 3, 13, 2, 21, 4⟩, ⟨1, 3, 8, 2, 22, 4⟩, ⟨1, 3, 3, 2, 23, 4⟩,
   ⟨1, 20, 10, 2, -23, 3⟩, ⟨1, 20, 5, 2, -22, 3⟩, ⟨1, 20, 0, 2, -21, 3⟩, ⟨1, 19, 11, 2, -20, 3⟩,
   ⟨1, 19, 6, 2, -19, 3⟩, ⟨1, 19, 1, 2, -18, 3⟩, ⟨1, 18, 12, 2, -17, 3⟩, ⟨1, 18, 7, 2, -16, 3⟩,
   ⟨1, 18, 2, 2, -15, 3⟩, ⟨1, 17, 13, 2, -14, 3⟩, ⟨1, 17, 8, 2, -13, 3⟩, ⟨1, 17, 3, 2, -12, 3⟩,
   ⟨1, 16, 14, 2, -11, 3⟩, ⟨1, 16, 9, 2, -10, 3⟩, ⟨1, 16, 5, 2, -9, 3⟩, ⟨1, 16, 1, 2, -8, 3⟩,
   ⟨1, 15, 13, 2, -7, 3⟩, ⟨1, 15, 9, 2, -6, 3⟩, ⟨1, 15, 5, 2, -5, 3⟩, ⟨1, 15, 1, 2, -4, 3⟩,
   ⟨1, 14, 13, 2, -3, 3⟩, ⟨1, 14, 9, 2, -2, 3⟩, ⟨1, 14, 5, 2, -1, 3⟩, ⟨1, 14, 0, 2, 1, 3⟩,
   ⟨1, 9, 11, 2, 2, 3⟩, ⟨1, 9, 6, 2, 3, 3⟩, ⟨1, 9, 1, 2, 4, 3⟩, ⟨1, 8, 12, 2, 5, 3⟩,
   ⟨1, 8, 7, 2, 6, 3⟩, ⟨1, 8, 2, 2, 7, 3⟩, ⟨1, 7, 13, 2, 8, 3⟩, ⟨1, 7, 8, 2, 9, 3⟩,
   ⟨1, 7, 3, 2, 10, 3⟩, ⟨1, 6, 14, 2, 11, 3⟩, ⟨1, 6, 9, 2, 12, 3⟩, ⟨1, 6, 4, 2, 13, 3⟩,
   ⟨1, 5, 15, 2, 14, 3⟩, ⟨1, 5, 10, 2, 15, 3⟩, ⟨1, 5, 5, 2, 16, 3⟩, ⟨1, 5, 0, 2, 17, 3⟩,
   ⟨1, 4, 11, 2, 18, 3⟩, ⟨1, 4, 6, 2, 19, 3⟩, ⟨1, 4, 1, 2, 20, 3⟩, ⟨1, 3, 12, 2, 21, 3⟩,
   ⟨1, 3, 7, 2, 22, 3⟩, ⟨1, 3, 2, 2, 23, 3⟩, ⟨1, 20, 9, 2, -23, 2⟩, ⟨1, 20, 4, 2, -22, 2⟩,
   ⟨1, 19, 15, 2, -21, 2⟩, ⟨1, 19, 10, 2, -20, 2⟩, ⟨1, 19, 5, 2, -19, 2⟩, ⟨1, 19, 0, 2, -18, 2⟩,
   ⟨1, 18, 11, 2, -17, 2⟩, ⟨1, 18, 6, 2, -16, 2⟩, ⟨1, 18, 1, 2, -15, 2⟩, ⟨1, 17, 12, 2, -14, 2⟩,
   ⟨1, 17, 7, 2, -13, 2⟩, ⟨1, 17, 2, 2, -12, 2⟩, ⟨1, 16, 13, 2, -11, 2⟩, ⟨1, 16, 8, 2, -10, 2⟩,
   ⟨1, 16, 4, 2, -9, 2⟩, ⟨1, 16, 0, 2, -8, 2⟩, ⟨1, 15, 12, 2, -7, 2⟩, ⟨1, 15, 8, 2, -6, 2⟩,
   ⟨1, 15, 4, 2, -5, 2⟩, ⟨1, 15, 0, 2, -4, 2⟩, ⟨1, 14, 12, 2, -3, 2⟩, ⟨1, 14, 8, 2, -2, 2⟩,
   ⟨1, 14, 4, 2, -1, 2⟩, ⟨1, 9, 15, 2, 1, 2⟩, ⟨1, 9, 10, 2, 2, 2⟩, ⟨1, 9, 5, 2, 3, 2⟩,
   ⟨1, 9, 0, 2, 4, 2⟩, ⟨1, 8, 11, 2, 5, 2⟩, ⟨1, 8, 6, 2, 6, 2⟩, ⟨1, 8, 1, 2, 7, 2⟩,
   ⟨1, 7, 12, 2, 8, 2⟩, ⟨1, 7, 7, 2, 9, 2⟩, ⟨1, 7, 1, 2, 10, 2⟩, ⟨1, 6, 13, 2, 11, 2⟩,
   ⟨1, 6, 8, 2, 12, 2⟩, ⟨1, 6, 3, 2, 13, 2⟩, ⟨1, 5, 14, 2, 14, 2⟩, ⟨1, 5, 9, 2, 15, 2⟩,
   ⟨1, 5, 4, 2, 16, 2⟩, ⟨1, 4, 15, 2, 17, 2⟩, ⟨1, 4, 10, 2, 18, 2⟩, ⟨1, 4, 5, 2, 19, 2⟩,
   ⟨1, 4, 0, 2, 20, 2⟩, ⟨1, 3, 11, 2, 21, 2⟩, ⟨1, 3, 6, 2, 22, 2⟩, ⟨1, 3, 1, 2, 23, 2⟩,
   ⟨1, 20, 8, 2, -23, 1⟩, ⟨1, 20, 3, 2, -22, 1⟩, ⟨1, 19, 14, 2, -21, 1⟩, ⟨1, 19, 9, 2, -20, 1⟩,
   ⟨1, 19, 4, 2, -19, 1⟩, ⟨1, 18, 15, 2, -18, 1⟩, ⟨1, 18, 10, 2, -17, 1⟩, ⟨1, 18, 5, 2, -16, 1⟩,
   ⟨1, 18, 0, 2, -15, 1⟩, ⟨1, 17, 11, 2, -14, 1⟩, ⟨1, 17, 6, 2, -13, 1⟩, ⟨1, 17, 1, 2, -12, 1⟩,
   ⟨1, 16, 12, 2, -11, 1⟩, ⟨1, 14, 3, 2, -1, 1⟩, ⟨1, 9, 14, 2, 1, 1⟩, ⟨1, 9, 9, 2, 2, 1⟩,
   ⟨1, 9, 4, 2, 3, 1⟩, ⟨1, 8, 15, 2, 4, 1⟩, ⟨1, 8, 10, 2, 5, 1⟩, ⟨1, 8, 5, 2, 6, 1⟩,
   ⟨1, 8, 0, 2, 7, 1⟩, ⟨1, 7, 11, 2, 8, 1⟩, ⟨1, 7, 6, 2, 9, 1⟩, ⟨1, 7, 2, 2, 10, 1⟩,
   ⟨1, 6, 12, 2, 11, 1⟩, ⟨1, 6, 7, 2, 12, 1⟩, ⟨1, 6, 2, 2, 13, 1⟩, ⟨1, 5, 13, 2, 14, 1⟩,
   ⟨1, 5, 8, 2, 15, 1⟩, ⟨1, 5, 3, 2, 16, 1⟩, ⟨1, 4, 14, 2, 17, 1⟩, ⟨1, 4, 9, 2, 18, 1⟩,
   ⟨1, 4, 4, 2, 19, 1⟩, ⟨1, 3, 15, 2, 20, 1⟩, ⟨1, 3, 10, 2, 21, 1⟩, ⟨1, 3, 5, 2, 22, 1⟩,
   ⟨1, 3, 0, 2, 23, 1⟩, ⟨2, 20, 8, 2, -23, -1⟩, ⟨2, 20, 3, 2, -22, -1⟩, ⟨2, 19, 14, 2, -21, -1⟩,
   ⟨2, 19, 9, 2, -20, -1⟩, ⟨2, 19, 4, 2, -19, -1⟩, ⟨2, 18, 15, 2, -18, -1⟩, ⟨2, 18, 10, 2, -17, -1⟩,
   ⟨2, 18, 5, 2, -16, -1⟩, ⟨2, 18, 0, 2, -15, -1⟩, ⟨2, 17, 11, 2, -14, -1⟩, ⟨2, 17, 6, 2, -13, -1⟩,
   ⟨2, 17, 1, 2, -12, -1⟩, ⟨2, 16, 12, 2, -11, -1⟩, ⟨2, 14, 3, 2, -1, -1⟩, ⟨2, 9, 14, 2, 1, -1⟩,
   ⟨2, 9, 9, 2, 2, -1⟩, ⟨2, 9, 4, 2, 3, -1⟩, ⟨2, 8, 15, 2, 4, -1⟩, ⟨2, 8, 10, 2, 5, -1⟩,
   ⟨2, 8, 5, 2, 6, -1⟩, ⟨2, 8, 0, 2, 7, -1⟩, ⟨2, 7, 11, 2, 8, -1⟩, ⟨2, 7, 6, 2, 9, -1⟩,
   ⟨2, 7, 1, 2, 10, -1⟩, ⟨2, 6, 12, 2, 11, -1⟩, ⟨2, 6, 7, 2, 12, -1⟩, ⟨2, 6, 2, 2, 13, -1⟩,
   ⟨2, 5, 13, 2, 14, -1⟩, ⟨2, 5, 8, 2, 15, -1⟩, ⟨2, 5, 3, 2, 16, -1⟩, ⟨2, 4, 14, 2, 17, -1⟩,
   ⟨2, 4, 9, 2, 18, -1⟩, ⟨2, 4, 4, 2, 19, -1⟩, ⟨2, 3, 15, 2, 20, -1⟩, ⟨2, 3, 10, 2, 21, -1⟩,
   ⟨2, 3, 5, 2, 22, -1⟩, ⟨2, 3, 0, 2, 23, -1⟩, ⟨2, 20, 9, 2, -23, -2⟩, ⟨2, 20, 4, 2, -22, -2⟩,
   ⟨2, 19, 15, 2, -21, -2⟩, ⟨2, 19, 10, 2, -20, -2⟩, ⟨2, 19, 5, 2, -19, -2⟩, ⟨2, 19, 0, 2, -18, -2⟩,
   ⟨2, 18, 11, 2, -17, -2⟩, ⟨2, 18, 6, 2, -16, -2⟩, ⟨2, 18, 1, 2, -15, -2⟩, ⟨2, 17, 12, 2, -14, -2⟩,
   ⟨2, 17, 7, 2, -13, -2⟩, ⟨2, 17, 2, 2, -12, -2⟩, ⟨2, 16, 13, 2, -11, -2⟩, ⟨2, 16, 8, 2, -10, -2⟩,
   ⟨2, 16, 4, 2, -9, -2⟩, ⟨2, 16, 0, 2, -8, -2⟩, ⟨2, 15, 12, 2, -7, -2⟩, ⟨2, 15, 8, 2, -6, -2⟩,
   ⟨2, 15, 4, 2, -5, -2⟩, ⟨2, 15, 0, 2, -4, -2⟩, ⟨2, 14, 12, 2, -3, -2⟩, ⟨2, 14, 8, 2, -2, -2⟩,
   ⟨2, 14, 4, 2, -1, -2⟩, ⟨2, 9, 15, 2, 1, -2⟩, ⟨2, 9, 10, 2, 2, -2⟩, ⟨2, 9, 5, 2, 3, -2⟩,
   ⟨2, 9, 0, 2, 4, -2⟩, ⟨2, 8, 11, 2, 5, -2⟩, ⟨2, 8, 6, 2, 6, -2⟩, ⟨2, 8, 1, 2, 7, -2⟩,
   ⟨2, 7, 12, 2, 8, -2⟩, ⟨2, 7, 7, 2, 9, -2⟩, ⟨2, 7, 2, 2, 10, -2⟩, ⟨2, 6, 13, 2, 11, -2⟩,
   ⟨2, 6, 8, 2, 12, -2⟩, ⟨2, 6, 3, 2, 13, -2⟩, ⟨2, 5, 14, 2, 14, -2⟩, ⟨2, 5, 9, 2, 15, -2⟩,
   ⟨2, 5, 4, 2, 16, -2⟩, ⟨2, 4, 15, 2, 17, -2⟩, ⟨2, 4, 10, 2, 18, -2⟩, ⟨2, 4, 5, 2, 19, -2⟩,
   ⟨2, 4, 0, 2, 20, -2⟩, ⟨2, 3, 11, 2, 21, -2⟩, ⟨2, 3, 6, 2, 22, -2⟩, ⟨2, 3, 1, 2, 23, -2⟩,
   ⟨2, 20, 10, 2, -23, -3⟩, ⟨2, 20, 5, 2, -22, -3⟩, ⟨2, 20, 0, 2, -21, -3⟩, ⟨2, 19, 11, 2, -20, -3⟩,
   ⟨2, 19, 6, 2, -19, -3⟩, ⟨2, 19, 1, 2, -18, -3⟩, ⟨2, 18, 12, 2, -17, -3⟩, ⟨2, 18, 7, 2, -16, -3⟩,
   ⟨2, 18, 2, 2, -15, -3⟩, ⟨2, 17, 13, 2, -14, -3⟩, ⟨2, 17, 8, 2, -13, -3⟩, ⟨2, 17, 3, 2, -12, -3⟩,
   ⟨2, 16, 14, 2, -11, -3⟩, ⟨2, 16, 9, 2, -10, -3⟩, ⟨2, 16, 5, 2, -9, -3⟩, ⟨2, 16, 1, 2, -8, -3⟩,
   ⟨2, 15, 13, 2, -7, -3⟩, ⟨2, 15, 9, 2, -6, -3⟩, ⟨2, 15, 5, 2, -5, -3⟩, ⟨2, 15, 1, 2, -4, -3⟩,
   ⟨2, 14, 13, 2, -3, -3⟩, ⟨2, 14, 9, 2, -2, -3⟩, ⟨2, 14, 5, 2, -1, -3⟩, ⟨2, 14, 0, 2, 1, -3⟩,
   ⟨2, 9, 11, 2, 2, -3⟩, ⟨2, 9, 6, 2, 3, -3⟩, ⟨2, 9, 1, 2, 4, -3⟩, ⟨2, 8, 12, 2, 5, -3⟩,
   ⟨2, 8, 7, 2, 6, -3⟩, ⟨2, 8, 2, 2, 7, -3⟩, ⟨2, 7, 13, 2, 8, -3⟩, ⟨2, 7, 8, 2, 9, -3⟩,
   ⟨2, 7, 3, 2, 10, -3⟩, ⟨2, 6, 14, 2, 11, -3⟩, ⟨2, 6, 9, 2, 12, -3⟩, ⟨2, 6, 4, 2, 13, -3⟩,
   ⟨2, 5, 15, 2, 14, -3⟩, ⟨2, 5, 10, 2, 15, -3⟩, ⟨2, 5, 5, 2, 16, -3⟩, ⟨2, 5, 0, 2, 17, -3⟩,
   ⟨2, 4, 11, 2, 18, -3⟩, ⟨2, 4, 6, 2, 19, -3⟩, ⟨2, 4, 1, 2, 20, -3⟩, ⟨2, 3, 12, 2, 21, -3⟩,
   ⟨2, 3, 7, 2, 22, -3⟩, ⟨2, 3, 2, 2, 23, -3⟩, ⟨2, 20, 11, 2, -23, -4⟩, ⟨2, 20, 6, 2, -22, -4⟩,
   ⟨2, 20, 1, 2, -21, -4⟩, ⟨2, 19, 12, 2, -20, -4⟩, ⟨2, 19, 7, 2, -19, -4⟩, ⟨2, 19, 2, 2, -18, -4⟩,
   ⟨2, 18, 13, 2, -17, -4⟩, ⟨2, 18, 8, 2, -16, -4⟩, ⟨2, 18, 3, 2, -15, -4⟩, ⟨2, 17, 14, 2, -14, -4⟩,
   ⟨2, 17, 9, 2, -13, -4⟩, ⟨2, 17, 4, 2, -12, -4⟩, ⟨2, 16, 15, 2, -11, -4⟩, ⟨2, 16, 10, 2, -10, -4⟩,
   ⟨2, 16, 6, 2, -9, -4⟩, ⟨2, 16, 2, 2, -8, -4⟩, ⟨2, 15, 14, 2, -7, -4⟩, ⟨2, 15, 10, 2, -6, -4⟩,
   ⟨2, 15, 6, 2, -5, -4⟩, ⟨2, 15, 2, 2, -4, -4⟩, ⟨2, 14, 14, 2, -3, -4⟩, ⟨2, 14, 10, 2, -2, -4⟩,
   ⟨2, 14, 6, 2, -1, -4⟩, ⟨2, 14, 1, 2, 1, -4⟩, ⟨2, 9, 12, 2, 2, -4⟩, ⟨2, 9, 7, 2, 3, -4⟩,
   ⟨2, 9, 2, 2, 4, -4⟩, ⟨2, 8, 13, 2, 5, -4⟩, ⟨2, 8, 8, 2, 6, -4⟩, ⟨2, 8, 3, 2, 7, -4⟩,
   ⟨2, 7, 14, 2, 8, -4⟩, ⟨2, 7, 9, 2, 9, -4⟩, ⟨2, 7, 4, 2, 10, -4⟩, ⟨2, 6, 15, 2, 11, -4⟩,
   ⟨2, 6, 10, 2, 12, -4⟩, ⟨2, 6, 5, 2, 13, -4⟩, ⟨2, 6, 0, 2, 14, -4⟩, ⟨2, 5, 11, 2, 15, -4⟩,
   ⟨2, 5, 6, 2, 16, -4⟩, ⟨2, 5, 1, 2, 17, -4⟩, ⟨2, 4, 12, 2, 18, -4⟩, ⟨2, 4, 7, 2, 19, -4⟩,
   ⟨2, 4, 2, 2, 20, -4⟩, ⟨2, 3, 13, 2, 21, -4⟩, ⟨2, 3, 8, 2, 22, -4⟩, ⟨2, 3, 3, 2, 23, -4⟩,
   ⟨2, 20, 12, 2, -23, -5⟩, ⟨2, 20, 7, 2, -22, -5⟩, ⟨2, 20, 2, 2, -21, -5⟩, ⟨2, 19, 13, 2, -20, -5⟩,
   ⟨2, 19, 8, 2, -19, -5⟩, ⟨2, 19, 3, 2, -18, -5⟩, ⟨2, 18, 14, 2, -17, -5⟩, ⟨2, 18, 9, 2, -16, -5⟩,
   ⟨2, 18, 4, 2, -15, -5⟩, ⟨2, 17, 15, 2, -14, -5⟩, ⟨2, 17, 10, 2, -13, -5⟩, ⟨2, 17, 5, 2, -12, -5⟩,
   ⟨2, 17, 0, 2, -11, -5⟩, ⟨2, 16, 11, 2, -10, -5⟩, ⟨2, 16, 7, 2, -9, -5⟩, ⟨2, 16, 3, 2, -8, -5⟩,
   ⟨2, 15, 15, 2, -7, -5⟩, ⟨2, 15, 11, 2, -6, -5⟩, ⟨2, 15, 7, 2, -5, -5⟩, ⟨2, 15, 3, 2, -4, -5⟩,
   ⟨2, 14, 15, 2, -3, -5⟩, ⟨2, 14, 11, 2, -2, -5⟩, ⟨2, 14, 7, 2, -1, -5⟩, ⟨2, 14, 2, 2, 1, -5⟩,
   ⟨2, 9, 13, 2, 2, -5⟩, ⟨2, 9, 8, 2, 3, -5⟩, ⟨2, 9, 3, 2, 4, -5⟩, ⟨2, 8, 14, 2, 5, -5⟩,
   ⟨2, 8, 9, 2, 6, -5⟩, ⟨2, 8, 4, 2, 7, -5⟩, ⟨2, 7, 15, 2, 8, -5⟩, ⟨2, 7, 10, 2, 9, -5⟩,
   ⟨2, 7, 5, 2, 10, -5⟩, ⟨2, 7, 0, 2, 11, -5⟩, ⟨2, 6, 11, 2, 12, -5⟩, ⟨2, 6, 6, 2, 13, -5⟩,
   ⟨2, 6, 1, 2, 14, -5⟩, ⟨2, 5, 12, 2, 15, -5⟩, ⟨2, 5, 7, 2, 16, -5⟩, ⟨2, 5, 2, 2, 17, -5⟩,
   ⟨2, 4, 13, 2, 18, -5⟩, ⟨2, 4, 8, 2, 19, -5⟩, ⟨2, 4, 3, 2, 20, -5⟩, ⟨2, 3, 14, 2, 21, -5⟩,
   ⟨2, 3, 9, 2, 22, -5⟩, ⟨2, 3, 4, 2, 23, -5⟩]

end EvioTool
