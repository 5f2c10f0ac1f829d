import StateSync.Hash

/-! The Keccak-256 digest: 24 rounds on five planes of 64-bit lanes, in blocks of 17 lanes. -/

namespace StateSync.Keccak

/-- The five lanes of one row index. -/
structure Plane where
  x0 : UInt64
  x1 : UInt64
  x2 : UInt64
  x3 : UInt64
  x4 : UInt64
deriving DecidableEq

namespace Plane

def zero : Plane := ⟨0, 0, 0, 0, 0⟩

def xor (a b : Plane) : Plane :=
  ⟨a.x0 ^^^ b.x0, a.x1 ^^^ b.x1, a.x2 ^^^ b.x2, a.x3 ^^^ b.x3, a.x4 ^^^ b.x4⟩

/-- Each lane takes in the two lanes after it, the nearer one complemented. -/
def chi (a : Plane) : Plane :=
  ⟨a.x0 ^^^ (~~~a.x1 &&& a.x2), a.x1 ^^^ (~~~a.x2 &&& a.x3), a.x2 ^^^ (~~~a.x3 &&& a.x4),
    a.x3 ^^^ (~~~a.x4 &&& a.x0), a.x4 ^^^ (~~~a.x0 &&& a.x1)⟩

end Plane

/-- The 1600-bit state, plane by plane. -/
structure State where
  y0 : Plane
  y1 : Plane
  y2 : Plane
  y3 : Plane
  y4 : Plane
deriving DecidableEq

namespace State

def zero : State := ⟨.zero, .zero, .zero, .zero, .zero⟩

end State

/-- Rotates a lane towards its most significant bit. -/
@[inline] def rotate (lane count : UInt64) : UInt64 :=
  (lane <<< count) ||| (lane >>> (64 - count))

/-- Adds to every lane the parities of the column before it and of the rotated column after it. -/
def theta (s : State) : State :=
  let c := s.y0.xor (s.y1.xor (s.y2.xor (s.y3.xor s.y4)))
  let d : Plane := ⟨c.x4 ^^^ rotate c.x1 1, c.x0 ^^^ rotate c.x2 1, c.x1 ^^^ rotate c.x3 1,
    c.x2 ^^^ rotate c.x4 1, c.x3 ^^^ rotate c.x0 1⟩
  ⟨s.y0.xor d, s.y1.xor d, s.y2.xor d, s.y3.xor d, s.y4.xor d⟩

/-- Rotates every lane by its own offset and moves lane `(x, y)` to `(y, 2x + 3y)`. -/
def rhoPi (s : State) : State where
  y0 := ⟨s.y0.x0, rotate s.y1.x1 44, rotate s.y2.x2 43, rotate s.y3.x3 21, rotate s.y4.x4 14⟩
  y1 := ⟨rotate s.y0.x3 28, rotate s.y1.x4 20, rotate s.y2.x0 3, rotate s.y3.x1 45,
    rotate s.y4.x2 61⟩
  y2 := ⟨rotate s.y0.x1 1, rotate s.y1.x2 6, rotate s.y2.x3 25, rotate s.y3.x4 8,
    rotate s.y4.x0 18⟩
  y3 := ⟨rotate s.y0.x4 27, rotate s.y1.x0 36, rotate s.y2.x1 10, rotate s.y3.x2 15,
    rotate s.y4.x3 56⟩
  y4 := ⟨rotate s.y0.x2 62, rotate s.y1.x3 55, rotate s.y2.x4 39, rotate s.y3.x0 41,
    rotate s.y4.x1 2⟩

def chi (s : State) : State := ⟨s.y0.chi, s.y1.chi, s.y2.chi, s.y3.chi, s.y4.chi⟩

/-- Adds a round's constant to the first lane. -/
def iota (constant : UInt64) (s : State) : State :=
  { s with y0 := { s.y0 with x0 := s.y0.x0 ^^^ constant } }

def round (s : State) (constant : UInt64) : State := iota constant (chi (rhoPi (theta s)))

def roundConstants : List UInt64 := [
  0x0000000000000001, 0x0000000000008082, 0x800000000000808a, 0x8000000080008000,
  0x000000000000808b, 0x0000000080000001, 0x8000000080008081, 0x8000000000008009,
  0x000000000000008a, 0x0000000000000088, 0x0000000080008009, 0x000000008000000a,
  0x000000008000808b, 0x800000000000008b, 0x8000000000008089, 0x8000000000008003,
  0x8000000000008002, 0x8000000000000080, 0x000000000000800a, 0x800000008000000a,
  0x8000000080008081, 0x8000000000008080, 0x0000000080000001, 0x8000000080008008]

def permute (s : State) : State := roundConstants.foldl round s

/-- Bytes in one block: 17 of the 25 lanes. -/
def blockSize : Nat := 136

/-- Fills the last block: a first padding bit at its low end, a last one at its high end. -/
def pad (message : Bytes) : Bytes :=
  match blockSize - message.length % blockSize with
  | 0 | 1 => message ++ [0x81]
  | n + 2 => message ++ 0x01 :: List.replicate n 0 ++ [0x80]

/-- The little-endian lanes of a byte string; a rest shorter than a lane is dropped. -/
def lanes : Bytes → List UInt64
  | b0 :: b1 :: b2 :: b3 :: b4 :: b5 :: b6 :: b7 :: rest =>
    (b0.toUInt64 ||| (b1.toUInt64 <<< 8) ||| (b2.toUInt64 <<< 16) ||| (b3.toUInt64 <<< 24) |||
      (b4.toUInt64 <<< 32) ||| (b5.toUInt64 <<< 40) ||| (b6.toUInt64 <<< 48) |||
      (b7.toUInt64 <<< 56)) :: lanes rest
  | _ => []

/-- Adds each block of 17 lanes to the state and permutes. -/
def absorb : State → List UInt64 → State
  | s, l0 :: l1 :: l2 :: l3 :: l4 :: l5 :: l6 :: l7 :: l8 :: l9 :: l10 :: l11 :: l12 :: l13 ::
      l14 :: l15 :: l16 :: rest =>
    absorb (permute ⟨s.y0.xor ⟨l0, l1, l2, l3, l4⟩, s.y1.xor ⟨l5, l6, l7, l8, l9⟩,
      s.y2.xor ⟨l10, l11, l12, l13, l14⟩, s.y3.xor ⟨l15, l16, 0, 0, 0⟩, s.y4⟩) rest
  | s, _ => s

/-- The bytes of a lane, least significant first. -/
def laneBytes (lane : UInt64) : Bytes :=
  [0, 8, 16, 24, 32, 40, 48, 56].map fun (shift : UInt64) => (lane >>> shift).toUInt8

end StateSync.Keccak

namespace StateSync

/-- The Keccak-256 digest of a byte string. -/
def keccak (message : Bytes) : Hash :=
  let out := (Keccak.absorb .zero (Keccak.lanes (Keccak.pad message))).y0
  .ofBytes ([out.x0, out.x1, out.x2, out.x3].flatMap Keccak.laneBytes)

end StateSync
