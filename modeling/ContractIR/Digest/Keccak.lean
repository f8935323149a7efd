/-!
# ContractIR.Digest.Keccak — the Keccak-256 digest

The sponge over the permutation of 25 lanes of 64 bits, with a rate of 136 bytes.  Messages are
padded with a one byte, zeros, and the top bit of the last byte of the block.  Lane `(x, y)` stands
at index `x + 5 * y`.
-/

namespace ContractIR.Keccak

/-- The lanes of the sponge. -/
abbrev State := Vector UInt64 25

/-- The lane in column `x` and row `y`, both read modulo five. -/
def lane (a : State) (x y : Nat) : UInt64 := a.getD (x % 5 + 5 * (y % 5)) 0

/-- The state given by its lanes. -/
def ofLanes (f : Nat → Nat → UInt64) : State := Vector.ofFn fun i => f (i.val % 5) (i.val / 5)

/-- Rotates a lane to the left. -/
def rotateLeft (w : UInt64) (n : Nat) : UInt64 :=
  if n = 0 then w else (w <<< n.toUInt64) ||| (w >>> (64 - n).toUInt64)

/-- By how much each lane is rotated. -/
def rotations : List Nat :=
  [0, 1, 62, 28, 27, 36, 44, 6, 55, 20, 3, 10, 43, 25, 39, 41, 45, 15, 21, 8, 18, 2, 61, 56, 14]

/-- What each round adds to the first lane. -/
def roundConstants : List UInt64 :=
  [0x0000000000000001, 0x0000000000008082, 0x800000000000808A, 0x8000000080008000,
   0x000000000000808B, 0x0000000080000001, 0x8000000080008081, 0x8000000000008009,
   0x000000000000008A, 0x0000000000000088, 0x0000000080008009, 0x000000008000000A,
   0x000000008000808B, 0x800000000000008B, 0x8000000000008089, 0x8000000000008003,
   0x8000000000008002, 0x8000000000000080, 0x000000000000800A, 0x800000008000000A,
   0x8000000080008081, 0x8000000000008080, 0x0000000080000001, 0x8000000080008008]

/-- The parity of column `x`. -/
def parity (a : State) (x : Nat) : UInt64 :=
  lane a x 0 ^^^ lane a x 1 ^^^ lane a x 2 ^^^ lane a x 3 ^^^ lane a x 4

/-- Adds to each lane the parities of the columns around it. -/
def theta (a : State) : State :=
  let sums : Vector UInt64 5 :=
    Vector.ofFn fun x => parity a (x.val + 4) ^^^ rotateLeft (parity a (x.val + 1)) 1
  ofLanes fun x y => lane a x y ^^^ sums.getD x 0

/-- Rotates the lanes and moves them to their new places. -/
def rhoPi (a : State) : State :=
  ofLanes fun x y =>
    let column := (x + 3 * y) % 5
    rotateLeft (lane a column x) (rotations.getD (column + 5 * x) 0)

/-- Combines each lane with the two to its right. -/
def chi (a : State) : State :=
  ofLanes fun x y => lane a x y ^^^ (~~~lane a (x + 1) y &&& lane a (x + 2) y)

/-- One round of the permutation. -/
def round (a : State) (constant : UInt64) : State :=
  let b := chi (rhoPi (theta a))
  b.set 0 (b[0] ^^^ constant)

/-- The permutation: twenty-four rounds. -/
def permute (a : State) : State := roundConstants.foldl round a

/-- The number of message bytes that go into the state at a time. -/
def rate : Nat := 136

/-- The bytes that fill the last block of a message of the given length. -/
def padding (length : Nat) : List UInt8 :=
  let missing := rate - length % rate
  if missing = 1 then [0x81] else 0x01 :: (List.replicate (missing - 2) 0x00 ++ [0x80])

/-- A lane from its bytes, the least significant first. -/
def laneOfBytes (bytes : List UInt8) : UInt64 :=
  bytes.foldr (fun b w => (w <<< 8) ||| b.toUInt64) 0

/-- The bytes of a lane, the least significant first. -/
def bytesOfLane (w : UInt64) : List UInt8 :=
  (List.range 8).map fun i => (w >>> (8 * i).toUInt64).toUInt8

/-- Adds one block of the message and permutes the state. -/
def absorb (a : State) (block : List UInt8) : State :=
  permute (Vector.ofFn fun i => a[i] ^^^ laneOfBytes ((block.drop (8 * i.val)).take 8))

/-- The state after the next `n` blocks. -/
def absorbBlocks : Nat → State → List UInt8 → State
  | 0, a, _ => a
  | n + 1, a, bytes => absorbBlocks n (absorb a (bytes.take rate)) (bytes.drop rate)

/-- The state after the whole message. -/
def absorbAll (message : List UInt8) : State :=
  absorbBlocks (message.length / rate + 1) (Vector.replicate 25 0)
    (message ++ padding message.length)

/-- The Keccak-256 digest of a message: 32 bytes. -/
def digest (message : List UInt8) : List UInt8 :=
  let a := absorbAll message
  (List.range 4).flatMap fun i => bytesOfLane (lane a i 0)

end ContractIR.Keccak
