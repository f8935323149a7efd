/-!
# ContractIR.Decimal.Binary — what the bits of a 64-bit float stand for

A float is not a number, infinite, or exactly `m * 2 ^ q` for a natural number `m` and an integer
`q`.  Everything else about floats is computed from that reading in exact integer arithmetic.
-/

namespace ContractIR.Decimal

/-- The exact reading of a 64-bit float. -/
inductive Binary
  | nan
  | infinite (negative : Bool)
  /-- the number `m * 2 ^ q`, or its negative -/
  | finite (negative : Bool) (m : Nat) (q : Int)
deriving DecidableEq

namespace Binary

/-- The reading of a bit pattern: one sign bit, eleven bits of exponent, fifty-two of fraction. -/
def ofBits (bits : UInt64) : Binary :=
  let negative := bits >>> 63 == 1
  let exponent := ((bits >>> 52) &&& 0x7FF).toNat
  let fraction := (bits &&& 0xFFFFFFFFFFFFF).toNat
  if exponent = 0x7FF then
    if fraction = 0 then infinite negative else nan
  else if exponent = 0 then finite negative fraction (-1074)
  else finite negative (0x10000000000000 + fraction) (exponent - 1075)

/-- The reading of a float. -/
def ofFloat (x : Float) : Binary := ofBits x.toBits

/-- The float nearest to `n * 2 ^ e`, and of two equally near ones the even one; beyond the largest
float it is infinite.  The number must not be below the least float of full precision. -/
def nearest (negative : Bool) (n : Nat) (e : Int) : Binary :=
  let length := n.log2 + 1
  if length ≤ 53 then finite negative (n * Nat.pow 2 (53 - length)) (e + length - 53)
  else
    let unit := Nat.pow 2 (length - 53)
    let rest := 2 * (n % unit)
    let m := n / unit + if unit < rest ∨ rest = unit ∧ n / unit % 2 = 1 then 1 else 0
    let q := e + length - 53
    if m = 0x20000000000000 then
      if 970 < q then infinite negative else finite negative 0x10000000000000 (q + 1)
    else if 971 < q then infinite negative else finite negative m q

/-- The integer that the number is, if it is one. -/
def toInt? : Binary → Option Int
  | finite negative m q =>
    let denominator := Nat.pow 2 (-q).toNat
    if m % denominator = 0 then
      let magnitude : Int := (m / denominator * Nat.pow 2 q.toNat : Nat)
      some (if negative then -magnitude else magnitude)
    else none
  | _ => none

end Binary

/-- The integer that a float is, if it is one; the negative zero is zero. -/
def toInt? (x : Float) : Option Int := (Binary.ofFloat x).toInt?

end ContractIR.Decimal
