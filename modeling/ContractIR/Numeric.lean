import ContractIR.Decimal.Binary

/-!
# ContractIR.Numeric — floats as integers, and computations without a result
-/

namespace ContractIR

/-- Why a computation on numbers has no result at all. -/
inductive NumericError
  /-- a number of bits or bytes below zero -/
  | negativeWidth (width : Int)
  /-- a fraction, or no number at all, where an integer is needed -/
  | notWhole
  /-- a width or an integer beyond what can be held -/
  | tooLarge
deriving DecidableEq, Inhabited

/-- The integer that a float is. -/
def wholeNumber (x : Float) : Except NumericError Int :=
  match Decimal.toInt? x with
  | some n => .ok n
  | none => .error .notWhole

/-- The integer that stands for a number, length or width of a node.  An infinite one counts as
`2 ^ 1024`, the first power of two beyond all floats. -/
def nodeNumber (x : Float) : Except NumericError Int :=
  match Decimal.Binary.ofFloat x with
  | .infinite negative =>
    let beyond : Int := Nat.pow 2 1024
    .ok (if negative then -beyond else beyond)
  | _ => wholeNumber x

/-- The number of bits in a number of bytes, which may be a fraction as long as the bits are
whole. -/
def bitsOfBytes (x : Float) : Except NumericError Int :=
  match nodeNumber x with
  | .ok n => .ok (8 * n)
  | .error _ => wholeNumber (8 * x)

end ContractIR
