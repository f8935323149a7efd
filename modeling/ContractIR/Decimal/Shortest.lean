/-!
# ContractIR.Decimal.Shortest — the fewest decimal digits that identify a float

The reals that round to `m * 2 ^ q` form an interval.  Among the decimals in it the shortest is
chosen, of two equally short ones the nearer, and on a tie the even one.  All comparisons are exact,
by cross multiplication of natural numbers.
-/

namespace ContractIR.Decimal

/-- The positive float `m * 2 ^ q`. -/
structure Magnitude where
  m : Nat
  q : Int

/-- The decimal `digits * 10 ^ exponent`. -/
structure Scientific where
  digits : Nat
  exponent : Int
deriving DecidableEq

namespace Magnitude

/-- Compares `a * 10 ^ i` with `n * 2 ^ j`. -/
def compareScaled (a : Nat) (i : Int) (n : Nat) (j : Int) : Ordering :=
  compare (a * Nat.pow 10 i.toNat * Nat.pow 2 (-j).toNat)
    (n * Nat.pow 2 j.toNat * Nat.pow 10 (-i).toNat)

/-- Four times the lower end of the interval that rounds to the float, in units of `2 ^ q`.  Below a
power of two the neighbour is only half as far away. -/
def lowerEnd (x : Magnitude) : Nat :=
  if x.m = 0x10000000000000 ∧ -1074 < x.q then 4 * x.m - 1 else 4 * x.m - 2

/-- Four times the upper end of the interval that rounds to the float, in units of `2 ^ q`. -/
def upperEnd (x : Magnitude) : Nat := 4 * x.m + 2

/-- Whether a decimal rounds to the float; the ends of the interval do if `m` is even. -/
def readsBack (x : Magnitude) (d : Scientific) : Bool :=
  let low := compareScaled d.digits d.exponent x.lowerEnd (x.q - 2)
  let high := compareScaled d.digits d.exponent x.upperEnd (x.q - 2)
  let closed := x.m % 2 == 0
  (low == .gt || closed && low == .eq) && (high == .lt || closed && high == .eq)

/-- The least `k` with `m * 2 ^ q < 10 ^ k`: for a number below one, minus the count of powers of
ten by which it can be multiplied and stay below one. -/
def scale (x : Magnitude) : Int :=
  let whole := x.m * Nat.pow 2 x.q.toNat / Nat.pow 2 (-x.q).toNat
  if 0 < whole then (Nat.toDigits 10 whole).length
  else -((List.range 330).filter fun j => x.m * Nat.pow 10 (j + 1) < Nat.pow 2 (-x.q).toNat).length

/-- The decimal on the grid `10 ^ exponent` that reads back, if one does; of the two neighbours of
the float the nearer, and on a tie the even one. -/
def onGrid? (x : Magnitude) (exponent : Int) : Option Scientific :=
  let numerator := x.m * Nat.pow 2 x.q.toNat * Nat.pow 10 (-exponent).toNat
  let denominator := Nat.pow 2 (-x.q).toNat * Nat.pow 10 exponent.toNat
  let below := numerator / denominator
  let low : Scientific := ⟨below, exponent⟩
  let high : Scientific := ⟨below + 1, exponent⟩
  match x.readsBack low, x.readsBack high with
  | false, false => none
  | true, false => some low
  | false, true => some high
  | true, true =>
    match compare (2 * numerator) ((2 * below + 1) * denominator) with
    | .lt => some low
    | .gt => some high
    | .eq => some (if below % 2 = 0 then low else high)

/-- The shortest decimal that reads back.  Seventeen digits always do; the exact value stands behind
them only to make the function total. -/
def shortest (x : Magnitude) : Scientific :=
  ((List.range 17).findSome? fun n : Nat => x.onGrid? (x.scale - (n + 1))).getD
    ⟨x.m * Nat.pow 2 x.q.toNat * Nat.pow 5 (-x.q).toNat, -((-x.q).toNat : Int)⟩

end Magnitude

end ContractIR.Decimal
