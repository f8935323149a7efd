import ContractIR.Word

/-!
# ContractIR.Word.Power — powers by repeated squaring

Both loops read the exponent bit by bit, from the least significant one.  A negative exponent is
read as zero.
-/

namespace ContractIR.Word

/-- Multiplies `result` by `square ^ n`, giving up as soon as a product exceeds `limit`. -/
def boundedPowLoop (limit result square : Int) (n : Nat) : Option Int :=
  if n = 0 then some result
  else
    let product := if n % 2 = 1 then result * square else result
    if n % 2 = 1 ∧ limit < product then none
    else if n / 2 = 0 then some product
    else if limit < square * square then none
    else boundedPowLoop limit product (square * square) (n / 2)
termination_by n
decreasing_by omega

/-- The exact power, or nothing once it is known to exceed `limit`. -/
def boundedPow (base exponent limit : Int) : Option Int :=
  boundedPowLoop limit 1 base exponent.toNat

/-- Multiplies `result` by `square ^ n` modulo `2 ^ w`; without a multiplication `result` stays as
it is. -/
def modPowLoop (w result square n : Nat) : Nat :=
  if n = 0 then result
  else
    modPowLoop w (if n % 2 = 1 then unsigned w (result * square : Nat) else result)
      (unsigned w (square * square : Nat)) (n / 2)
termination_by n
decreasing_by omega

/-- The power modulo `2 ^ w`; the power with exponent zero is one, whatever the width. -/
def modPow (w : Nat) (base exponent : Int) : Nat :=
  modPowLoop w 1 (unsigned w base) exponent.toNat

end ContractIR.Word
