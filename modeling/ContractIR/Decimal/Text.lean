import ContractIR.Decimal.Binary
import ContractIR.Decimal.Shortest

/-!
# ContractIR.Decimal.Text — numbers as they stand in texts

Numbers are written with the fewest digits that identify them: positionally while the leading digit
stands between the sixth place after the point and the twenty-first before it, otherwise with a
signed exponent.
-/

namespace ContractIR.Decimal

/-- Without the zeros at the end. -/
def dropTrailingZeros (digits : List Char) : List Char :=
  (digits.reverse.dropWhile (· == '0')).reverse

/-- Lays out `0.digits * 10 ^ point`, where the first digit is not zero. -/
def layout (digits : List Char) (point : Int) : String :=
  let count := digits.length
  if count ≤ point ∧ point ≤ 21 then
    String.ofList (digits ++ List.replicate (point - count).toNat '0')
  else if 0 < point ∧ point ≤ 21 then
    String.ofList (digits.take point.toNat ++ '.' :: digits.drop point.toNat)
  else if -6 < point ∧ point ≤ 0 then
    String.ofList ('0' :: '.' :: List.replicate (-point).toNat '0' ++ digits)
  else
    let mantissa := digits.take 1 ++ (if count ≤ 1 then [] else '.' :: digits.drop 1)
    let exponent := point - 1
    let sign := if exponent < 0 then "e-" else "e+"
    String.ofList mantissa ++ sign ++ toString exponent.natAbs

/-- A positive float. -/
def Magnitude.text (x : Magnitude) : String :=
  let d := x.shortest
  let digits := Nat.toDigits 10 d.digits
  layout (dropTrailingZeros digits) (d.exponent + digits.length)

/-- The text of what a float stands for; both zeros are written alike. -/
def Binary.text : Binary → String
  | nan => "NaN"
  | infinite negative => if negative then "-Infinity" else "Infinity"
  | finite negative m q =>
    if m = 0 then "0"
    else (if negative then "-" else "") ++ Magnitude.text ⟨m, q⟩

/-- A float. -/
def text (x : Float) : String := (Binary.ofFloat x).text

/-- An integer.  Up to `2 ^ 53` every integer is a float and takes all its digits; from there on it
is written as the float nearest to it. -/
def intText (n : Int) : String :=
  if n.natAbs ≤ 0x20000000000000 then toString n
  else (Binary.nearest (decide (n < 0)) n.natAbs 0).text

theorem intText_of_le {n : Int} (h : n.natAbs ≤ 0x20000000000000) : intText n = toString n :=
  if_pos h

/-- A number of eighths, as the float nearest to it. -/
def eighthsText (n : Int) : String :=
  if n % 8 = 0 then intText (n / 8)
  else (Binary.nearest (decide (n < 0)) n.natAbs (-3)).text

end ContractIR.Decimal
