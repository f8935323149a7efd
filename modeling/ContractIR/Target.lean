import ContractIR.Decimal.Text
import ContractIR.Diagnostic

/-!
# ContractIR.Target — platform parameters

A target fixes how wide addresses, native token values and function selectors are, in bytes.  The
platforms known by name are given here; `Target.define` checks the parameters of any other one.
-/

namespace ContractIR

/-- The parameters of a platform, fixed once per module; lengths are in bytes. -/
structure Target where
  name : String
  addressLength : Int
  valueLength : Int
  selectorLength : Int
deriving DecidableEq, Inhabited

namespace Target

def evm : Target := ⟨"evm", 20, 16, 4⟩

def polkadot : Target := ⟨"polkadot", 32, 16, 4⟩

def solana : Target := ⟨"solana", 32, 8, 8⟩

/-- The platform of the given name. -/
def preset? (name : String) : Option Target := [evm, polkadot, solana].find? (·.name = name)

/-- Whether a length in bytes fits a 32-byte word and is not zero. -/
def ValidLength (n : Int) : Prop := 1 ≤ n ∧ n ≤ 32

instance (n : Int) : Decidable (ValidLength n) := inferInstanceAs (Decidable (1 ≤ n ∧ n ≤ 32))

/-- The error for a length that is no valid number of bytes. -/
def badLength (name field : String) (length : Float) : Diagnostic where
  cause := .other "INVALID_TARGET"
    ("Target " ++ name ++ ": " ++ field ++ " must be an integer between 1 and 32, got " ++
      Decimal.text length)

/-- A length as an integer, if it is a valid number of bytes. -/
def checkLength (name field : String) (length : Float) : Except Diagnostic Int :=
  match Decimal.toInt? length with
  | some n => if ValidLength n then .ok n else .error (badLength name field length)
  | none => .error (badLength name field length)

/-- A target of the given name; every length must be a valid number of bytes, and the first that is
not is reported. -/
def define (name : String) (addressLength valueLength selectorLength : Float) :
    Except Diagnostic Target := do
  let address ← checkLength name "addressLength" addressLength
  let value ← checkLength name "valueLength" valueLength
  let selector ← checkLength name "selectorLength" selectorLength
  return ⟨name, address, value, selector⟩

end Target

end ContractIR
