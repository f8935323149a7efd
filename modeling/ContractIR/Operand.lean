import ContractIR.Bytes
import ContractIR.Location
import ContractIR.Ty

/-!
# ContractIR.Operand — what expressions and instructions read

An operand is a variable or a literal.  The contents of a string operand may be known already when
the code is compiled.
-/

namespace ContractIR

/-- A constant that stands for itself. -/
inductive Literal
  /-- an integer of the given type, which need not be in the range of the type -/
  | number (type : Ty) (value : Int)
  | bool (value : Bool)
deriving DecidableEq, Inhabited

/-- What an expression or instruction reads. -/
inductive Operand
  | var (id : VarId)
  | literal (value : Literal)
  | unknown (kind : String)
deriving DecidableEq, Inhabited

namespace Operand

/-- The number literal of the given type and value. -/
@[match_pattern]
abbrev number (type : Ty) (value : Int) : Operand := .literal (.number type value)

/-- The truth value `value`. -/
@[match_pattern]
abbrev bool (value : Bool) : Operand := .literal (.bool value)

/-- The variable that the operand reads, if it reads one. -/
def var? : Operand → Option VarId
  | var id => some id
  | _ => none

/-- The literal that the operand is, if it is one. -/
def literal? : Operand → Option Literal
  | literal value => some value
  | _ => none

end Operand

/-- A string operand. -/
inductive StringSource
  /-- contents that are known when the code is compiled -/
  | compileTime (bytes : Bytes)
  | runTime (operand : Operand)
  | unknown (kind : String)
deriving DecidableEq, Inhabited

namespace StringSource

/-- The operand that holds the string when the code runs, if there is one. -/
def operand? : StringSource → Option Operand
  | runTime operand => some operand
  | _ => none

end StringSource

/-- The operand that a phi takes when control arrives from `block`. -/
structure PhiInput where
  operand : Operand
  block : BlockId
deriving DecidableEq, Inhabited

end ContractIR
