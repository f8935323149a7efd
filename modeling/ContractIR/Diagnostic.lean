import ContractIR.Location

/-!
# ContractIR.Diagnostic — errors and warnings

A diagnostic is a cause together with a severity and, if known, a location.  Causes keep the code
apart from its detail; the wording is derived from them in one place (`Cause.message`).
-/

namespace ContractIR

/-- How serious a diagnostic is; only errors make a result fail. -/
inductive Severity
  | error
  | warning
deriving DecidableEq, Inhabited

namespace Severity

/-- The severity as it stands at the head of a report line. -/
def text : Severity → String
  | error => "error"
  | warning => "warning"

end Severity

/-- What can be wrong with a function, or with printing it. -/
inductive IRFault
  | unknownVariable
  | undefinedVariable
  | duplicateDefinition
  | emptyBlock
  | missingTerminator
  | misplacedTerminator
  | misplacedPhi
  | unknownBlock
  | invalidPhiInput
  | incompletePhi
  | unreachableBlock
  | unsupportedPrint
  | duplicatePhiInput
  | internalError
deriving DecidableEq, Inhabited

namespace IRFault

/-- The stable code of the fault. -/
def code : IRFault → String
  | unknownVariable => "IR001"
  | undefinedVariable => "IR002"
  | duplicateDefinition => "IR003"
  | emptyBlock => "IR004"
  | missingTerminator => "IR005"
  | misplacedTerminator => "IR006"
  | misplacedPhi => "IR007"
  | unknownBlock => "IR008"
  | invalidPhiInput => "IR009"
  | incompletePhi => "IR010"
  | unreachableBlock => "IR011"
  | unsupportedPrint => "IR012"
  | duplicatePhiInput => "IR013"
  | internalError => "IR999"

/-- The sentence that opens every message of the fault. -/
def summary : IRFault → String
  | unknownVariable => "Variable not found in the variable table"
  | undefinedVariable => "Variable is used but never defined"
  | duplicateDefinition => "Variable is defined more than once"
  | emptyBlock => "Block has no instructions"
  | missingTerminator => "Block does not end with a terminator"
  | misplacedTerminator => "Terminator is not the last instruction"
  | misplacedPhi => "Phi follows a non-phi instruction"
  | unknownBlock => "Reference to a block that does not exist"
  | invalidPhiInput => "Phi input names a block that is not a predecessor"
  | incompletePhi => "Phi has no input for a predecessor"
  | unreachableBlock => "Block is unreachable from the entry block"
  | unsupportedPrint => "Cannot print this Ir node"
  | duplicatePhiInput => "Phi has more than one input for a predecessor"
  | internalError => "Internal Ir error"

end IRFault

/-- What can go wrong while lowering source types and emitting instructions. -/
inductive LoweringFault
  | unrepresentableType
  | invalidEmit
  | unknownBlock
  | noCurrentBlock
deriving DecidableEq, Inhabited

namespace LoweringFault

/-- The stable code of the fault. -/
def code : LoweringFault → String
  | unrepresentableType => "IRGEN001"
  | invalidEmit => "IRGEN002"
  | unknownBlock => "IRGEN003"
  | noCurrentBlock => "IRGEN004"

/-- The sentence that opens every message of the fault. -/
def summary : LoweringFault → String
  | unrepresentableType => "Type has no Ir representation"
  | invalidEmit => "Instruction cannot be emitted here"
  | unknownBlock => "Block was not created by this builder"
  | noCurrentBlock => "No block is selected for emission"

end LoweringFault

/-- The cause of a diagnostic. -/
inductive Cause
  /-- a fault of a function, with what it applies to -/
  | ir (fault : IRFault) (detail : Option String)
  /-- a fault of lowering or emission, with what it applies to -/
  | lowering (fault : LoweringFault) (detail : Option String)
  /-- a condition outside both catalogues, with a code and wording of its own -/
  | other (code message : String)
deriving DecidableEq, Inhabited

namespace Cause

/-- The code under which the cause is reported. -/
def code : Cause → String
  | ir fault _ => fault.code
  | lowering fault _ => fault.code
  | other code _ => code

/-- A summary, followed by the detail if there is one that is not empty. -/
def withDetail (summary : String) : Option String → String
  | none => summary
  | some detail => if detail = "" then summary else summary ++ ": " ++ detail

/-- The wording of the cause. -/
def message : Cause → String
  | ir fault detail => withDetail fault.summary detail
  | lowering fault detail => withDetail fault.summary detail
  | other _ message => message

end Cause

/-- An error or a warning, with the place it applies to if that is known.  No location at all and
a location without parts are different. -/
structure Diagnostic where
  cause : Cause
  location : Option Location := none
  severity : Severity := .error
deriving DecidableEq, Inhabited

namespace Diagnostic

/-- The code of the diagnostic's cause. -/
def code (d : Diagnostic) : String := d.cause.code

/-- The wording of the diagnostic's cause. -/
def message (d : Diagnostic) : String := d.cause.message

/-- An error of the function at `location`. -/
def irError (fault : IRFault) (detail : Option String) (location : Option Location) :
    Diagnostic where
  cause := .ir fault detail
  location := location

/-- A warning about the function at `location`. -/
def irWarning (fault : IRFault) (detail : Option String) (location : Option Location) :
    Diagnostic where
  cause := .ir fault detail
  location := location
  severity := .warning

/-- An error of lowering or emission at `location`. -/
def loweringError (fault : LoweringFault) (detail : Option String) (location : Option Location) :
    Diagnostic where
  cause := .lowering fault detail
  location := location

/-- The error for a value of a form that nothing handles, by a description of the value. -/
def unexpected (description : String) : Diagnostic where
  cause := .other "INTERNAL_ERROR" ("Unexpected value: " ++ description)

/-- The error for a node of an unknown kind. -/
def unexpectedKind (kind : String) : Diagnostic := unexpected ("kind " ++ kind)

/-- The diagnostic as one line of a report whose group has the given severity.  A location whose
text is empty leaves no trace. -/
def line (group : Severity) (d : Diagnostic) : String :=
  let place := (d.location.map Location.text).getD ""
  let head := group.text ++ "[" ++ d.code ++ "] "
  if place = "" then head ++ d.message else head ++ place ++ ": " ++ d.message

end Diagnostic

end ContractIR
