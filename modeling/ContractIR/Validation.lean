import ContractIR.Func.Reach
import ContractIR.Report
import ContractIR.Validation.Phis
import ContractIR.Validation.Variables

/-!
# ContractIR.Validation — well-formed functions and modules

The diagnostics of a function come in a fixed order: block by block its key, layout, definitions and
phis; then block by block its references; then the unreachable blocks.  A function without its entry
block has that one error and no other.
-/

namespace ContractIR

namespace Validation

/-- The place of the block under the given key. -/
def atBlock (f : Func) (key : BlockId) : Location := { function := some f.name, block := some key }

/-- A block is stored under its own number. -/
def storedKey (place : Location) (key : BlockId) (b : Block) : List Diagnostic :=
  if b.id = key then []
  else
    [.irError .internalError
      (some (blockText b.id ++ " is stored under id " ++ Decimal.intText key)) (some place)]

/-- What is to be said about a block on its own, given the variables that are defined before it. -/
def blockDiagnostics (f : Func) (defined : List VarId) (key : BlockId) (b : Block) :
    List Diagnostic :=
  let place := atBlock f key
  storedKey place key b ++ layout place b ++
    definitions f.table place defined (definitionSites b) ++ phis place (f.predecessors key) b

/-- What is to be said about blocks in turn, given the variables that are defined before them. -/
def blocksDiagnostics (f : Func) :
    (defined : List VarId) → List (BlockId × Block) → List Diagnostic
  | _, [] => []
  | defined, (key, b) :: rest =>
    blockDiagnostics f defined key b ++
      blocksDiagnostics f (defined ++ b.definitions) rest

/-- What is wrong with the references of the function. -/
def references (f : Func) : List Diagnostic :=
  f.blocks.entries.flatMap fun (key, b) => uses f f.definitions (atBlock f key) b

/-- A warning for each block that control cannot reach. -/
def unreachableBlocks (f : Func) : List Diagnostic :=
  f.unreachable.map fun key =>
    .irWarning .unreachableBlock (some (blockText key)) (some (atBlock f key))

/-- The error for a function without its entry block. -/
def missingEntry (f : Func) : Diagnostic :=
  .irError .unknownBlock (some ("entry " ++ blockText f.entry)) (some { function := some f.name })

end Validation

namespace Func

/-- All that is to be said about a function, errors and warnings, in order. -/
def diagnostics (f : Func) : List Diagnostic :=
  if f.blocks.contains f.entry then
    Validation.blocksDiagnostics f [] f.blocks.entries ++ Validation.references f ++
      Validation.unreachableBlocks f
  else [Validation.missingEntry f]

/-- The report on a function; it fails if there is an error. -/
def validate (f : Func) : Report Unit := .ofDiagnostics f.diagnostics

/-- Refuses a function with errors, for the first of them. -/
def assertWellFormed (f : Func) : Except Diagnostic Unit :=
  match f.validate.errors with
  | [] => .ok ()
  | d :: _ => .error d

end Func

namespace Module

/-- All that is to be said about the functions of a module, in the order of the functions. -/
def diagnostics (m : Module) : List Diagnostic := m.functions.values.flatMap Func.diagnostics

/-- The report on a module; it fails if one of its functions has an error. -/
def validate (m : Module) : Report Unit := .ofDiagnostics m.diagnostics

/-- Refuses a module with errors, for the first of them. -/
def assertWellFormed (m : Module) : Except Diagnostic Unit :=
  match m.validate.errors with
  | [] => .ok ()
  | d :: _ => .error d

end Module

end ContractIR
