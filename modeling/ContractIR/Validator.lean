import ContractIR.Validation

/-!
# ContractIR.Validator — validation step by step

A validator goes through a function from place to place.  It holds the messages so far and the
location that the next message is about, and like a printer it can be used again and again: each
report starts from nothing.
-/

namespace ContractIR

/-- What is validated: a function, or every function of a module. -/
inductive Subject
  | func (f : Func)
  | module (m : Module)

/-- A validator at work. -/
structure Validator where
  messages : Array Diagnostic := #[]
  location : Location := {}
deriving DecidableEq, Inhabited

/-- A piece of validation. -/
abbrev ValidateM := StateM Validator

namespace Validator

open Validation (inputText)

/-! ### Places and messages -/

/-- Moves to another location, given the present one. -/
def move (f : Location → Location) : ValidateM Unit :=
  modify fun v => { v with location := f v.location }

/-- Moves to a function as a whole. -/
def enterFunc (f : Func) : ValidateM Unit := move fun _ => { function := some f.name }

/-- Moves to the block of a function under the given key. -/
def enterBlock (f : Func) (key : BlockId) : ValidateM Unit :=
  move fun _ => { function := some f.name, block := some key }

/-- Moves to an instruction of the block where the validator stands, or back to the block as a
whole. -/
def moveTo (index : Option Nat) : ValidateM Unit :=
  move fun l =>
    { function := l.function, block := l.block, instruction := index.map fun n => (n : Int) }

/-- Adds a message about the present location. -/
def say (message : Option Location → Diagnostic) : ValidateM Unit :=
  modify fun v => { v with messages := v.messages.push (message (some v.location)) }

/-- Adds an error. -/
def error (fault : IRFault) (detail : Option String) : ValidateM Unit := say (.irError fault detail)

/-- Adds an error if the condition holds. -/
def errorIf (p : Prop) [Decidable p] (fault : IRFault) (detail : Option String) : ValidateM Unit :=
  if p then error fault detail else pure ()

/-- Adds a warning. -/
def warning (fault : IRFault) (detail : Option String) : ValidateM Unit :=
  say (.irWarning fault detail)

/-! ### Layout -/

/-- Checks the place of an instruction in its block: `afterOther` says whether something other than
a phi came before it, and `last` whether nothing comes after it. -/
def checkPlace (afterOther last : Bool) : Instr → ValidateM Unit
  | .phi result _ => errorIf afterOther .misplacedPhi (some (varText result))
  | i => do
    errorIf (i.isTerminator && !last) .misplacedTerminator (some i.kind)
    errorIf (!i.isTerminator && last) .missingTerminator (some ("ends with " ++ i.kind))

/-- Checks the places of the instructions from an index on. -/
def checkPlaces : Nat → Bool → List Instr → ValidateM Unit
  | _, _, [] => pure ()
  | index, afterOther, i :: rest => do
    moveTo (some index)
    checkPlace afterOther rest.isEmpty i
    checkPlaces (index + 1) (afterOther || !i.isPhi) rest

/-- Checks the layout of a block. -/
def checkLayout (b : Block) : ValidateM Unit :=
  if b.instructions.isEmpty then error .emptyBlock none
  else do
    checkPlaces 0 false b.instructions
    moveTo none
    errorIf (b.instructions.getLast?.any Instr.isPhi) .missingTerminator (some "ends with phi")

/-! ### Variables -/

/-- Checks the definition of a variable, and counts the variable among those that are defined. -/
def checkDefinition (table : VarTable) (defined : List VarId) (id : VarId) :
    ValidateM (List VarId) := do
  errorIf (!table.contains id) .unknownVariable (some (varText id))
  errorIf (id ∈ defined) .duplicateDefinition (some (varText id))
  return id :: defined

/-- Checks the definitions of a block, given the variables that are defined before it. -/
def checkDefinitions (table : VarTable) (defined : List VarId) (b : Block) :
    ValidateM (List VarId) := do
  let defined ← b.instructions.zipIdx.foldlM (fun defined (p : Instr × Nat) => do
    moveTo (some p.2)
    p.1.definitions.foldlM (checkDefinition table) defined) defined
  moveTo none
  return defined

/-- Checks that a variable that is read is declared and defined. -/
def checkUse (table : VarTable) (defined : List VarId) (id : VarId) : ValidateM Unit :=
  if !table.contains id then error .unknownVariable (some (varText id))
  else errorIf (id ∉ defined) .undefinedVariable (some (varText id))

/-- Checks that a block that is named as a successor exists. -/
def checkJump (f : Func) (id : BlockId) : ValidateM Unit :=
  errorIf (!f.blocks.contains id) .unknownBlock (some (blockText id))

/-- Checks the references of a block, given all variables that are defined. -/
def checkUses (f : Func) (defined : List VarId) (b : Block) : ValidateM Unit := do
  b.instructions.zipIdx.forM fun (p : Instr × Nat) => do
    moveTo (some p.2)
    p.1.uses.forM (checkUse f.table defined)
    p.1.successors.forM (checkJump f)
  moveTo none

/-! ### Phis -/

/-- Checks the block that an input of a phi names, given the blocks that inputs before it name. -/
def checkSource (predecessors : List BlockId) (result : VarId) (covered : List BlockId)
    (source : BlockId) : ValidateM Unit :=
  if source ∉ predecessors then error .invalidPhiInput (some (inputText result source))
  else errorIf (source ∈ covered) .duplicatePhiInput (some (inputText result source))

/-- Checks an input of a phi, and counts its block among those that are covered. -/
def checkInput (predecessors : List BlockId) (result : VarId) (covered : List BlockId)
    (input : PhiInput) : ValidateM (List BlockId) := do
  checkSource predecessors result covered input.block
  return input.block :: covered

/-- Checks the inputs of a phi, and then that they cover the predecessors. -/
def checkPhi (predecessors : List BlockId) (result : VarId) (inputs : List PhiInput) :
    ValidateM Unit := do
  let covered ← inputs.foldlM (checkInput predecessors result) []
  (predecessors.filter (· ∉ covered)).forM fun p =>
    warning .incompletePhi (some (varText result ++ " has no input from " ++ blockText p))

/-- Checks the phis at the start of a block. -/
def checkPhis (predecessors : List BlockId) (b : Block) : ValidateM Unit := do
  b.phis.zipIdx.forM fun (p : (VarId × List PhiInput) × Nat) => do
    moveTo (some p.2)
    checkPhi predecessors p.1.1 p.1.2
  moveTo none

/-! ### Functions and modules -/

/-- Checks a block on its own, given the variables that are defined before it. -/
def checkBlock (f : Func) (defined : List VarId) (e : BlockId × Block) :
    ValidateM (List VarId) := do
  enterBlock f e.1
  errorIf (e.2.id ≠ e.1) .internalError
    (some (blockText e.2.id ++ " is stored under id " ++ Decimal.intText e.1))
  checkLayout e.2
  let defined ← checkDefinitions f.table defined e.2
  checkPhis (f.predecessors e.1) e.2
  return defined

/-- Checks all blocks of a function: first each on its own, then their references, and last whether
control can reach them. -/
def checkBlocks (f : Func) : ValidateM Unit := do
  let defined ← f.blocks.entries.foldlM (checkBlock f) []
  f.blocks.entries.forM fun e => do
    enterBlock f e.1
    checkUses f defined e.2
  enterFunc f
  f.unreachable.forM fun key => do
    enterBlock f key
    warning .unreachableBlock (some (blockText key))

/-- Checks a function. -/
def checkFunc (f : Func) : ValidateM Unit := do
  enterFunc f
  if f.blocks.contains f.entry then checkBlocks f
  else error .unknownBlock (some ("entry " ++ blockText f.entry))

/-- Checks a function, or the functions of a module one after the other. -/
def check : Subject → ValidateM Unit
  | .func f => checkFunc f
  | .module m => m.functions.values.forM checkFunc

/-- The report on a function or a module. -/
def validate (s : Subject) : ValidateM (Report Unit) := do
  set ({} : Validator)
  check s
  let v ← get
  return .ofDiagnostics v.messages.toList

/-- What a validator reports, and the validator that it becomes. -/
def use (s : Subject) (v : Validator) : Report Unit × Validator := (validate s).run v

/-- What a new validator reports. -/
def fresh (s : Subject) : Report Unit := (use s {}).1

end Validator

end ContractIR
