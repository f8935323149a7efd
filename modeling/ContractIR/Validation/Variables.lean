import ContractIR.Func
import ContractIR.Validation.Layout

/-!
# ContractIR.Validation.Variables — single assignment and references

Every variable is declared and defined at most once, everything that is read is defined somewhere in
the function, and every successor exists.
-/

namespace ContractIR.Validation

/-- The definitions of a block with the indices of their instructions. -/
def definitionSites (b : Block) : List (VarId × Nat) :=
  b.instructions.zipIdx.flatMap fun (i, index) => i.definitions.map fun id => (id, index)

/-- What is wrong with the definitions of the block at `place`, given the variables in `defined`
before it. -/
def definitions (table : VarTable) (place : Location) :
    (defined : List VarId) → List (VarId × Nat) → List Diagnostic
  | _, [] => []
  | defined, (id, index) :: rest =>
    (if table.contains id then []
      else [.irError .unknownVariable (some (varText id)) (atInstr place index)]) ++
    (if id ∈ defined then
      [.irError .duplicateDefinition (some (varText id)) (atInstr place index)] else []) ++
    definitions table place (id :: defined) rest

/-- What is wrong with reading a variable, given all that are defined. -/
def use (table : VarTable) (defined : List VarId) (place : Option Location) (id : VarId) :
    List Diagnostic :=
  if !table.contains id then [.irError .unknownVariable (some (varText id)) place]
  else if id ∉ defined then [.irError .undefinedVariable (some (varText id)) place]
  else []

/-- What is wrong with naming a block as a successor. -/
def jump (f : Func) (place : Option Location) (id : BlockId) : List Diagnostic :=
  if f.blocks.contains id then [] else [.irError .unknownBlock (some (blockText id)) place]

/-- What is wrong with the references of the block at `place`: for each instruction first the
variables that it reads, then the blocks that it names. -/
def uses (f : Func) (defined : List VarId) (place : Location) (b : Block) : List Diagnostic :=
  b.instructions.zipIdx.flatMap fun (i, index) =>
    i.uses.flatMap (use f.table defined (atInstr place index)) ++
      i.successors.flatMap (jump f (atInstr place index))

end ContractIR.Validation
