import ContractIR.Validation.Layout

/-!
# ContractIR.Validation.Phis — one input for each predecessor

A phi at the start of a block takes its inputs from predecessors of the block, from each at most
one. A predecessor without an input is only warned about.
-/

namespace ContractIR.Validation

/-- An input of a phi as it is named in messages. -/
def inputText (result : VarId) (block : BlockId) : String :=
  varText result ++ " from " ++ blockText block

/-- What is wrong with the inputs of a phi, given the blocks that inputs before them name. -/
def phiInputs (place : Option Location) (predecessors : List BlockId) (result : VarId) :
    (covered : List BlockId) → List PhiInput → List Diagnostic
  | _, [] => []
  | covered, input :: rest =>
    (if input.block ∉ predecessors then
      [.irError .invalidPhiInput (some (inputText result input.block)) place]
    else if input.block ∈ covered then
      [.irError .duplicatePhiInput (some (inputText result input.block)) place]
    else []) ++
    phiInputs place predecessors result (input.block :: covered) rest

/-- A warning for each predecessor that no input of a phi names. -/
def missingInputs (place : Option Location) (predecessors : List BlockId) (result : VarId)
    (inputs : List PhiInput) : List Diagnostic :=
  (predecessors.filter (· ∉ inputs.map PhiInput.block)).map fun p =>
    .irWarning .incompletePhi
      (some (varText result ++ " has no input from " ++ blockText p)) place

/-- What is to be said about the phis at the start of the block at `place`. -/
def phis (place : Location) (predecessors : List BlockId) (b : Block) : List Diagnostic :=
  b.phis.zipIdx.flatMap fun ((result, inputs), index) =>
    phiInputs (atInstr place index) predecessors result [] inputs ++
      missingInputs (atInstr place index) predecessors result inputs

end ContractIR.Validation
