import ContractIR.Block
import ContractIR.Diagnostic
import ContractIR.Expr.Printer

/-!
# ContractIR.Validation.Layout — phis, then straight-line code, then one terminator
-/

namespace ContractIR.Validation

/-- The place of the instruction at an index of the block at `place`. -/
def atInstr (place : Location) (index : Nat) : Option Location :=
  some { place with instruction := some index }

/-- What is wrong with the place of one instruction in its block: `afterOther` says whether
something other than a phi came before it, and `last` whether nothing comes after it. -/
def placement (place : Location) (index : Nat) (afterOther last : Bool) : Instr → List Diagnostic
  | .phi result _ =>
    if afterOther then [.irError .misplacedPhi (some (varText result)) (atInstr place index)]
    else []
  | i =>
    (if i.isTerminator && !last then
      [.irError .misplacedTerminator (some i.kind) (atInstr place index)] else []) ++
    (if !i.isTerminator && last then
      [.irError .missingTerminator (some ("ends with " ++ i.kind)) (atInstr place index)] else [])

/-- What is wrong with the places of the instructions from an index on. -/
def placements (place : Location) : Nat → Bool → List Instr → List Diagnostic
  | _, _, [] => []
  | index, afterOther, i :: rest =>
    placement place index afterOther rest.isEmpty i ++
      placements place (index + 1) (afterOther || !i.isPhi) rest

/-- A block whose last instruction is a phi lacks a terminator. -/
def phiEnding (place : Location) (b : Block) : List Diagnostic :=
  if b.instructions.getLast?.any Instr.isPhi then
    [.irError .missingTerminator (some "ends with phi") (some place)]
  else []

/-- What is wrong with the layout of the block at `place`. -/
def layout (place : Location) (b : Block) : List Diagnostic :=
  if b.instructions.isEmpty then [.irError .emptyBlock none (some place)]
  else placements place 0 false b.instructions ++ phiEnding place b

end ContractIR.Validation
