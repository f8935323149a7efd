import ContractIR.Instr

/-!
# ContractIR.Block — basic blocks

A block is meant to hold phis, then straight-line instructions, then one terminator.  The type
admits any list of instructions; whether a block has that layout is a matter of validation.
-/

namespace ContractIR

/-- A basic block; the name is a label for printing. -/
structure Block where
  id : BlockId
  name : Option String := none
  instructions : List Instr := []
deriving DecidableEq, Inhabited

namespace Block

/-- The phis at the start of the block. -/
def phis (b : Block) : List (VarId × List PhiInput) :=
  (b.instructions.takeWhile Instr.isPhi).filterMap fun
    | .phi result inputs => some (result, inputs)
    | _ => none

/-- The last instruction, if it is a terminator. -/
def terminator? (b : Block) : Option Terminator := b.instructions.getLast?.bind Instr.terminator?

/-- Whether the block ends with a terminator. -/
def isTerminated (b : Block) : Bool := b.terminator?.isSome

/-- The blocks to which control may go from this one; none if it lacks a terminator. -/
def successors (b : Block) : List BlockId := (b.terminator?.map Terminator.successors).getD []

/-- The variables that the block defines, in order and with repetitions. -/
def definitions (b : Block) : List VarId := b.instructions.flatMap Instr.definitions

/-- The block with an instruction added at its end. -/
def push (b : Block) (i : Instr) : Block := { b with instructions := b.instructions ++ [i] }

end Block

end ContractIR
