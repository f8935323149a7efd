import ContractIR.Fold.Expr
import ContractIR.Func

/-!
# ContractIR.Fold.Func — constant folding of whole functions

The pass goes through the blocks in the order in which they were added.  It remembers which
variables were set to literals and puts those literals where the folder looks for them.  How a
single expression is folded is a parameter of the pass; `Func.fold` takes `Expr.fold`.
-/

namespace ContractIR

namespace Fold

/-- The name of the pass. -/
def stepName : String := "constant-folding"

/-- The variables known to be literals; the latest entry for a variable counts. -/
abbrev Constants := List (VarId × Literal)

/-- An operand with the literal in place of a variable that is known to be one. -/
def replace (known : Constants) : Operand → Operand
  | .var id => (known.lookup id).elim (.var id) .literal
  | o => o

/-- An expression with known literals in those operands that the folder evaluates. -/
def substitute (known : Constants) : Expr → Expr
  | .binary op left right => .binary op (replace known left) (replace known right)
  | .unary op operand => .unary op (replace known operand)
  | .widthChange change operand type => .widthChange change (replace known operand) type
  | .keccak256 args => .keccak256 (args.map (replace known))
  | e => e

/-- Remembers what a variable was set to, if that is a literal. -/
def learn (known : Constants) (result : VarId) (e : Expr) : Constants :=
  match e.literal? with
  | some l => (result, l) :: known
  | none => known

variable (fold : Expr → Except NumericError Expr)

/-- Folds one instruction; only what variables are set to can change. -/
def instr (known : Constants) : Instr → Except NumericError (Instr × Constants)
  | .set result e => do
    let e ← fold (substitute known e)
    return (.set result e, learn known result e)
  | i => .ok (i, known)

/-- Folds instructions one after the other. -/
def instrs (known : Constants) : List Instr → Except NumericError (List Instr × Constants)
  | [] => .ok ([], known)
  | i :: rest => do
    let (i, known) ← instr fold known i
    let (rest, known) ← instrs known rest
    return (i :: rest, known)

/-- Folds the instructions of a block. -/
def block (known : Constants) (b : Block) : Except NumericError (Block × Constants) := do
  let (is, known) ← instrs fold known b.instructions
  return ({ b with instructions := is }, known)

end Fold

namespace Func

/-- Folds the constants of a function, with `fold` for its expressions. -/
def foldBy (fold : Expr → Except NumericError Expr) (f : Func) : Except NumericError Func := do
  let (blocks, _) ← f.blocks.mapState (Fold.block fold) []
  return { f with blocks := blocks }

/-- Folds the constants of a function; `H` hashes bytes. -/
def fold (H : Bytes → Bytes) (f : Func) : Except NumericError Func := f.foldBy (Expr.fold H)

/-- Goes through a function again and again. -/
def repeated (pass : Func → Except NumericError Func) : Nat → Func → Except NumericError Func
  | 0, f => .ok f
  | n + 1, f => do repeated pass n (← pass f)

end Func

end ContractIR
