import ContractIR.Decimal.Text

/-!
# ContractIR.Location — where in a function a diagnostic applies

A location names any part of function, block and instruction.  Parts that are not known are left
out, of the value as well as of its text.
-/

namespace ContractIR

/-- The number of a variable; a variable table hands them out from 0. -/
abbrev VarId := Int

/-- The number of a block within its function. -/
abbrev BlockId := Int

/-- The number of a function within its module. -/
abbrev FuncId := Int

/-- Where a diagnostic applies: a function by name, a block by number, an instruction by its index
in the block. -/
structure Location where
  function : Option String := none
  block : Option BlockId := none
  instruction : Option Int := none
deriving DecidableEq, Inhabited

namespace Location

/-- The parts that are present, outermost first. -/
def parts (l : Location) : List String :=
  l.function.toList ++ (l.block.map fun b => "block#" ++ Decimal.intText b).toList ++
    (l.instruction.map Decimal.intText).toList

/-- The parts that are present, separated by colons; the location without parts has the empty
text. -/
def text (l : Location) : String := ":".intercalate l.parts

@[simp] theorem text_empty : text {} = "" := rfl

end Location

end ContractIR
