import ContractIR.Func.Order
import ContractIR.Instr.Printer

/-!
# ContractIR.Printer — the canonical text of blocks, functions and modules

A printer is a pen: it holds the lines written so far, how far they are indented, and the location
that a failure would be reported at.  It can be used again and again; each text starts on a clean
sheet, and a failure leaves no location behind.
-/

namespace ContractIR

/-- A printer at work. -/
structure Printer where
  indent : Nat := 0
  lines : Array String := #[]
  location : Location := {}
deriving DecidableEq, Inhabited

/-- A piece of printing, which may fail. -/
abbrev PrintM := ExceptT Diagnostic (StateM Printer)

namespace Printer

/-- Changes the printer. -/
def change (f : Printer → Printer) : PrintM Unit := modify f

/-- Takes over the outcome of a computation that needs no printer. -/
def lift {α : Type} (x : Except Diagnostic α) : PrintM α := ExceptT.mk (pure x)

/-- The blanks in front of a line. -/
def margin (indent : Nat) : String := String.join (List.replicate indent "  ")

/-- Writes a line at the current indentation; an empty line stays empty. -/
def line (text : String) : PrintM Unit :=
  change fun p =>
    { p with lines := p.lines.push (if text = "" then "" else margin p.indent ++ text) }

/-- Moves the indentation one step in. -/
def indented : PrintM Unit := change fun p => { p with indent := p.indent + 1 }

/-- Moves the indentation one step out. -/
def dedented : PrintM Unit := change fun p => { p with indent := p.indent - 1 }

/-- Moves to another location, given the present one. -/
def move (f : Location → Location) : PrintM Unit :=
  change fun p => { p with location := f p.location }

/-! ### Writing -/

/-- Writes the instruction at the given index of the current block. -/
def writeInstr (index : Nat) (i : Instr) : PrintM Unit := do
  move fun l => { l with instruction := some index }
  let p ← get
  let text ← lift (i.text p.location)
  line text

/-- Writes a block: its label, and its instructions one step further in. -/
def writeBlock (b : Block) : PrintM Unit := do
  move fun l => { l with block := some b.id }
  line (blockText b.id ++ ((b.name.map fun n => " " ++ n).getD "") ++ ":")
  indented
  b.instructions.zipIdx.forM fun (i, index) => writeInstr index i
  dedented
  move fun l => { function := l.function }

/-- Writes the line of a variable. -/
def writeVariable (id : VarId) (v : Variable) : PrintM Unit := do
  let type ← lift v.type.text
  line (varText id ++ ": " ++ type ++ ((v.name.map fun n => " " ++ n).getD ""))

/-- Writes the table of variables, unless it is empty. -/
def writeTable (t : VarTable) : PrintM Unit := do
  if 0 < t.size then
    line "vars \x7b"
    indented
    t.entries.forM fun (id, v) => writeVariable id v
    dedented
    line "\x7d"

/-- Writes a function: its signature, its variables and its blocks. -/
def writeFunc (f : Func) : PrintM Unit := do
  move fun _ => { function := some f.name }
  let params ← lift (Ty.texts f.params)
  let returns ← lift (Ty.texts f.returns)
  line (funcText f.id ++ " " ++ f.name ++ "(" ++ ", ".intercalate params ++ ") -> (" ++
    ", ".intercalate returns ++ ") \x7b")
  indented
  writeTable f.table
  (f.printOrder.filterMap f.blocks.get?).forM writeBlock
  dedented
  line "\x7d"

/-- Writes functions with an empty line between them. -/
def writeFuncs : List Func → PrintM Unit
  | [] => pure ()
  | [f] => writeFunc f
  | f :: rest => do
    writeFunc f
    line ""
    writeFuncs rest

/-- Writes a module: its name and target, and its functions one step further in. -/
def writeModule (m : Module) : PrintM Unit := do
  line ("module " ++ m.name ++ " (" ++ m.target.name ++ ") \x7b")
  indented
  writeFuncs m.functions.values
  dedented
  line "\x7d"

/-! ### Texts -/

/-- The lines that a piece of writing leaves on a clean sheet.  The location is cleared afterwards,
also on failure. -/
def render (write : PrintM Unit) : PrintM String := ExceptT.mk do
  set ({} : Printer)
  let outcome ← write.run
  modify fun p => { p with location := {} }
  let p ← get
  return outcome.map fun _ => "\n".intercalate p.lines.toList

/-- The text of a type. -/
def printType (t : Ty) : PrintM String := lift t.text

/-- The text of an operand. -/
def printOperand (o : Operand) : PrintM String := lift o.text

/-- The text of an expression, at the location where the printer stands. -/
def printExpr (e : Expr) : PrintM String := do
  let p ← get
  lift (e.text p.location)

/-- The text of an instruction, at the location where the printer stands. -/
def printInstr (i : Instr) : PrintM String := do
  let p ← get
  lift (i.text p.location)

/-- The text of a block. -/
def printBlock (b : Block) : PrintM String := render (writeBlock b)

/-- The text of a function. -/
def printFunc (f : Func) : PrintM String := render (writeFunc f)

/-- The text of a module. -/
def printModule (m : Module) : PrintM String := render (writeModule m)

/-! ### Printers at work -/

/-- What a piece of printing gives on a printer, and the printer that it leaves. -/
def use {α : Type} (x : PrintM α) (p : Printer) : Except Diagnostic α × Printer := x.run.run p

/-- What a piece of printing gives on a new printer. -/
def fresh {α : Type} (x : PrintM α) : Except Diagnostic α := (use x {}).1

@[simp] theorem use_pure {α : Type} (a : α) (p : Printer) : use (pure a) p = (.ok a, p) := rfl

@[simp] theorem use_lift {α : Type} (x : Except Diagnostic α) (p : Printer) :
    use (lift x) p = (x, p) := rfl

@[simp] theorem use_change (f : Printer → Printer) (p : Printer) :
    use (change f) p = (.ok (), f p) := rfl

/-- A piece of printing that fails ends what follows it, and the printer stays as it is left. -/
theorem use_bind {α β : Type} (x : PrintM α) (f : α → PrintM β) (p : Printer) :
    use (x >>= f) p =
      match use x p with
      | (.ok a, p') => use (f a) p'
      | (.error d, p') => (.error d, p') := by
  rcases h : use x p with ⟨r, p'⟩
  have hx : x.run.run p = (r, p') := h
  simp only [use, ExceptT.run_bind, StateT.run_bind, hx]
  cases r <;> rfl

/-- A text starts on a clean sheet, whatever the printer was used for before. -/
theorem use_render (write : PrintM Unit) (p : Printer) :
    use (render write) p =
      ((use write {}).1.map fun _ => "\n".intercalate (use write {}).2.lines.toList,
        { (use write {}).2 with location := {} }) := rfl

end Printer

namespace Block

/-- The text of a block. -/
def text (b : Block) : Except Diagnostic String := Printer.fresh (Printer.printBlock b)

end Block

namespace Func

/-- The text of a function. -/
def text (f : Func) : Except Diagnostic String := Printer.fresh (Printer.printFunc f)

end Func

namespace Module

/-- The text of a module. -/
def text (m : Module) : Except Diagnostic String := Printer.fresh (Printer.printModule m)

end Module

end ContractIR
