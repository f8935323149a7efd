import ContractIR.Lowering
import ContractIR.Validation

/-!
# ContractIR.Builder — putting a function together step by step

Blocks are numbered in the order in which they are created, and the first one is the entry.
Emission keeps every block in the order phis, straight-line code, terminator, and refuses what
would break it.

A step that fails is an error with the state it leaves behind: a variable that was declared for an
instruction stays declared when the instruction is refused.
-/

namespace ContractIR

/-- A function under construction. -/
structure Builder where
  target : Target
  id : FuncId
  name : String
  params : List Ty
  returns : List Ty
  table : VarTable := {}
  blocks : IdMap Block := .empty
  /-- the block that instructions are added to -/
  current : Option BlockId := none

/-- A step of building, which may fail. -/
abbrev BuildM := ExceptT Diagnostic (StateM Builder)

namespace Builder

/-- Starts a function whose parameters and results have the given source types. -/
def start (target : Target) (id : FuncId) (name : String) (params returns : List SourceTy) :
    Except Diagnostic Builder := do
  let location : Location := { function := some name }
  let ps ← SourceTy.lowerAll target (some location) params
  let rs ← SourceTy.lowerAll target (some location) returns
  return { target := target, id := id, name := name, params := ps, returns := rs }

/-- The function and the selected block, for errors. -/
def location (b : Builder) : Location := { function := some b.name, block := b.current }

/-- The function as it stands, with the first block as its entry. -/
def assemble (b : Builder) : Func where
  id := b.id
  name := b.name
  params := b.params
  returns := b.returns
  entry := 0
  blocks := b.blocks
  table := b.table

/-- A function that was assembled earlier, with the variables that are declared by now. -/
def revisit (b : Builder) (f : Func) : Func := { f with table := b.table }

/-- The function as it stands, if it is well-formed. -/
def finish (b : Builder) : Report Func := b.assemble.validate.map fun _ => b.assemble

/-- Whether the given block, or else the selected one, ends with a terminator. -/
def isTerminated (b : Builder) (id : Option BlockId) : Bool :=
  ((id <|> b.current).bind b.blocks.get?).any Block.isTerminated

/-- The type of a variable. -/
def typeOf (b : Builder) (id : VarId) : Except Diagnostic Ty :=
  (b.table.lookup id (some b.location)).map Variable.type

/-- Why an instruction cannot be added to a block, if it cannot. -/
def refusal? (b : Builder) (block : Block) (i : Instr) : Option Diagnostic :=
  let place : Location :=
    ⟨some b.name, some block.id, some block.instructions.length⟩
  let refuse (why : String) := Diagnostic.loweringError .invalidEmit (some why) (some place)
  if block.isTerminated then some (refuse (i.kind ++ " after terminator"))
  else
    match i, block.instructions.getLast? with
    | .phi result _, some last =>
      if last.isPhi then none
      else some (refuse ("phi " ++ varText result ++ " after " ++ last.kind))
    | _, _ => none

/-- The selected block with its number. -/
def selected? (b : Builder) : Option (BlockId × Block) :=
  b.current.bind fun id => (b.blocks.get? id).map fun block => (id, block)

/-! ### Steps -/

/-- Takes over the outcome of a computation that needs no builder. -/
def lift {α : Type} (x : Except Diagnostic α) : BuildM α := ExceptT.mk (pure x)

/-- Declares a variable. -/
def declare (type : Ty) (name : Option String) : BuildM VarId := do
  let b ← get
  let (id, table) := b.table.declare type name
  set { b with table := table }
  return id

/-- Declares a variable of a source type. -/
def declareSource (type : SourceTy) (name : Option String) : BuildM VarId := do
  let b ← get
  let type ← lift (type.lower b.target (some b.location))
  declare type name

/-- Creates a block. -/
def createBlock (name : Option String) : BuildM BlockId := do
  let b ← get
  let id : BlockId := b.blocks.size
  set { b with blocks := b.blocks.insert id { id := id, name := name } }
  return id

/-- Selects the block that instructions are added to. -/
def switchTo (id : BlockId) : BuildM Unit := do
  let b ← get
  if b.blocks.contains id then set { b with current := some id }
  else throw (.loweringError .unknownBlock (some (blockText id)) (some b.location))

/-- Adds an instruction to the selected block. -/
def emit (i : Instr) : BuildM Unit := do
  let b ← get
  match b.selected? with
  | none => throw (.loweringError .noCurrentBlock (some i.kind) (some b.location))
  | some (id, block) =>
    match b.refusal? block i with
    | some d => throw d
    | none => set { b with blocks := b.blocks.insert id (block.push i) }

/-- Sets a new variable to an expression. -/
def setNew (e : Expr) (type : Ty) (name : Option String) : BuildM VarId := do
  let result ← declare type name
  emit (.set result e)
  return result

/-- Sets a new variable by a phi. -/
def phi (type : Ty) (inputs : List PhiInput) (name : Option String) : BuildM VarId := do
  let result ← declare type name
  emit (.phi result inputs)
  return result

/-! ### Running steps -/

/-- What a step gives in a state, and the state that it leaves. -/
def step {α : Type} (x : BuildM α) (b : Builder) : Except Diagnostic α × Builder := x.run.run b

@[simp] theorem step_pure {α : Type} (a : α) (b : Builder) : step (pure a) b = (.ok a, b) := rfl

@[simp] theorem step_throw {α : Type} (d : Diagnostic) (b : Builder) :
    step (throw d : BuildM α) b = (.error d, b) := rfl

@[simp] theorem step_lift {α : Type} (x : Except Diagnostic α) (b : Builder) :
    step (lift x) b = (x, b) := rfl

/-- A step that fails ends a sequence of steps, and its state stays. -/
theorem step_bind {α β : Type} (x : BuildM α) (f : α → BuildM β) (b : Builder) :
    step (x >>= f) b =
      match step x b with
      | (.ok a, b') => step (f a) b'
      | (.error d, b') => (.error d, b') := by
  rcases h : step x b with ⟨r, b'⟩
  have hx : x.run.run b = (r, b') := h
  simp only [step, ExceptT.run_bind, StateT.run_bind, hx]
  cases r <;> rfl

@[simp] theorem step_declare (type : Ty) (name : Option String) (b : Builder) :
    step (declare type name) b =
      (.ok (b.table.declare type name).1, { b with table := (b.table.declare type name).2 }) := rfl

@[simp] theorem step_createBlock (name : Option String) (b : Builder) :
    step (createBlock name) b =
      (.ok b.blocks.size,
        { b with blocks := b.blocks.insert b.blocks.size { id := b.blocks.size, name := name } }) :=
  rfl

theorem step_switchTo (id : BlockId) (b : Builder) :
    step (switchTo id) b =
      if b.blocks.contains id then (.ok (), { b with current := some id })
      else (.error (.loweringError .unknownBlock (some (blockText id)) (some b.location)), b) := by
  rw [switchTo, step_bind]
  change step (if b.blocks.contains id then _ else _) b = _
  split <;> rfl

end Builder

end ContractIR
