import ContractIR.Func
import ContractIR.Proofs.Meaning.Operators

/-!
# ContractIR.Proofs.Meaning.Run — runs of a function

An interpretation (`Interp`) gives the operators their reference meaning, hashes bytes with a given
function, and gives everything else any meaning that is a function of operand values and machine
state.  A run starts at the entry block and
goes on one instruction at a time; the phis of a block are evaluated together when control enters
it.  Reading a variable that has no value yet is a fault of its own kind.
-/

namespace ContractIR

/-! ### Forms of expressions -/

/-- What stands in the places of operands in the form of an expression. -/
def Operand.blank : Operand := .bool false

def StringSource.form : StringSource → StringSource
  | runTime _ => runTime .blank
  | s => s

/-- An expression without its operands: two expressions of the same form differ in operands only. -/
def Expr.form : Expr → Expr
  | binary op _ _ => binary op .blank .blank
  | unary op _ => unary op .blank
  | array type values => array type (values.map fun _ => .blank)
  | constArray type values => constArray type (values.map fun _ => .blank)
  | struct values => struct (values.map fun _ => .blank)
  | var _ => var 0
  | getRef _ => getRef .blank
  | load _ => load .blank
  | structMember _ member => structMember .blank member
  | subscript _ _ => subscript .blank .blank
  | advancePointer _ _ => advancePointer .blank .blank
  | cast _ type => cast .blank type
  | bytesCast _ type => bytesCast .blank type
  | widthChange change _ type => widthChange change .blank type
  | allocDynamicBytes type _ contents => allocDynamicBytes type .blank contents
  | keccak256 args => keccak256 (args.map fun _ => .blank)
  | stringCompare left right => stringCompare left.form right.form
  | stringConcat left right => stringConcat left.form right.form
  | storageArrayLength _ => storageArrayLength .blank
  | formatString args => formatString (args.map fun a => (a.1, .blank))
  | e => e

/-! ### Interpretations -/

/-- How something ends: with a value and the machine state after it, or with the end of the run. -/
inductive Outcome (State Halt α : Type)
  | next (value : α) (state : State)
  | halt (reason : Halt) (state : State)

namespace Outcome

variable {State Halt α β : Type}

def map (h : α → β) : Outcome State Halt α → Outcome State Halt β
  | next value state => next (h value) state
  | halt reason state => halt reason state

/-- The outcome is the answer: its value in an unchanged state, or the end of the run for a trap. -/
def Gives (o : Outcome State Halt α) (const : Const → α) (m : State) : Answer → Prop
  | .value c => o = next (const c) m
  | .trap => ∃ reason m', o = halt reason m'

end Outcome

/-- An interpretation of the instructions that hashes bytes with `H`.  Operators, hashes, strings and
buffers that are known when the code is compiled mean what they should; nothing is said of the
rest. -/
structure Interp (H : Bytes → Bytes) where
  Value : Type
  State : Type
  Halt : Type
  const : Const → Value
  /-- the value of an operand of unknown kind -/
  foreign : String → Value
  /-- a new buffer with the given contents -/
  fresh : Bytes → State → Outcome State Halt Value
  /-- the form of an expression on the values of its operands -/
  expr : Expr → List Value → State → Outcome State Halt Value
  /-- an instruction other than a `set`, on the values of its operands; it gives the values of the
  variables that it defines -/
  instr : Instr → List Value → State → Outcome State Halt (List Value)
  /-- the block to which a terminator passes control -/
  control : Terminator → List Value → State → Outcome State Halt BlockId
  expr_literal : ∀ (l : Literal) m, expr (.literal l) [] m = .next (const l.denote) m
  expr_binary : ∀ (op : BinaryOp) a b answer, op.meaning a b = some answer → ∀ m,
    (expr (.binary op .blank .blank) [const a, const b] m).Gives const m answer
  expr_unary : ∀ (op : UnaryOp) a answer, op.meaning a = some answer → ∀ m,
    (expr (.unary op .blank) [const a] m).Gives const m answer
  expr_widthChange : ∀ (change : WidthChange) type a answer,
    change.meaning type a = some answer → ∀ m,
      (expr (.widthChange change .blank type) [const a] m).Gives const m answer
  /-- the bytes of the arguments are hashed one after the other -/
  expr_keccak256 : ∀ (args : List Const) (bytes : List Bytes),
    args.mapM Const.encoding = some bytes → ∀ m,
      expr (.keccak256 (args.map fun _ => .blank)) (args.map const) m =
        expr (.bytes (.byteArray 32) (H bytes.flatten)) [] m
  expr_stringCompare : ∀ (left right : Bytes) m,
    expr (.stringCompare (.compileTime left) (.compileTime right)) [] m =
      .next (const (.truth (left = right))) m
  expr_stringConcat : ∀ (left right : Bytes) m,
    expr (.stringConcat (.compileTime left) (.compileTime right)) [] m = fresh (left ++ right) m
  /-- a buffer of as many bytes as it is initialised with -/
  expr_alloc : ∀ (contents : Bytes) m,
    expr (.allocDynamicBytes .dynamicBytes .blank (some contents))
      [const (.word ⟨false, 32⟩ (BitVec.ofNat 32 contents.length))] m = fresh contents m

namespace Plain

/-- Values of a plain interpretation: constants, bytes, and buffers by number. -/
inductive Value
  | const (c : Const)
  | bytes (contents : Bytes)
  | buffer (number : Nat)

abbrev Result := Outcome (List Bytes) Unit

def const? : Value → Option Const
  | .const c => some c
  | _ => none

/-- A new buffer at the end of those there are. -/
def fresh (contents : Bytes) (m : List Bytes) : Result Value :=
  .next (.buffer m.length) (m ++ [contents])

def answer (m : List Bytes) : Option Answer → Result Value
  | some (.value c) => .next (.const c) m
  | _ => .halt () m

variable (H : Bytes → Bytes)

def hash (m : List Bytes) (args : List Value) : Result Value :=
  match (args.mapM const?).bind fun cs => cs.mapM Const.encoding with
  | some chunks => .next (.bytes (H chunks.flatten)) m
  | none => .halt () m

def expr : Expr → List Value → List Bytes → Result Value
  | .literal l, _, m => .next (.const l.denote) m
  | .bytes _ contents, _, m => .next (.bytes contents) m
  | .binary op _ _, [.const a, .const b], m => answer m (op.meaning a b)
  | .unary op _, [.const a], m => answer m (op.meaning a)
  | .widthChange change _ type, [.const a], m => answer m (change.meaning type a)
  | .keccak256 _, args, m => hash H m args
  | .stringCompare (.compileTime left) (.compileTime right), _, m =>
    .next (.const (.truth (left = right))) m
  | .stringConcat (.compileTime left) (.compileTime right), _, m => fresh (left ++ right) m
  | .allocDynamicBytes _ _ (some contents), _, m => fresh contents m
  | _, _, m => .halt () m

def control : Terminator → List Value → List Bytes → Result BlockId
  | .branch block, _, m => .next block m
  | .branchCond _ trueBlock falseBlock, [.const (.truth c)], m =>
    .next (if c then trueBlock else falseBlock) m
  | _, _, m => .halt () m

theorem answer_gives {r : Option Answer} {a : Answer} (h : r = some a) (m : List Bytes) :
    (answer m r).Gives Value.const m a := by
  subst h
  cases a with
  | value c => rfl
  | trap => exact ⟨(), m, rfl⟩

theorem mapM_const? (cs : List Const) : (cs.map Value.const).mapM const? = some cs := by
  induction cs with
  | nil => rfl
  | cons c cs ih => simp [ih, const?]

end Plain

/-- An interpretation in which everything without a reference meaning ends the run, except that
control follows branches. -/
def Interp.plain (H : Bytes → Bytes) : Interp H where
  Value := Plain.Value
  State := List Bytes
  Halt := Unit
  const := .const
  foreign _ := .bytes []
  fresh := Plain.fresh
  expr := Plain.expr H
  instr _ _ m := .halt () m
  control := Plain.control
  expr_literal _ _ := rfl
  expr_binary _ _ _ _ h m := Plain.answer_gives h m
  expr_unary _ _ _ h m := Plain.answer_gives h m
  expr_widthChange _ _ _ _ h m := Plain.answer_gives h m
  expr_keccak256 args chunks h m := by
    simp only [Plain.expr, Plain.hash, Plain.mapM_const?, Option.bind_some, h]
  expr_stringCompare _ _ _ := rfl
  expr_stringConcat _ _ _ := rfl
  expr_alloc _ _ := rfl

/-! ### Runs -/

/-- The instruction at a position, if there is one. -/
def Func.instr? (f : Func) (id : BlockId) (index : Nat) : Option Instr :=
  (f.blocks.get? id).bind fun b => b.instructions[index]?

/-- Why a run cannot go on. -/
inductive Fault
  | unassigned (id : VarId)
  /-- no block, no instruction, or no input of a phi for the way that control came -/
  | stuck
deriving DecidableEq

namespace Interp

variable {H : Bytes → Bytes} (I : Interp H)

/-- The values of the variables that have one. -/
abbrev Env := VarId → Option I.Value

/-- Control position, environment and machine state. -/
structure Config where
  block : BlockId
  index : Nat
  env : I.Env
  state : I.State

/-- How far a run has come. -/
inductive Status
  | running (c : I.Config)
  /-- the run ended in the configuration `c` -/
  | halted (reason : I.Halt) (c : I.Config)

variable {I}

/-- The environment after variables were given values. -/
def Env.assign (env : I.Env) (values : List (VarId × I.Value)) : I.Env :=
  fun v => (values.lookup v).or (env v)

def read (env : I.Env) : Operand → Except Fault I.Value
  | .var id =>
    match env id with
    | some x => .ok x
    | none => .error (.unassigned id)
  | .literal l => .ok (I.const l.denote)
  | .unknown kind => .ok (I.foreign kind)

def eval (env : I.Env) (m : I.State) (e : Expr) :
    Except Fault (Outcome I.State I.Halt I.Value) := do
  return I.expr e.form (← e.operands.mapM (read env)) m

variable (I) in
/-- An instruction inside a block on the values of its operands: what it gives for the variables
that it defines. -/
def act (m : I.State) (xs : List I.Value) : Instr → Outcome I.State I.Halt (List I.Value)
  | .set _ e => (I.expr e.form xs m).map fun x => [x]
  | i => I.instr i xs m

def effect (env : I.Env) (m : I.State) (i : Instr) :
    Except Fault (Outcome I.State I.Halt (List I.Value)) := do
  return I.act m (← i.operands.mapM (read env)) i

/-- How an instruction that defines the variables `ids` leaves the run. -/
def Config.proceed (c : I.Config) (ids : List VarId) :
    Outcome I.State I.Halt (List I.Value) → I.Status
  | .next xs m => .running ⟨c.block, c.index + 1, c.env.assign (ids.zip xs), m⟩
  | .halt reason m => .halted reason { c with state := m }

/-- The value that a phi takes when control comes from `source`. -/
def merge (env : I.Env) (source : Option BlockId) (inputs : List PhiInput) :
    Except Fault I.Value :=
  match inputs.find? fun input => some input.block = source with
  | some input => read env input.operand
  | none => .error .stuck

variable (I)

/-- Control enters a block.  Its phis all read the environment from before. -/
def enter (f : Func) (source : Option BlockId) (target : BlockId) (env : I.Env) (m : I.State) :
    Except Fault I.Status :=
  match f.blocks.get? target with
  | none => .error .stuck
  | some b => do
    let values ← b.phis.mapM fun (result, inputs) => do return (result, ← merge env source inputs)
    return .running ⟨target, b.phis.length, env.assign values, m⟩

/-- Executes the instruction at the control position. -/
def perform (f : Func) (c : I.Config) : Instr → Except Fault I.Status
  | .phi _ _ => .error .stuck
  | .terminate t => do
    match I.control t (← t.operands.mapM (read c.env)) c.state with
    | .next target m => I.enter f (some c.block) target c.env m
    | .halt reason m => return .halted reason { c with state := m }
  | i => do return c.proceed i.definitions (← effect c.env c.state i)

/-- One step of a run. -/
def step (f : Func) (c : I.Config) : Except Fault I.Status :=
  match f.instr? c.block c.index with
  | none => .error .stuck
  | some i => I.perform f c i

/-- The run of the function from machine state `m`, after `n` steps; a run that has ended stays as
it is. -/
def run (f : Func) (m : I.State) : Nat → Except Fault I.Status
  | 0 => I.enter f none f.entry (fun _ => none) m
  | n + 1 => do
    match ← run f m n with
    | .running c => I.step f c
    | .halted reason c => return .halted reason c

end Interp

end ContractIR
