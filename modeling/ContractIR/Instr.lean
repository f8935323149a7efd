import ContractIR.Expr

/-!
# ContractIR.Instr — instructions

An instruction is a phi, a straight-line instruction or a terminator.  The names of the kinds
(`Instr.kind`) are the ones that diagnostics use.
-/

namespace ContractIR

/-- What a call transfers control to. -/
inductive CallTarget
  | static (function : FuncId)
  | dynamic (callee : Operand)
  | builtin (number : Int)
  | unknown (kind : String)
deriving DecidableEq, Inhabited

/-- In whose context an external call runs. -/
inductive CallType
  | regular
  | delegate
  | static
deriving DecidableEq, Inhabited

/-- The function of a contract that an external call was resolved against. -/
structure ContractFunction where
  contract : Int
  function : FuncId
deriving DecidableEq, Inhabited

/-- A call to another contract; `success` is set to whether it succeeded. -/
structure ExternalCall where
  success : Option VarId := none
  address : Option Operand := none
  accounts : Option Operand := none
  seeds : Option Operand := none
  payload : Operand
  value : Operand
  gas : Operand
  callType : CallType
  contractFunction : Option ContractFunction := none
  flags : Option Operand := none
deriving DecidableEq, Inhabited

/-- The creation of a contract; `result` is set to its address. -/
structure Creation where
  success : Option VarId := none
  result : VarId
  contractId : Int
  constructorId : Option Int := none
  encodedArgs : Operand
  value : Option Operand := none
  gas : Operand
  salt : Option Operand := none
  address : Option Operand := none
  seeds : Option Operand := none
  accounts : Option Operand := none
deriving DecidableEq, Inhabited

/-- The statuses with which a program can end. -/
inductive ReturnCode
  | success
  | functionSelectorInvalid
  | abiEncodingInvalid
  | invalidDataError
  | accountDataTooSmall
  | invalidProgramId
deriving DecidableEq, Inhabited

/-- An instruction that ends a block. -/
inductive Terminator
  | branch (block : BlockId)
  | branchCond (condition : Operand) (trueBlock falseBlock : BlockId)
  | switch (condition : Operand) (cases : List (Operand × BlockId)) (defaultBlock : BlockId)
  | ret (values : List Operand)
  | returnData (data length : Operand)
  | returnCode (code : ReturnCode)
  | assertFailure (encodedArgs : Option Operand)
  /-- stands for a construct that is not lowered yet -/
  | unimplemented (reachable : Bool)
deriving DecidableEq, Inhabited

namespace Terminator

/-- The name of the terminator's kind. -/
def kind : Terminator → String
  | branch _ => "branch"
  | branchCond _ _ _ => "branch_cond"
  | switch _ _ _ => "switch"
  | ret _ => "return"
  | returnData _ _ => "return_data"
  | returnCode _ => "return_code"
  | assertFailure _ => "assert_failure"
  | unimplemented _ => "unimplemented"

/-- The operands that the terminator reads, in the order of its parts. -/
def operands : Terminator → List Operand
  | branch _ | returnCode _ | unimplemented _ => []
  | branchCond condition _ _ => [condition]
  | switch condition cases _ => condition :: cases.map Prod.fst
  | ret values => values
  | returnData data length => [data, length]
  | assertFailure encodedArgs => encodedArgs.toList

/-- The blocks to which control may go, in the order of the terminator's parts. -/
def successors : Terminator → List BlockId
  | branch block => [block]
  | branchCond _ trueBlock falseBlock => [trueBlock, falseBlock]
  | switch _ cases defaultBlock => cases.map Prod.snd ++ [defaultBlock]
  | _ => []

end Terminator

/-- One instruction of a block. -/
inductive Instr
  | nop
  | set (result : VarId) (expr : Expr)
  | store (dest data : Operand)
  | loadStorage (result : VarId) (storage : Operand)
  | clearStorage (storage : Operand)
  | setStorage (storage value : Operand)
  | setStorageBytes (storage offset value : Operand)
  | pushStorage (result : VarId) (storage : Operand) (value : Option Operand)
  | popStorage (result : Option VarId) (storage : Operand)
  | pushMemory (result array : VarId) (value : Operand)
  | popMemory (result array : VarId)
  | memCopy (source dest bytes : Operand)
  | writeBuffer (buffer offset value : Operand)
  | print (operand : Operand)
  | emitEvent (event : Int) (topics : List Operand) (data : Operand)
  | call (results : List VarId) (callee : CallTarget) (args : List Operand)
  | externalCall (call : ExternalCall)
  | create (creation : Creation)
  | valueTransfer (success : Option VarId) (address value : Operand)
  | selfDestruct (recipient : Operand)
  | terminate (terminator : Terminator)
  /-- chooses by the block that control came from; all phis of a block read at the same time -/
  | phi (result : VarId) (inputs : List PhiInput)
  | unknown (kind : String)
deriving DecidableEq, Inhabited

namespace Instr

/-- The name of the instruction's kind. -/
def kind : Instr → String
  | nop => "nop"
  | set _ _ => "set"
  | store _ _ => "store"
  | loadStorage _ _ => "load_storage"
  | clearStorage _ => "clear_storage"
  | setStorage _ _ => "set_storage"
  | setStorageBytes _ _ _ => "set_storage_bytes"
  | pushStorage _ _ _ => "push_storage"
  | popStorage _ _ => "pop_storage"
  | pushMemory _ _ _ => "push_memory"
  | popMemory _ _ => "pop_memory"
  | memCopy _ _ _ => "mem_copy"
  | writeBuffer _ _ _ => "write_buffer"
  | print _ => "print"
  | emitEvent _ _ _ => "emit_event"
  | call _ _ _ => "call"
  | externalCall _ => "external_call"
  | create _ => "constructor"
  | valueTransfer _ _ _ => "value_transfer"
  | selfDestruct _ => "self_destruct"
  | terminate terminator => terminator.kind
  | phi _ _ => "phi"
  | unknown kind => kind

/-- Whether the instruction is a phi. -/
def isPhi : Instr → Bool
  | phi _ _ => true
  | _ => false

/-- The terminator that the instruction is, if it is one. -/
def terminator? : Instr → Option Terminator
  | terminate terminator => some terminator
  | _ => none

/-- Whether the instruction ends a block. -/
def isTerminator (i : Instr) : Bool := i.terminator?.isSome

/-- The variables that the instruction defines. -/
def definitions : Instr → List VarId
  | set result _ | loadStorage result _ | pushStorage result _ _ | pushMemory result _ _
  | popMemory result _ | phi result _ => [result]
  | popStorage result _ => result.toList
  | call results _ _ => results
  | externalCall c => c.success.toList
  | create c => c.result :: c.success.toList
  | valueTransfer success _ _ => success.toList
  | _ => []

/-- The operands that the instruction reads, in the order of its parts. -/
def operands : Instr → List Operand
  | nop | unknown _ => []
  | set _ expr => expr.operands
  | store dest data => [dest, data]
  | loadStorage _ storage | clearStorage storage | popStorage _ storage => [storage]
  | setStorage storage value => [storage, value]
  | setStorageBytes storage offset value => [storage, offset, value]
  | pushStorage _ storage value => storage :: value.toList
  | pushMemory _ array value => [.var array, value]
  | popMemory _ array => [.var array]
  | memCopy source dest bytes => [source, dest, bytes]
  | writeBuffer buffer offset value => [buffer, offset, value]
  | print operand => [operand]
  | emitEvent _ topics data => topics ++ [data]
  | call _ (.dynamic callee) args => callee :: args
  | call _ _ args => args
  | externalCall c =>
    c.address.toList ++ [c.payload, c.value, c.gas] ++ c.accounts.toList ++ c.seeds.toList ++
      c.flags.toList
  | create c =>
    c.salt.toList ++ c.value.toList ++ [c.gas] ++ c.address.toList ++ c.seeds.toList ++
      [c.encodedArgs] ++ c.accounts.toList
  | valueTransfer _ address value => [value, address]
  | selfDestruct recipient => [recipient]
  | terminate terminator => terminator.operands
  | phi _ inputs => inputs.map PhiInput.operand

/-- The variables that the instruction reads. -/
def uses (i : Instr) : List VarId := i.operands.filterMap Operand.var?

/-- The blocks to which control may go after the instruction; none unless it ends a block. -/
def successors (i : Instr) : List BlockId := (i.terminator?.map Terminator.successors).getD []

end Instr

end ContractIR
