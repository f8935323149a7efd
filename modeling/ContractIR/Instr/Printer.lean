import ContractIR.Expr.Printer
import ContractIR.Instr

/-!
# ContractIR.Instr.Printer — the text of an instruction

One line, ended by a semicolon.  Optional parts that are absent keep their place as a bare `_`.
-/

namespace ContractIR

namespace CallTarget

/-- What is called. -/
def text : CallTarget → Except Diagnostic String
  | static function => .ok (funcText function)
  | builtin number => .ok ("builtin#" ++ Decimal.intText number)
  | dynamic callee => callee.text
  | unknown kind => .error (.unexpectedKind kind)

end CallTarget

namespace CallType

/-- The context of an external call. -/
def text : CallType → String
  | regular => "regular"
  | delegate => "delegate"
  | static => "static"

end CallType

namespace ReturnCode

/-- A status in words. -/
def text : ReturnCode → String
  | success => "success"
  | functionSelectorInvalid => "function selector invalid"
  | abiEncodingInvalid => "abi encoding invalid"
  | invalidDataError => "invalid data error"
  | accountDataTooSmall => "account data too small"
  | invalidProgramId => "invalid program id"

end ReturnCode

/-- The variables that an instruction sets, with an equals sign behind them if there are any. -/
def resultsText (results : List VarId) : String :=
  if results.isEmpty then "" else ", ".intercalate (results.map varText) ++ " = "

/-- An operand, or the mark of its absence. -/
def optionalText : Option Operand → Except Diagnostic String
  | none => .ok "_"
  | some operand => operand.text

/-- An operand behind a label, or the mark of its absence. -/
def labelledText (label : String) : Option Operand → Except Diagnostic String
  | none => .ok "_"
  | some operand => do return label ++ ":" ++ (← operand.text)

namespace ContractFunction

/-- The function of a contract that a call was resolved against, or the mark of its absence. -/
def optionalText : Option ContractFunction → String
  | none => "_"
  | some f => "contract_function:(" ++ Decimal.intText f.contract ++ ", " ++
      Decimal.intText f.function ++ ")"

end ContractFunction

namespace ExternalCall

/-- The text of an external call. -/
def text (c : ExternalCall) : Except Diagnostic String := do
  let address ← labelledText "address" c.address
  let payload ← c.payload.text
  let value ← c.value.text
  let gas ← c.gas.text
  let accounts ← labelledText "accounts" c.accounts
  let seeds ← labelledText "seeds" c.seeds
  let flags ← labelledText "flags" c.flags
  let slots := ["[" ++ c.callType.text ++ "]", address, "payload:" ++ payload, "value:" ++ value,
    "gas:" ++ gas, accounts, seeds, ContractFunction.optionalText c.contractFunction, flags]
  return resultsText c.success.toList ++ "call_ext " ++ " ".intercalate slots ++ ";"

end ExternalCall

namespace Creation

/-- The text of the creation of a contract. -/
def text (c : Creation) : Except Diagnostic String := do
  let salt ← labelledText "salt" c.salt
  let value ← labelledText "value" c.value
  let gas ← c.gas.text
  let address ← labelledText "address" c.address
  let seeds ← labelledText "seeds" c.seeds
  let encodedArgs ← c.encodedArgs.text
  let accounts ← labelledText "accounts" c.accounts
  let number := (c.constructorId.map Decimal.intText).getD "_"
  let contract := Decimal.intText c.contractId
  let slots := ["constructor(no: " ++ number ++ ", contract_no:" ++ contract ++ ")", salt,
    value, "gas:" ++ gas, address, seeds, "encoded-buffer:" ++ encodedArgs, accounts]
  return resultsText (c.result :: c.success.toList) ++ " ".intercalate slots ++ ";"

end Creation

namespace Terminator

/-- One case of a switch. -/
def caseText (c : Operand × BlockId) : Except Diagnostic String := do
  return (← c.1.text) ++ " => " ++ blockText c.2

/-- The text of a terminator; the cases of a switch are printed before its condition. -/
def text : Terminator → Except Diagnostic String
  | branch block => .ok ("br " ++ blockText block ++ ";")
  | branchCond condition trueBlock falseBlock => do
    return "cbr " ++ (← condition.text) ++ " " ++ blockText trueBlock ++ " else " ++
      blockText falseBlock ++ ";"
  | switch condition cases defaultBlock => do
    let cs ← cases.mapM caseText
    let c ← condition.text
    return "switch " ++ c ++ " cases: [" ++ ", ".intercalate cs ++ "] default: " ++
      blockText defaultBlock ++ ";"
  | ret values =>
    if values.isEmpty then .ok "return;"
    else do return "return " ++ (← Operand.listText values) ++ ";"
  | returnData data length => do
    let d ← data.text
    let l ← length.text
    return "return_data " ++ d ++ " of length " ++ l ++ ";"
  | returnCode code => .ok ("return_code \"" ++ code.text ++ "\";")
  | assertFailure none => .ok "assert_failure;"
  | assertFailure (some encodedArgs) => do
    return "assert_failure " ++ (← encodedArgs.text) ++ ";"
  | unimplemented reachable =>
    .ok (if reachable then "unimplemented: reachable;" else "unimplemented: unreachable;")

end Terminator

namespace PhiInput

/-- An input of a phi. -/
def text (input : PhiInput) : Except Diagnostic String := do
  return "[" ++ (← input.operand.text) ++ ", " ++ blockText input.block ++ "]"

end PhiInput

namespace Instr

/-- The text of an instruction, printed at the given location. -/
def text (location : Location) : Instr → Except Diagnostic String
  | nop => .ok "nop;"
  | set result expr => do return varText result ++ " = " ++ (← expr.text location) ++ ";"
  | store dest data => do
    let d ← data.text
    let p ← dest.text
    return "store " ++ d ++ " to " ++ p ++ ";"
  | loadStorage result storage => do
    return varText result ++ " = load_storage " ++ (← storage.text) ++ ";"
  | clearStorage storage => do return "clear_storage " ++ (← storage.text) ++ ";"
  | setStorage storage value => do
    let s ← storage.text
    let v ← value.text
    return "set_storage " ++ s ++ " " ++ v ++ ";"
  | setStorageBytes storage offset value => do
    let s ← storage.text
    let o ← offset.text
    let v ← value.text
    return "set_storage_bytes " ++ s ++ " offset:" ++ o ++ " value:" ++ v ++ ";"
  | pushStorage result storage value => do
    let s ← storage.text
    let v ← optionalText value
    return varText result ++ " = push_storage " ++ s ++ " " ++ v ++ ";"
  | popStorage result storage => do
    return resultsText result.toList ++ "pop_storage " ++ (← storage.text) ++ ";"
  | pushMemory result array value => do
    return varText result ++ " = push_mem " ++ varText array ++ " " ++ (← value.text) ++ ";"
  | popMemory result array => .ok (varText result ++ " = pop_mem " ++ varText array ++ ";")
  | memCopy source dest bytes => do
    let s ← source.text
    let d ← dest.text
    let n ← bytes.text
    return "memcopy " ++ s ++ " to " ++ d ++ " for " ++ n ++ " bytes;"
  | writeBuffer buffer offset value => do
    let b ← buffer.text
    let o ← offset.text
    let v ← value.text
    return "write_buf " ++ b ++ " offset:" ++ o ++ " value:" ++ v ++ ";"
  | print operand => do return "print " ++ (← operand.text) ++ ";"
  | emitEvent event topics data => do
    let ts ← Operand.listText topics
    let d ← data.text
    return "emit event#" ++ Decimal.intText event ++ " to topics[" ++ ts ++ "], data: " ++ d ++ ";"
  | call results callee args => do
    let c ← callee.text
    let vs ← Operand.listText args
    return resultsText results ++ "call " ++ c ++ "(" ++ vs ++ ");"
  | externalCall c => c.text
  | create c => c.text
  | valueTransfer success address value => do
    let v ← value.text
    let a ← address.text
    return resultsText success.toList ++ "transfer " ++ v ++ " to " ++ a ++ ";"
  | selfDestruct recipient => do return "self_destruct " ++ (← recipient.text) ++ ";"
  | terminate terminator => terminator.text
  | phi result inputs => do
    return varText result ++ " = phi " ++ ", ".intercalate (← inputs.mapM PhiInput.text) ++ ";"
  | unknown kind => .error (.unexpectedKind kind)

end Instr

end ContractIR
