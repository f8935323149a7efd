import ContractIR.Expr
import ContractIR.Ty.Printer

/-!
# ContractIR.Expr.Printer — the text of operands and expressions

The parts of a node are printed in reading order, and the first failure is the one that is
reported. A buffer can be printed only if its type is a pointer; that failure carries the location
at which the printer stands.
-/

namespace ContractIR

/-- A variable by its number. -/
def varText (id : VarId) : String := "%" ++ Decimal.intText id

/-- A block by its number. -/
def blockText (id : BlockId) : String := "block#" ++ Decimal.intText id

/-- A function by its number. -/
def funcText (id : FuncId) : String := "function#" ++ Decimal.intText id

/-- A truth value. -/
def boolText (value : Bool) : String := if value then "true" else "false"

namespace Literal

/-- A number with its type, or a truth value. -/
def text : Literal → Except Diagnostic String
  | number type value => do return (← type.text) ++ "(" ++ toString value ++ ")"
  | bool value => .ok (boolText value)

end Literal

namespace Operand

/-- A variable or a literal. -/
def text : Operand → Except Diagnostic String
  | var id => .ok (varText id)
  | literal value => value.text
  | unknown kind => .error (.unexpectedKind kind)

/-- Operands separated by commas. -/
def listText (operands : List Operand) : Except Diagnostic String := do
  return ", ".intercalate (← operands.mapM text)

end Operand

namespace StringSource

/-- The bytes in decimal if they are known, else the operand. -/
def text : StringSource → Except Diagnostic String
  | compileTime bytes => .ok ("\"[" ++ ", ".intercalate (bytes.map toString) ++ "]\"")
  | runTime operand => operand.text
  | unknown kind => .error (.unexpectedKind kind)

end StringSource

namespace BinaryOp

/-- An operator, with a mark in front if it traps on overflow. -/
def overflowText (overflowing : Bool) (symbol : String) : String :=
  if overflowing then "(of)" ++ symbol else symbol

/-- The symbol of an operator; signed and unsigned operators are marked in front. -/
def text : BinaryOp → Except Diagnostic String
  | add overflowing => .ok (overflowText overflowing "+")
  | sub overflowing => .ok (overflowText overflowing "-")
  | mul overflowing => .ok (overflowText overflowing "*")
  | pow overflowing => .ok (overflowText overflowing "**")
  | udiv => .ok "(u)/"
  | sdiv => .ok "(s)/"
  | umod => .ok "(u)%"
  | smod => .ok "(s)%"
  | eq => .ok "=="
  | neq => .ok "!="
  | slt => .ok "(s)<"
  | ult => .ok "(u)<"
  | slte => .ok "(s)<="
  | ulte => .ok "(u)<="
  | sgt => .ok "(s)>"
  | ugt => .ok "(u)>"
  | sgte => .ok "(s)>="
  | ugte => .ok "(u)>="
  | bitAnd => .ok "&"
  | bitOr => .ok "|"
  | bitXor => .ok "^"
  | shl => .ok "<<"
  | sshr => .ok "(s)>>"
  | ushr => .ok "(u)>>"
  | unknown kind => .error (.unexpectedKind kind)

end BinaryOp

namespace UnaryOp

/-- The symbol of an operator, which stands before its operand. -/
def text : UnaryOp → Except Diagnostic String
  | not => .ok "!"
  | neg overflowing => .ok (BinaryOp.overflowText overflowing "-")
  | bitNot => .ok "~"
  | unknown kind => .error (.unexpectedKind kind)

end UnaryOp

namespace WidthChange

/-- The word that opens the conversion. -/
def text : WidthChange → String
  | signExt => "sext"
  | zeroExt => "zext"
  | trunc => "trunc"

end WidthChange

namespace FormatSpec

/-- The text of an argument, with the mark of its format in front. -/
def apply : FormatSpec → String → Except Diagnostic String
  | default, argument => .ok argument
  | binary, argument => .ok (":b " ++ argument)
  | hex, argument => .ok (":x " ++ argument)
  | unknown name, _ => .error (.unexpected name)

end FormatSpec

namespace Expr

/-- The error for a buffer whose type, given by its text, is no pointer. -/
def allocFailure (typeText : String) (location : Location) : Diagnostic :=
  .irError .unsupportedPrint
    (some ("alloc_dynamic_bytes of non-pointer type " ++ typeText)) (some location)

/-- The text of a new buffer. -/
def allocText (location : Location) (type : Ty) (size : Operand) (contents : Option Bytes) :
    Except Diagnostic String := do
  match type with
  | .ptr pointee =>
    let element ← pointee.text
    let count ← size.text
    let alloc := "alloc " ++ element ++ "[" ++ count ++ "]"
    match contents with
    | none => return alloc
    | some initial =>
      return alloc ++ " \x7b" ++ ", ".intercalate (initial.map Bytes.hexByte) ++ "\x7d"
  | type => throw (allocFailure (← type.text) location)

/-- The text of an argument of a formatted string; the operand is printed before its format is
looked at. -/
def formatArgText (arg : FormatSpec × Operand) : Except Diagnostic String := do
  arg.1.apply (← arg.2.text)

/-- The text of an expression, printed at the given location. -/
def text (location : Location) : Expr → Except Diagnostic String
  | binary op left right => do
    let l ← left.text
    let o ← op.text
    let r ← right.text
    return l ++ " " ++ o ++ " " ++ r
  | unary op operand => do
    let o ← op.text
    let x ← operand.text
    return o ++ x
  | literal value => value.text
  | bytes type value => do
    return (← type.text) ++ " hex\"" ++ "_".intercalate (value.map Bytes.hexByte) ++ "\""
  | array type values => do
    let t ← type.text
    let vs ← Operand.listText values
    return t ++ " [" ++ vs ++ "]"
  | constArray type values => do
    let t ← type.text
    let vs ← Operand.listText values
    return "const " ++ t ++ " [" ++ vs ++ "]"
  | struct values => do return "struct \x7b " ++ (← Operand.listText values) ++ " \x7d"
  | var id => .ok (varText id)
  | getRef operand => do return "&" ++ (← operand.text)
  | load operand => do return "*" ++ (← operand.text)
  | structMember operand member => do return (← operand.text) ++ "->" ++ Decimal.intText member
  | subscript base index => do
    let b ← base.text
    let i ← index.text
    return b ++ "[" ++ i ++ "]"
  | advancePointer pointer offset => do
    let p ← pointer.text
    let o ← offset.text
    return "ptr_add(" ++ p ++ ", " ++ o ++ ")"
  | cast operand type => do
    let x ← operand.text
    let t ← type.text
    return "(cast " ++ x ++ " as " ++ t ++ ")"
  | bytesCast operand type => do
    let x ← operand.text
    let t ← type.text
    return "(cast_bytes " ++ x ++ " as " ++ t ++ ")"
  | widthChange change operand type => do
    let x ← operand.text
    let t ← type.text
    return "(" ++ change.text ++ " " ++ x ++ " to " ++ t ++ ")"
  | allocDynamicBytes type size contents => allocText location type size contents
  | keccak256 args => do return "keccak256(" ++ (← Operand.listText args) ++ ")"
  | stringCompare left right => do
    let l ← left.text
    let r ← right.text
    return "strcmp(" ++ l ++ ", " ++ r ++ ")"
  | stringConcat left right => do
    let l ← left.text
    let r ← right.text
    return "strcat(" ++ l ++ ", " ++ r ++ ")"
  | storageArrayLength base => do return "storage_arr_len(" ++ (← base.text) ++ ")"
  | formatString args => do return "fmt_str(" ++ ", ".intercalate (← args.mapM formatArgText) ++ ")"
  | functionArg index => .ok ("arg#" ++ Decimal.intText index)
  | internalFunction function => .ok (funcText function)
  | returnData => .ok "(extern_call_ret_data)"
  | unknown kind => .error (.unexpectedKind kind)

end Expr

end ContractIR
