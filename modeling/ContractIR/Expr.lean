import ContractIR.Operand

/-!
# ContractIR.Expr — expressions

An expression computes the value that a variable is set to.  Its operands are variables and
literals, never other expressions.
-/

namespace ContractIR

/-- Operators on two operands.  An operator marked as overflowing traps when its exact result is out
of range; otherwise the result wraps around. -/
inductive BinaryOp
  | add (overflowing : Bool)
  | sub (overflowing : Bool)
  | mul (overflowing : Bool)
  | pow (overflowing : Bool)
  | udiv
  | sdiv
  | umod
  | smod
  | eq
  | neq
  | slt
  | ult
  | slte
  | ulte
  | sgt
  | ugt
  | sgte
  | ugte
  | bitAnd
  | bitOr
  | bitXor
  | shl
  /-- shift to the right that keeps the sign -/
  | sshr
  /-- shift to the right that fills with zeros -/
  | ushr
  | unknown (kind : String)
deriving DecidableEq, Inhabited

/-- Operators on one operand. -/
inductive UnaryOp
  | not
  | neg (overflowing : Bool)
  | bitNot
  | unknown (kind : String)
deriving DecidableEq, Inhabited

/-- How a formatted argument is written. -/
inductive FormatSpec
  | default
  | binary
  | hex
  | unknown (name : String)
deriving DecidableEq, Inhabited

/-- How the value of an operand is carried over to an integer type of another width. -/
inductive WidthChange
  | signExt
  | zeroExt
  /-- keeps the low bits; the lowering of checked conversions guards it -/
  | trunc
deriving DecidableEq, Inhabited

/-- What a variable can be set to. -/
inductive Expr
  | binary (op : BinaryOp) (left right : Operand)
  | unary (op : UnaryOp) (operand : Operand)
  | literal (value : Literal)
  | bytes (type : Ty) (value : Bytes)
  /-- an array put together when the code runs -/
  | array (type : Ty) (values : List Operand)
  /-- an array of constants, which can be placed in static data -/
  | constArray (type : Ty) (values : List Operand)
  | struct (values : List Operand)
  | var (id : VarId)
  /-- the address of an operand -/
  | getRef (operand : Operand)
  | load (operand : Operand)
  | structMember (operand : Operand) (member : Int)
  | subscript (array index : Operand)
  /-- pointer arithmetic, with an offset in bytes -/
  | advancePointer (pointer offset : Operand)
  | cast (operand : Operand) (type : Ty)
  /-- between bytes of fixed and of dynamic size, which changes the representation -/
  | bytesCast (operand : Operand) (type : Ty)
  | widthChange (change : WidthChange) (operand : Operand) (type : Ty)
  /-- a new buffer; `type` is a pointer to what it holds, and `contents` are copied into it -/
  | allocDynamicBytes (type : Ty) (size : Operand) (contents : Option Bytes)
  | keccak256 (args : List Operand)
  | stringCompare (left right : StringSource)
  | stringConcat (left right : StringSource)
  | storageArrayLength (array : Operand)
  | formatString (args : List (FormatSpec × Operand))
  | functionArg (index : Int)
  /-- another function as a value -/
  | internalFunction (function : FuncId)
  /-- what the most recent external call returned -/
  | returnData
  | unknown (kind : String)
deriving DecidableEq, Inhabited

namespace Expr

/-- The number literal of the given type and value. -/
@[match_pattern]
abbrev number (type : Ty) (value : Int) : Expr := .literal (.number type value)

/-- The truth value `value`. -/
@[match_pattern]
abbrev bool (value : Bool) : Expr := .literal (.bool value)

/-- The literal that the expression is, if it is one. -/
def literal? : Expr → Option Literal
  | literal value => some value
  | _ => none

/-- Every operand that the expression reads, in the order of its parts. -/
def operands : Expr → List Operand
  | binary _ left right => [left, right]
  | unary _ operand => [operand]
  | literal _ | bytes _ _ => []
  | array _ values | constArray _ values | struct values => values
  | var id => [.var id]
  | getRef operand | load operand | structMember operand _ => [operand]
  | subscript base index => [base, index]
  | advancePointer pointer offset => [pointer, offset]
  | cast operand _ | bytesCast operand _ | widthChange _ operand _ => [operand]
  | allocDynamicBytes _ size _ => [size]
  | keccak256 args => args
  | stringCompare left right | stringConcat left right =>
    left.operand?.toList ++ right.operand?.toList
  | storageArrayLength base => [base]
  | formatString args => args.map Prod.snd
  | functionArg _ | internalFunction _ | returnData | unknown _ => []

end Expr

end ContractIR
