import ContractIR.Fold.Literal

/-!
# ContractIR.Fold.Expr — expressions on literals

An expression whose inputs are literals is replaced by its value.  `Expr.fold?` gives the
replacement if there is one; `Expr.fold` falls back on the expression itself.  The function `H` that
hashes bytes is a parameter; nothing is assumed of it.
-/

namespace ContractIR

namespace Operand

/-- The bytes of an operand as they are hashed, if it is a literal that has such bytes. -/
def encode (o : Operand) : Except NumericError (Option Bytes) :=
  match o.literal? with
  | none => .ok none
  | some l => l.encode

/-- The bytes of several operands one after the other, if all of them have bytes.  The first operand
that has none settles the matter. -/
def encodeAll : List Operand → Except NumericError (Option Bytes)
  | [] => .ok (some [])
  | o :: rest => do
    match ← o.encode with
    | none => return none
    | some bytes => return (← encodeAll rest).map (bytes ++ ·)

end Operand

namespace Expr

/-- A new buffer with the given contents. -/
def buffer (contents : Bytes) : Expr :=
  .allocDynamicBytes .dynamicBytes (.number (.uint 32) contents.length) (some contents)

variable (H : Bytes → Bytes)

/-- The digest of the given bytes as a value. -/
def digest (bytes : Bytes) : Expr := .bytes (.byteArray 32) (H bytes)

/-- The value of an expression whose inputs are literals, if it has one. -/
def fold? : Expr → Except NumericError (Option Expr)
  | binary op left right =>
    match left.literal?, right.literal? with
    | some l, some r => do return (← op.literal? l r).map .literal
    | _, _ => .ok none
  | unary op operand =>
    match operand.literal? with
    | some l => do return (← op.literal? l).map .literal
    | none => .ok none
  | widthChange change operand type =>
    match operand.literal? with
    | some l => do return (← change.literal? type l).map .literal
    | none => .ok none
  | keccak256 args => do return (← Operand.encodeAll args).map (digest H)
  | stringCompare (.compileTime left) (.compileTime right) => .ok (some (.bool (left == right)))
  | stringConcat (.compileTime left) (.compileTime right) => .ok (some (buffer (left ++ right)))
  | _ => .ok none

/-- The value of an expression whose inputs are literals, or the expression itself. -/
def fold (e : Expr) : Except NumericError Expr := do return (← e.fold? H).getD e

end Expr

end ContractIR
