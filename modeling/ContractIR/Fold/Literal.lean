import ContractIR.Expr
import ContractIR.Word.Power

/-!
# ContractIR.Fold.Literal — operators on literals

Literals are read modulo the width of their type, whether their value is in range or not.  An
operator that would trap when the code runs has no result here.
-/

namespace ContractIR

namespace BinaryOp

/-- A comparison of two words, if the operator is one. -/
def compare? (op : BinaryOp) (w : Nat) (left right : Int) : Option Bool :=
  let ul := Word.unsigned w left
  let ur := Word.unsigned w right
  let sl := Word.signed w left
  let sr := Word.signed w right
  match op with
  | eq => some (ul == ur)
  | neq => some (ul != ur)
  | slt => some (sl < sr)
  | ult => some (ul < ur)
  | slte => some (sl ≤ sr)
  | ulte => some (ul ≤ ur)
  | sgt => some (sr < sl)
  | ugt => some (ur < ul)
  | sgte => some (sr ≤ sl)
  | ugte => some (ur ≤ ul)
  | _ => none

/-- The exact result wrapped into the format, unless it is out of range and that is a trap. -/
def checked (overflowing : Bool) (f : Word.Format) (exact : Int) : Option Int :=
  if overflowing && !f.inRange exact then none else some (f.wrap exact)

/-- A power of two words.  If overflow wraps, the exponent is read without sign; if it is a trap,
neither base nor exponent may be negative. -/
def power (overflowing : Bool) (f : Word.Format) (base exponent : Int) : Option Int :=
  if overflowing then
    if base < 0 ∨ exponent < 0 then none else Word.boundedPow base exponent f.max
  else some (f.wrap (Word.modPow f.width base (Word.unsigned f.width exponent)))

/-- The value of an operator on two words of the same format, unless it would trap. -/
def evaluate? (op : BinaryOp) (f : Word.Format) (left right : Int) : Option Int :=
  let ul := Word.unsigned f.width left
  let ur := Word.unsigned f.width right
  let sl := Word.signed f.width left
  let sr := Word.signed f.width right
  let l := f.wrap left
  let r := f.wrap right
  match op with
  | add overflowing => checked overflowing f (l + r)
  | sub overflowing => checked overflowing f (l - r)
  | mul overflowing => checked overflowing f (l * r)
  | pow overflowing => power overflowing f l r
  | udiv => if ur = 0 then none else some (f.wrap (ul / ur : Nat))
  | sdiv => if sr = 0 then none else some (f.wrap (sl.tdiv sr))
  | umod => if ur = 0 then none else some (f.wrap (ul % ur : Nat))
  | smod => if sr = 0 then none else some (f.wrap (sl.tmod sr))
  | bitAnd => some (f.wrap (ul &&& ur : Nat))
  | bitOr => some (f.wrap (ul ||| ur : Nat))
  | bitXor => some (f.wrap (ul ^^^ ur : Nat))
  | shl => some (if f.width ≤ ur then 0 else f.wrap (ul <<< ur : Nat))
  | ushr => some (if f.width ≤ ur then 0 else f.wrap (ul >>> ur : Nat))
  | sshr => some (f.wrap (sl >>> min ur f.width))
  | _ => none

/-- An operator on two truth values, if it applies to them. -/
def bool? (op : BinaryOp) (left right : Bool) : Option Bool :=
  match op with
  | eq => some (left == right)
  | neq => some (left != right)
  | bitAnd => some (left && right)
  | bitOr => some (left || right)
  | bitXor => some (left != right)
  | _ => none

/-- An operator on two number literals of a type with the given format. -/
def number? (op : BinaryOp) (type : Ty) (f : Word.Format) (left right : Int) : Option Literal :=
  match op.compare? f.width left right with
  | some b => some (.bool b)
  | none => (op.evaluate? f left right).map (.number type)

/-- An operator on two literals, if it applies to them.  Numbers must have the same integer type. -/
def literal? (op : BinaryOp) : Literal → Literal → Except NumericError (Option Literal)
  | .bool left, .bool right => .ok ((op.bool? left right).map .bool)
  | .number type left, .number type' right =>
    match type.intTy? with
    | none => .ok none
    | some t =>
      if type.equals type' then do return op.number? type (← t.format) left right else .ok none
  | _, _ => .ok none

end BinaryOp

namespace UnaryOp

/-- An operator on a word, unless it would trap. -/
def evaluate? (op : UnaryOp) (f : Word.Format) (value : Int) : Option Int :=
  match op with
  | neg overflowing => BinaryOp.checked overflowing f (-f.wrap value)
  | bitNot => some (f.wrap (-(Word.unsigned f.width value : Int) - 1))
  | _ => none

/-- Whether the operator applies to numbers. -/
def onNumbers : UnaryOp → Bool
  | neg _ | bitNot => true
  | _ => false

/-- An operator on a literal, if it applies to it. -/
def literal? (op : UnaryOp) : Literal → Except NumericError (Option Literal)
  | .bool value =>
    match op with
    | not => .ok (some (.bool !value))
    | _ => .ok none
  | .number type value =>
    match op.onNumbers, type.intTy? with
    | true, some t => do return (op.evaluate? (← t.format) value).map (.number type)
    | _, _ => .ok none

end UnaryOp

namespace WidthChange

/-- The value of a word as it is carried over to another width. -/
def read (change : WidthChange) (w : Nat) (value : Int) : Int :=
  match change with
  | signExt => Word.signed w value
  | zeroExt | trunc => Word.unsigned w value

/-- A literal carried over to another integer type, if it is of an integer type itself. -/
def literal? (change : WidthChange) (type : Ty) : Literal → Except NumericError (Option Literal)
  | .bool _ => .ok none
  | .number source value =>
    match source.intTy?, type.intTy? with
    | some s, some t => do
      let s ← s.format
      let t ← t.format
      return some (.number type (t.wrap (change.read s.width value)))
    | _, _ => .ok none

end WidthChange

namespace Literal

/-- The bytes of a literal as they are hashed: a truth value is one byte, and an integer of whole
bytes stands big-endian in the width of its type. -/
def encode : Literal → Except NumericError (Option Bytes)
  | bool value => .ok (some [if value then 1 else 0])
  | number type value =>
    match type.intTy? with
    | none => .ok none
    | some t =>
      if t.width % 8 ≠ 0 then .ok none
      else do
        let f ← t.format
        return some (Bytes.bigEndian (f.width / 8) (Word.unsigned f.width value))

end Literal

end ContractIR
