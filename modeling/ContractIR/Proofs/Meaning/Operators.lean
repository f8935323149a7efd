import ContractIR.Fold.Capacity
import ContractIR.Proofs.Word

/-!
# ContractIR.Proofs.Meaning.Operators — what operators mean

The reference meaning of the operators on the values that literals stand for.  Integers are words
and are computed with as bit vectors; this says nothing of literals out of range, of exact
intermediate results or of when an expression is folded.  Where an operator has no meaning (`none`),
an interpretation is free to choose one.
-/

namespace ContractIR

/-- What a literal stands for. -/
inductive Const
  | word (f : Word.Format) (bits : BitVec f.width)
  | truth (value : Bool)
  /-- a number whose type is no integer type -/
  | other (type : Ty) (value : Int)

/-- The value of a literal: an integer is the residue of its number. -/
def Literal.denote : Literal → Const
  | .bool value => .truth value
  | .number type value =>
    match type.format? with
    | some f => .word f (BitVec.ofInt f.width value)
    | none => .other type value

theorem Literal.denote_number {type : Ty} {f : Word.Format} (h : type.format? = some f)
    (value : Int) : (Literal.number type value).denote = .word f (BitVec.ofInt f.width value) := by
  simp only [denote, h]

/-- What comes of an operator: a value or a trap. -/
inductive Answer
  | value (c : Const)
  | trap

/-- A result that is a trap if overflow is one and the exact number is out of range. -/
def Answer.guarded (overflowing : Bool) (f : Word.Format) (exact : Int) (bits : BitVec f.width) :
    Answer :=
  if overflowing ∧ ¬ f.Represents exact then .trap else .value (.word f bits)

/-- A result that is a trap if the divisor is zero. -/
def Answer.divided (f : Word.Format) (divisor bits : BitVec f.width) : Answer :=
  if divisor = 0 then .trap else .value (.word f bits)

namespace BinaryOp

/-- An operator on two words of one format.  A wrapping power reads its exponent without sign; an
overflowing one has no meaning for a negative exponent. -/
def onWords (op : BinaryOp) (f : Word.Format) (a b : BitVec f.width) : Option Answer :=
  match op with
  | add overflowing => some (.guarded overflowing f (f.read a + f.read b) (a + b))
  | sub overflowing => some (.guarded overflowing f (f.read a - f.read b) (a - b))
  | mul overflowing => some (.guarded overflowing f (f.read a * f.read b) (a * b))
  | pow false => some (.value (.word f (a ^ b.toNat)))
  | pow true =>
    if f.read b < 0 then none
    else some (.guarded true f (f.read a ^ (f.read b).toNat) (a ^ (f.read b).toNat))
  | udiv => some (.divided f b (a / b))
  | sdiv => some (.divided f b (a.sdiv b))
  | umod => some (.divided f b (a % b))
  | smod => some (.divided f b (a.srem b))
  | eq => some (.value (.truth (a = b)))
  | neq => some (.value (.truth (a ≠ b)))
  | slt => some (.value (.truth (a.toInt < b.toInt)))
  | ult => some (.value (.truth (a.toNat < b.toNat)))
  | slte => some (.value (.truth (a.toInt ≤ b.toInt)))
  | ulte => some (.value (.truth (a.toNat ≤ b.toNat)))
  | sgt => some (.value (.truth (b.toInt < a.toInt)))
  | ugt => some (.value (.truth (b.toNat < a.toNat)))
  | sgte => some (.value (.truth (b.toInt ≤ a.toInt)))
  | ugte => some (.value (.truth (b.toNat ≤ a.toNat)))
  | bitAnd => some (.value (.word f (a &&& b)))
  | bitOr => some (.value (.word f (a ||| b)))
  | bitXor => some (.value (.word f (a ^^^ b)))
  | shl => some (.value (.word f (a <<< b.toNat)))
  | sshr => some (.value (.word f (a.sshiftRight b.toNat)))
  | ushr => some (.value (.word f (a >>> b.toNat)))
  | unknown _ => none

/-- An operator on two truth values. -/
def onTruth (op : BinaryOp) (a b : Bool) : Option Answer :=
  match op with
  | eq => some (.value (.truth (a = b)))
  | neq | bitXor => some (.value (.truth (a ≠ b)))
  | bitAnd => some (.value (.truth (a ∧ b)))
  | bitOr => some (.value (.truth (a ∨ b)))
  | _ => none

/-- An operator on two values. -/
def meaning (op : BinaryOp) : Const → Const → Option Answer
  | .word f a, .word f' b => if h : f' = f then op.onWords f a (h ▸ b) else none
  | .truth a, .truth b => op.onTruth a b
  | _, _ => none

@[simp] theorem meaning_word (op : BinaryOp) (f : Word.Format) (a b : BitVec f.width) :
    op.meaning (.word f a) (.word f b) = op.onWords f a b := by
  simp [meaning]

end BinaryOp

/-- An operator on one value. -/
def UnaryOp.meaning (op : UnaryOp) : Const → Option Answer
  | .word f a =>
    match op with
    | neg overflowing => some (.guarded overflowing f (-f.read a) (-a))
    | bitNot => some (.value (.word f (~~~a)))
    | _ => none
  | .truth a =>
    match op with
    | not => some (.value (.truth !a))
    | _ => none
  | .other _ _ => none

/-- A word carried over to another format. -/
def WidthChange.carry (change : WidthChange) (g : Word.Format) {w : Nat} (bits : BitVec w) :
    BitVec g.width :=
  match change with
  | signExt => bits.signExtend g.width
  | zeroExt | trunc => bits.setWidth g.width

/-- A value carried over to another integer type. -/
def WidthChange.meaning (change : WidthChange) (type : Ty) : Const → Option Answer
  | .word _ a => type.format?.map fun g => .value (.word g (change.carry g a))
  | _ => none

/-- The byte of a word with `i` bytes below it. -/
def Word.byteAt {w : Nat} (bits : BitVec w) (i : Nat) : UInt8 :=
  .ofBitVec (bits.extractLsb' (8 * i) 8)

/-- The bytes of a value as they are hashed, the most significant first.  Only truth values and
words of whole bytes have such bytes. -/
def Const.encoding : Const → Option Bytes
  | .truth value => some [if value then 1 else 0]
  | .word f bits =>
    if f.width % 8 = 0 then some ((List.range (f.width / 8)).reverse.map (Word.byteAt bits))
    else none
  | .other _ _ => none

end ContractIR
