import ContractIR.Fold.Func

/-!
# ContractIR.Fold.Capacity — folding with integers of limited length

`Expr.fold` computes with integers of any length.  Here every integer on the way has to be held in
`Word.capacity` bits, and widths end at `Word.maxWidth`.  An expression that needs more is refused.

* `Expr.fold_of_foldWithin`, `Func.fold_of_foldWithin`: what is not refused is folded as it would
  be without limits.
-/

namespace ContractIR

namespace Word

/-- The most bits that an integer is held in. -/
def capacity : Nat := 0x40000000

/-- The largest width of a word. -/
def maxWidth : Nat := 0x1FFFFFFFFFFFFF

/-- Whether the unsigned reading can be held; that of a negative number takes all bits of the
word. -/
def unsignedFits (w : Nat) (value : Int) : Bool := w ≤ maxWidth && (0 ≤ value || w ≤ capacity)

/-- Whether the signed reading can be held; it is never longer than the value. -/
def signedFits (w : Nat) : Bool := w ≤ maxWidth

/-- Whether the product can be held. -/
def productFits (a b : Int) : Bool := bitLength a + bitLength b ≤ capacity

/-- Whether the products of `modPowLoop` can be held. -/
def modPowLoopFits (w result square n : Nat) : Bool :=
  if n = 0 then true
  else
    (n % 2 = 0 || productFits result square) && productFits square square &&
      modPowLoopFits w (if n % 2 = 1 then unsigned w (result * square : Nat) else result)
        (unsigned w (square * square : Nat)) (n / 2)
termination_by n
decreasing_by omega

/-- Whether the power modulo `2 ^ w` can be computed. -/
def modPowFits (w : Nat) (base exponent : Int) : Bool :=
  unsignedFits w base &&
    (2 * w ≤ capacity || modPowLoopFits w 1 (unsigned w base) exponent.toNat)

namespace Format

/-- Whether the number in the range of the format that is equal to the value can be held. -/
def wrapFits (f : Format) (value : Int) : Bool :=
  if f.signed then signedFits f.width else unsignedFits f.width value

/-- Whether the power of two behind the largest number of the format can be held. -/
def maxFits (f : Format) : Bool := if f.signed then f.width ≤ capacity else f.width < capacity

end Format

/-! ### Checked readings -/

/-- The unsigned reading, if it can be held. -/
def unsignedWithin (w : Nat) (value : Int) : Except NumericError Nat :=
  if unsignedFits w value then .ok (unsigned w value) else .error .tooLarge

/-- The signed reading, if it can be held. -/
def signedWithin (w : Nat) (value : Int) : Except NumericError Int :=
  if signedFits w then .ok (signed w value) else .error .tooLarge

/-- The power modulo `2 ^ w`, if it can be computed. -/
def modPowWithin (w : Nat) (base exponent : Int) : Except NumericError Nat :=
  if modPowFits w base exponent then .ok (modPow w base exponent) else .error .tooLarge

/-- The number in the range of the format that is equal to the value, if it can be held. -/
def Format.wrapWithin (f : Format) (value : Int) : Except NumericError Int :=
  if f.wrapFits value then .ok (f.wrap value) else .error .tooLarge

/-- Whether the format can represent the value, if that can be found out. -/
def Format.inRangeWithin (f : Format) (value : Int) : Except NumericError Bool :=
  if f.wrapFits value then .ok (f.inRange value) else .error .tooLarge

end Word

namespace BinaryOp

/-- Whether the operator can be evaluated on two words. -/
def fits (op : BinaryOp) (f : Word.Format) (left right : Int) : Bool :=
  Word.unsignedFits f.width left && Word.unsignedFits f.width right &&
    match op with
    | add _ => f.wrapFits (f.wrap left + f.wrap right)
    | sub _ => f.wrapFits (f.wrap left - f.wrap right)
    | mul _ =>
      Word.productFits (f.wrap left) (f.wrap right) && f.wrapFits (f.wrap left * f.wrap right)
    | pow true => f.wrap left < 0 || f.wrap right < 0 || f.maxFits
    | pow false => Word.modPowFits f.width (f.wrap left) (Word.unsigned f.width right)
    | shl =>
      let amount := Word.unsigned f.width right
      let value := Word.unsigned f.width left
      f.width ≤ amount || value = 0 || Word.bitLength value + amount ≤ Word.capacity
    | _ => true

end BinaryOp

namespace UnaryOp

/-- Whether the operator can be evaluated on a word. -/
def fits (op : UnaryOp) (f : Word.Format) (value : Int) : Bool :=
  match op with
  | neg _ => f.wrapFits value && f.wrapFits (-f.wrap value)
  | bitNot =>
    Word.unsignedFits f.width value && f.wrapFits (-(Word.unsigned f.width value : Int) - 1)
  | _ => true

end UnaryOp

namespace WidthChange

/-- Whether a word can be carried over from one format to another. -/
def fits (change : WidthChange) (source target : Word.Format) (value : Int) : Bool :=
  (match change with
    | signExt => Word.signedFits source.width
    | zeroExt | trunc => Word.unsignedFits source.width value) &&
    target.wrapFits (change.read source.width value)

end WidthChange

namespace Ty

/-- The format of the words of the type, if it is an integer type that has one. -/
def format? (t : Ty) : Option Word.Format := t.intTy?.bind fun i => i.format.toOption

end Ty

namespace Operand

/-- Whether the bytes of the operands can be held, up to the first operand that has none. -/
def encodeAllFits : List Operand → Bool
  | [] => true
  | .literal (.bool _) :: rest => encodeAllFits rest
  | .literal (.number type _) :: rest =>
    match type.format? with
    | some f => f.width % 8 ≠ 0 || (f.width ≤ Word.capacity && encodeAllFits rest)
    | none => true
  | _ => true

end Operand

namespace Expr

/-- Whether everything that arises when the expression is folded can be held. -/
def fits : Expr → Bool
  | binary op (.number type left) (.number type' right) =>
    match type.format? with
    | some f => !type.equals type' || op.fits f left right
    | none => true
  | unary op (.number type value) =>
    match type.format? with
    | some f => op.fits f value
    | none => true
  | widthChange change (.number source value) type =>
    match source.format?, type.format? with
    | some s, some t => change.fits s t value
    | _, _ => true
  | keccak256 args => Operand.encodeAllFits args
  | _ => true

variable (H : Bytes → Bytes)

/-- The value of an expression whose inputs are literals, if it has one; refused if something on
the way cannot be held. -/
def foldWithin? (e : Expr) : Except NumericError (Option Expr) :=
  if e.fits then e.fold? H else .error .tooLarge

/-- The value of an expression whose inputs are literals, or the expression itself; refused if
something on the way cannot be held. -/
def foldWithin (e : Expr) : Except NumericError Expr :=
  if e.fits then e.fold H else .error .tooLarge

variable {H}

theorem fold?_of_foldWithin? {e : Expr} {r : Option Expr} (h : e.foldWithin? H = .ok r) :
    e.fold? H = .ok r := by
  unfold foldWithin? at h
  split at h
  · exact h
  · cases h

theorem fold_of_foldWithin {e e' : Expr} (h : e.foldWithin H = .ok e') : e.fold H = .ok e' := by
  unfold foldWithin at h
  split at h
  · exact h
  · cases h

end Expr

namespace Fold

variable {fold fold' : Expr → Except NumericError Expr}

theorem instr_mono (hf : ∀ e r, fold e = .ok r → fold' e = .ok r) {known : Constants} {i : Instr}
    {r : Instr × Constants} (h : instr fold known i = .ok r) : instr fold' known i = .ok r := by
  cases i with
  | set result e =>
    simp only [instr] at h ⊢
    cases he : fold (substitute known e) with
    | error d =>
      rw [he] at h
      cases h
    | ok e' =>
      rw [he] at h
      rw [hf _ _ he]
      exact h
  | _ => exact h

theorem instrs_mono (hf : ∀ e r, fold e = .ok r → fold' e = .ok r) :
    ∀ {is : List Instr} {known : Constants} {r : List Instr × Constants},
      instrs fold known is = .ok r → instrs fold' known is = .ok r
  | [], _, _, h => h
  | i :: is, known, r, h => by
    simp only [instrs] at h ⊢
    cases hi : instr fold known i with
    | error d =>
      rw [hi] at h
      cases h
    | ok p =>
      rw [hi] at h
      rw [instr_mono hf hi]
      cases hr : instrs fold p.2 is with
      | error d =>
        simp only [bind, Except.bind, hr] at h
        cases h
      | ok q =>
        simp only [bind, Except.bind, hr] at h
        simp only [bind, Except.bind, instrs_mono hf hr]
        exact h

theorem block_mono (hf : ∀ e r, fold e = .ok r → fold' e = .ok r) {known : Constants} {b : Block}
    {r : Block × Constants} (h : block fold known b = .ok r) : block fold' known b = .ok r := by
  simp only [block] at h ⊢
  cases hi : instrs fold known b.instructions with
  | error d =>
    rw [hi] at h
    cases h
  | ok p =>
    rw [hi] at h
    rw [instrs_mono hf hi]
    exact h

end Fold

namespace Func

/-- Folds the constants of a function; refused if something on the way cannot be held. -/
def foldWithin (H : Bytes → Bytes) (f : Func) : Except NumericError Func :=
  f.foldBy (Expr.foldWithin H)

theorem fold_of_foldWithin {H : Bytes → Bytes} {f g : Func} (h : f.foldWithin H = .ok g) :
    f.fold H = .ok g := by
  have hf : ∀ e r, Expr.foldWithin H e = .ok r → Expr.fold H e = .ok r :=
    fun _ _ => Expr.fold_of_foldWithin
  simp only [foldWithin, foldBy] at h
  simp only [fold, foldBy]
  cases hm : f.blocks.mapState (Fold.block (Expr.foldWithin H)) [] with
  | error d =>
    rw [hm] at h
    cases h
  | ok p =>
    rw [hm] at h
    rw [IdMap.mapState_mono (fun _ _ _ => Fold.block_mono hf) hm]
    exact h

end Func

end ContractIR
