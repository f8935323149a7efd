import ContractIR.Digest.Keccak
import ContractIR.Proofs.Fold.Operators

/-!
# ContractIR.Proofs.Fold.Arithmetic — integer literals are folded as machine words

On literals of one integer type, every operator other than a power is folded to what it means on bit
vectors, and left alone exactly where that would trap.  The literal that comes out has the number in
the range of the type, whatever numbers went in.

* `BinaryOp.number?_eq`, `UnaryOp.evaluate?_eq`: the two sides for each operator.
* `Expr.foldsAt_binary`, `Expr.foldsAt_unary`: the same for folding, with and without limits.
-/

namespace ContractIR

/-! ### Literals of a format -/

namespace Word.Format

variable (f : Format)

/-- The integer type whose words have the format. -/
def type : Ty := if f.signed then .int f.width else .uint f.width

/-- The bits of a number. -/
abbrev bits (n : Int) : BitVec f.width := BitVec.ofInt f.width n

/-- The number in the range of the format with the same bits. -/
def canonical (n : Int) : Int := f.read (f.bits n)

theorem canonical_eq (n : Int) : f.canonical n = f.wrap n := f.read_ofInt n

theorem format_intTy : IntTy.format ⟨f.signed, f.width⟩ = .ok f := by
  simp only [IntTy.format, IntTy.checkWidth, if_pos (show (0 : Int) ≤ f.width by omega)]
  rfl

@[simp] theorem intTy?_type : f.type.intTy? = some ⟨f.signed, f.width⟩ := by
  unfold type
  cases h : f.signed <;> rfl

@[simp] theorem format?_type : f.type.format? = some f := by
  rw [Ty.format?, intTy?_type, Option.bind_some, format_intTy]
  rfl

end Word.Format

/-- The literal of a value; its number is in the range of its type. -/
def Const.literal : Const → Literal
  | word f bits => .number f.type (f.read bits)
  | truth value => .bool value
  | other type value => .number type value

/-- The literal of an answer; a trap has none. -/
def Answer.literal? : Answer → Option Literal
  | value c => some c.literal
  | trap => none

/-! ### Operators on two words -/

namespace BinaryOp

variable {op : BinaryOp} {f : Word.Format} {a b : Int}

/-- All operators with a meaning but powers. -/
def isPlain : BinaryOp → Bool
  | pow _ | unknown _ => false
  | _ => true

/-- The operator has no result: the divisor is zero, or overflow is a trap and the exact result is
out of range. -/
def Traps (op : BinaryOp) (f : Word.Format) (a b : Int) : Prop :=
  match op with
  | add overflowing => overflowing ∧ ¬ f.Represents (f.canonical a + f.canonical b)
  | sub overflowing => overflowing ∧ ¬ f.Represents (f.canonical a - f.canonical b)
  | mul overflowing => overflowing ∧ ¬ f.Represents (f.canonical a * f.canonical b)
  | udiv | sdiv | umod | smod => (2 ^ f.width : Int) ∣ b
  | _ => False

theorem bits_eq_zero_iff : f.bits b = 0 ↔ (2 ^ f.width : Int) ∣ b := by
  rw [ofInt_eq_zero_iff, ← Int.natCast_eq_zero, Word.unsigned_emod, Word.modulus_eq,
    Int.dvd_iff_emod_eq_zero]

theorem literal?_guarded_eq_none_iff {overflowing : Bool} {exact : Int} {bits : BitVec f.width} :
    (Answer.guarded overflowing f exact bits).literal? = none ↔
      overflowing ∧ ¬ f.Represents exact := by
  unfold Answer.guarded
  split <;> simp_all [Answer.literal?]

theorem literal?_divided_eq_none_iff {bits : BitVec f.width} :
    (Answer.divided f (f.bits b) bits).literal? = none ↔ (2 ^ f.width : Int) ∣ b := by
  rw [← bits_eq_zero_iff]
  unfold Answer.divided
  split <;> simp_all [Answer.literal?]

/-- The meaning of an operator is a trap exactly where the operator has no result. -/
theorem literal?_onWords_eq_none_iff (h : op.isPlain = true) :
    (op.onWords f (f.bits a) (f.bits b)).bind Answer.literal? = none ↔ op.Traps f a b := by
  cases op with
  | add overflowing => exact literal?_guarded_eq_none_iff
  | sub overflowing => exact literal?_guarded_eq_none_iff
  | mul overflowing => exact literal?_guarded_eq_none_iff
  | udiv => exact literal?_divided_eq_none_iff
  | sdiv => exact literal?_divided_eq_none_iff
  | umod => exact literal?_divided_eq_none_iff
  | smod => exact literal?_divided_eq_none_iff
  | pow overflowing => cases h
  | unknown kind => cases h
  | _ => simp [onWords, Answer.literal?, Traps]

theorem checked_eq_none_iff {overflowing : Bool} {exact : Int} :
    checked overflowing f exact = none ↔ overflowing ∧ ¬ f.Represents exact := by
  rw [← f.inRange_iff]
  simp [checked]

/-- An operator is not evaluated exactly where it has no result. -/
theorem number?_eq_none_iff (type : Ty) (h : op.isPlain = true) :
    op.number? type f a b = none ↔ op.Traps f a b := by
  have hunsigned : Word.unsigned f.width b = 0 ↔ (2 ^ f.width : Int) ∣ b := by
    rw [← ofInt_eq_zero_iff, bits_eq_zero_iff]
  have hsigned : Word.signed f.width b = 0 ↔ (2 ^ f.width : Int) ∣ b := by
    rw [← ofInt_eq_zero_iff_signed, bits_eq_zero_iff]
  cases op with
  | pow overflowing => cases h
  | unknown kind => cases h
  | _ =>
    simp [number?, compare?, evaluate?, Traps, checked_eq_none_iff, hunsigned, hsigned,
      Word.Format.canonical_eq]

theorem represents_of_checked {overflowing : Bool} {exact v : Int}
    (h : checked overflowing f exact = some v) : f.Represents v := by
  simp only [checked, Option.ite_none_left_eq_some, Option.some.injEq] at h
  exact h.2 ▸ f.represents_wrap exact

/-- What an operator is evaluated to is in range. -/
theorem represents_of_evaluate? {v : Int} (hop : op.isPlain = true)
    (h : op.evaluate? f a b = some v) : f.Represents v := by
  have hdivided {p : Prop} [Decidable p] {n : Int}
      (hv : (if p then none else some (f.wrap n)) = some v) : f.Represents v := by
    simp only [Option.ite_none_left_eq_some, Option.some.injEq] at hv
    exact hv.2 ▸ f.represents_wrap n
  have hshifted {p : Prop} [Decidable p] {n : Int}
      (hv : some (if p then 0 else f.wrap n) = some v) : f.Represents v := by
    obtain rfl := Option.some.inj hv
    split
    · exact f.represents_zero
    · exact f.represents_wrap n
  cases op with
  | add overflowing => exact represents_of_checked h
  | sub overflowing => exact represents_of_checked h
  | mul overflowing => exact represents_of_checked h
  | pow overflowing => cases hop
  | udiv => exact hdivided h
  | sdiv => exact hdivided h
  | umod => exact hdivided h
  | smod => exact hdivided h
  | shl => exact hshifted h
  | ushr => exact hshifted h
  | bitAnd => exact Option.some.inj h ▸ f.represents_wrap _
  | bitOr => exact Option.some.inj h ▸ f.represents_wrap _
  | bitXor => exact Option.some.inj h ▸ f.represents_wrap _
  | sshr => exact Option.some.inj h ▸ f.represents_wrap _
  | _ => simp [evaluate?] at h

/-- An operator on two literals of one integer type gives the literal of what it means. -/
theorem number?_eq (hop : op.isPlain = true) :
    op.number? f.type f a b = (op.onWords f (f.bits a) (f.bits b)).bind Answer.literal? := by
  have hpow : ∀ overflowing, op = pow overflowing → 2 ≤ f.width := by
    rintro overflowing rfl
    cases hop
  cases h : op.number? f.type f a b with
  | none =>
    rw [number?_eq_none_iff f.type hop] at h
    exact ((literal?_onWords_eq_none_iff hop).2 h).symm
  | some c =>
    unfold number? at h
    split at h
    · rename_i value hvalue
      rw [onWords_of_compare? hvalue, ← Option.some.inj h]
      rfl
    · obtain ⟨v, hv, rfl⟩ := Option.map_eq_some_iff.1 h
      have hcanonical := f.wrap_eq_self_iff.2 (represents_of_evaluate? hop hv)
      rw [onWords_of_evaluate? hpow hv, Option.bind_some, Answer.literal?, Const.literal,
        f.read_ofInt, hcanonical]

/-- A word that is shifted out of itself leaves nothing but its sign. -/
theorem sshiftRight_of_le {w n : Nat} (bits : BitVec w) (h : w ≤ n) :
    bits.sshiftRight n = BitVec.ofInt w (if bits.toInt < 0 then -1 else 0) := by
  have hpow : (2 : Int) ^ w ≤ 2 ^ n := pow_le_pow_right₀ (by omega) h
  have hlow := BitVec.le_two_mul_toInt (x := bits)
  have hhigh := BitVec.two_mul_toInt_lt (x := bits)
  rw [BitVec.sshiftRight_eq, Int.shiftRight_eq_div_pow, Nat.cast_pow, Nat.cast_ofNat]
  -- the divisor exceeds the magnitude, and the quotient is rounded down
  split
  · rw [Int.ediv_eq_neg_one_of_neg_of_le (by omega) (by omega)]
  · rw [Int.ediv_eq_zero_of_lt (by omega) (by omega)]

end BinaryOp

/-! ### Operators on one word -/

namespace UnaryOp

variable {op : UnaryOp} {f : Word.Format} {a : Int}

/-- The operator has no result: overflow is a trap and the exact result is out of range. -/
def Traps (op : UnaryOp) (f : Word.Format) (a : Int) : Prop :=
  match op with
  | neg overflowing => overflowing ∧ ¬ f.Represents (-f.canonical a)
  | _ => False

/-- An operator is not evaluated exactly where it has no result. -/
theorem evaluate?_eq_none_iff (hop : op.onNumbers = true) :
    op.evaluate? f a = none ↔ op.Traps f a := by
  cases op with
  | neg overflowing =>
    rw [Traps, f.canonical_eq]
    exact BinaryOp.checked_eq_none_iff
  | bitNot => simp [evaluate?, Traps]
  | _ => cases hop

/-- The meaning of an operator is a trap exactly where the operator has no result. -/
theorem literal?_meaning_eq_none_iff (hop : op.onNumbers = true) :
    (op.meaning (.word f (f.bits a))).bind Answer.literal? = none ↔ op.Traps f a := by
  cases op with
  | neg overflowing => exact BinaryOp.literal?_guarded_eq_none_iff
  | bitNot => simp [meaning, Answer.literal?, Traps]
  | _ => cases hop

/-- An operator on a literal of an integer type gives the literal of what it means. -/
theorem evaluate?_eq (hop : op.onNumbers = true) :
    (op.evaluate? f a).map (.number f.type) =
      (op.meaning (.word f (f.bits a))).bind Answer.literal? := by
  cases h : op.evaluate? f a with
  | none =>
    rw [evaluate?_eq_none_iff hop] at h
    exact ((literal?_meaning_eq_none_iff hop).2 h).symm
  | some v =>
    have hv : f.Represents v := by
      cases op with
      | neg overflowing => exact BinaryOp.represents_of_checked h
      | bitNot => exact Option.some.inj h ▸ f.represents_wrap _
      | _ => cases hop
    rw [meaning_of_evaluate? h, Option.bind_some, Answer.literal?, Const.literal, f.read_ofInt,
      f.wrap_eq_self_iff.2 hv]
    rfl

end UnaryOp

/-! ### Limits -/

section Limits

variable {f : Word.Format}

theorem Word.unsignedFits_of_le {w : Nat} (h : w ≤ capacity) (value : Int) :
    unsignedFits w value = true := by
  have hmax : w ≤ maxWidth := h.trans (by decide)
  simp [unsignedFits, hmax, h]

theorem Word.Format.wrapFits_of_le (h : f.width ≤ capacity) (value : Int) :
    f.wrapFits value = true := by
  have hmax : f.width ≤ maxWidth := h.trans (by decide)
  simp [wrapFits, signedFits, hmax, unsignedFits_of_le h]

/-- Products of two words and words shifted by less than their width take twice the width. -/
theorem BinaryOp.fits_of_le (op : BinaryOp) (h : 2 * f.width ≤ Word.capacity) (a b : Int) :
    op.fits f a b = true := by
  have hw : f.width ≤ Word.capacity := by omega
  have hunsigned := Word.unsignedFits_of_le hw
  have hwrap := f.wrapFits_of_le hw
  have hproduct : Word.productFits (f.wrap a) (f.wrap b) = true := by
    have ha := f.bitLength_le (f.represents_wrap a)
    have hb := f.bitLength_le (f.represents_wrap b)
    exact decide_eq_true (by omega)
  unfold fits
  rw [hunsigned, hunsigned, Bool.true_and, Bool.true_and]
  cases op with
  | add overflowing => exact hwrap _
  | sub overflowing => exact hwrap _
  | mul overflowing =>
    dsimp only
    rw [hproduct]
    exact hwrap _
  | pow overflowing =>
    have hcapacity : 0 < Word.capacity := by decide
    have hmax : f.maxFits = true := by
      unfold Word.Format.maxFits
      split <;> exact decide_eq_true (by omega)
    cases overflowing <;> simp [hmax, Word.modPowFits, hunsigned, h]
  | shl =>
    have hlength : Word.bitLength (Word.unsigned f.width a) ≤ f.width :=
      Word.Format.bitLength_le ⟨false, f.width⟩ (Word.Format.represents_wrap ⟨false, f.width⟩ a)
    by_cases hout : f.width ≤ Word.unsigned f.width b
    · simp [hout]
    · have hsum : Word.bitLength (Word.unsigned f.width a) + Word.unsigned f.width b ≤
          Word.capacity := by omega
      simp [hsum]
  | _ => rfl

theorem UnaryOp.fits_of_le (op : UnaryOp) (h : 2 * f.width ≤ Word.capacity) (a : Int) :
    op.fits f a = true := by
  have hw : f.width ≤ Word.capacity := by omega
  cases op <;> simp [fits, Word.unsignedFits_of_le hw, f.wrapFits_of_le hw]

end Limits

/-! ### Expressions -/

/-- The type is an integer type. -/
def Ty.IsInteger (t : Ty) : Prop := ∃ w, t = .int w ∨ t = .uint w

theorem Ty.intTy?_of_not_isInteger {t : Ty} (h : ¬ t.IsInteger) : t.intTy? = none := by
  cases t with
  | int w => exact absurd ⟨w, .inl rfl⟩ h
  | uint w => exact absurd ⟨w, .inr rfl⟩ h
  | _ => rfl

namespace Word.Format

/-- An operator on two literals of the integer type. -/
def binary (f : Format) (op : BinaryOp) (a b : Int) : Expr :=
  .binary op (.number f.type a) (.number f.type b)

/-- An operator on a literal of the integer type. -/
def unary (f : Format) (op : UnaryOp) (a : Int) : Expr := .unary op (.number f.type a)

end Word.Format

namespace Expr

variable {H : Bytes → Bytes} {f : Word.Format} {a b : Int} {e e' : Expr}

/-- The literal of the answer, or the expression itself if there is none. -/
def answered (e : Expr) (answer : Option Answer) : Expr :=
  ((answer.bind Answer.literal?).map .literal).getD e

/-- The expression is folded to the other one.  With limits it may also be refused, but only if not
every number of `2 * w` bits can be held. -/
def FoldsAt (H : Bytes → Bytes) (w : Nat) (e e' : Expr) : Prop :=
  e.fold H = .ok e' ∧
    (e.foldWithin H = .ok e' ∨ Word.capacity < 2 * w ∧ e.foldWithin H = .error .tooLarge)

theorem foldsAt_of_fits {w : Nat} (h : e.fold H = .ok e')
    (hfits : 2 * w ≤ Word.capacity → e.fits = true) : e.FoldsAt H w e' := by
  refine ⟨h, ?_⟩
  unfold foldWithin
  by_cases hf : e.fits = true
  · rw [if_pos hf]
    exact .inl h
  · rw [if_neg hf]
    refine .inr ⟨?_, rfl⟩
    by_contra hw
    exact hf (hfits (by omega))

theorem foldsAt_number? (op : BinaryOp) :
    (f.binary op a b).FoldsAt H f.width
      (((op.number? f.type f a b).map .literal).getD (f.binary op a b)) := by
  have hequals : f.type.equals f.type = true := Ty.equals_self _
  refine foldsAt_of_fits ?_ fun h => ?_
  · simp only [Word.Format.binary, fold, fold?, Operand.literal?, BinaryOp.literal?,
      f.intTy?_type, f.format_intTy, hequals, if_true]
    rfl
  · simp only [Word.Format.binary, fits, f.format?_type, op.fits_of_le h, Bool.or_true]

theorem foldsAt_evaluate? {op : UnaryOp} (hop : op.onNumbers = true) :
    (f.unary op a).FoldsAt H f.width
      ((((op.evaluate? f a).map (.number f.type)).map .literal).getD (f.unary op a)) := by
  refine foldsAt_of_fits ?_ fun h => ?_
  · simp only [Word.Format.unary, fold, fold?, Operand.literal?, UnaryOp.literal?, hop,
      f.intTy?_type, f.format_intTy]
    rfl
  · simp only [Word.Format.unary, fits, f.format?_type, op.fits_of_le h]

/-- An operator on literals is left alone exactly if there is no literal to put in its place. -/
theorem fold_eq_self_iff {l : Option Literal} (he : e.literal? = none)
    (h : e.fold H = .ok ((l.map .literal).getD e)) : e.fold H = .ok e ↔ l = none := by
  rw [h]
  cases l with
  | none => simp
  | some c =>
    have hne : e ≠ .literal c := by
      rintro rfl
      cases he
    simpa using hne.symm

theorem foldsAt_binary {op : BinaryOp} (hop : op.isPlain = true) :
    (f.binary op a b).FoldsAt H f.width
      ((f.binary op a b).answered (op.onWords f (f.bits a) (f.bits b))) := by
  rw [answered, ← BinaryOp.number?_eq hop]
  exact foldsAt_number? op

theorem fold_binary_eq_self_iff {op : BinaryOp} (hop : op.isPlain = true) :
    (f.binary op a b).fold H = .ok (f.binary op a b) ↔ op.Traps f a b := by
  rw [fold_eq_self_iff rfl (foldsAt_number? op).1, BinaryOp.number?_eq_none_iff _ hop]

theorem foldsAt_unary {op : UnaryOp} (hop : op.onNumbers = true) :
    (f.unary op a).FoldsAt H f.width
      ((f.unary op a).answered (op.meaning (.word f (f.bits a)))) := by
  rw [answered, ← UnaryOp.evaluate?_eq hop]
  exact foldsAt_evaluate? hop

theorem fold_unary_eq_self_iff {op : UnaryOp} (hop : op.onNumbers = true) :
    (f.unary op a).fold H = .ok (f.unary op a) ↔ op.Traps f a := by
  rw [fold_eq_self_iff rfl (foldsAt_evaluate? hop).1, Option.map_eq_none_iff,
    UnaryOp.evaluate?_eq_none_iff hop]

theorem foldsAt_word {op : BinaryOp} {n : Int} (hop : op.isPlain = true)
    (h : op.onWords f (f.bits a) (f.bits b) = some (.value (.word f (f.bits n)))) :
    (f.binary op a b).FoldsAt H f.width (.number f.type (f.canonical n)) := by
  have hfold := foldsAt_binary (H := H) (f := f) (a := a) (b := b) hop
  rw [h] at hfold
  exact hfold

/-- Shifts by the width or more leave zero or the sign. -/
theorem foldsAt_shifted_out (hb : (f.width : Int) ≤ b % 2 ^ f.width) :
    (f.binary .shl a b).FoldsAt H f.width (.number f.type 0) ∧
      (f.binary .ushr a b).FoldsAt H f.width (.number f.type 0) ∧
      (f.binary .sshr a b).FoldsAt H f.width
        (.number f.type (f.canonical (if (f.bits a).toInt < 0 then -1 else 0))) := by
  have hamount : f.width ≤ (f.bits b).toNat := by
    have hemod := Word.unsigned_emod f.width b
    rw [Word.modulus_eq] at hemod
    rw [Word.toNat_ofInt]
    omega
  have hzero : f.canonical 0 = 0 := by
    rw [f.canonical_eq, f.wrap_eq_self_iff]
    exact f.represents_zero
  have hbits : f.bits 0 = 0#f.width := BitVec.ofInt_ofNat f.width 0
  refine ⟨hzero ▸ foldsAt_word rfl ?_, hzero ▸ foldsAt_word rfl ?_, foldsAt_word rfl ?_⟩
  · rw [BinaryOp.onWords, BitVec.shiftLeft_eq_zero hamount, hbits]
  · rw [BinaryOp.onWords, BitVec.ushiftRight_eq_zero hamount, hbits]
  · rw [BinaryOp.onWords, BinaryOp.sshiftRight_of_le _ hamount]

/-- Numbers are put together only if they have the same integer type. -/
theorem foldsAt_self_of_types (op : BinaryOp) {s t : Ty} (h : s ≠ t ∨ ¬ s.IsInteger) :
    (binary op (.number s a) (.number t b)).FoldsAt H 0
      (binary op (.number s a) (.number t b)) := by
  -- an integer type is compared with the other type before its width is looked at
  cases hs : s.intTy? with
  | none =>
    refine foldsAt_of_fits ?_ fun _ => ?_
    · simp only [fold, fold?, Operand.literal?, BinaryOp.literal?, hs]
      rfl
    · simp only [fits, Ty.format?, hs, Option.bind_none]
  | some i =>
    have hne : s.equals t = false := by
      rcases h with h | h
      · rwa [← Bool.not_eq_true, Ty.equals_iff]
      · rw [Ty.intTy?_of_not_isInteger h] at hs
        cases hs
    refine foldsAt_of_fits ?_ fun _ => ?_
    · simp only [fold, fold?, Operand.literal?, BinaryOp.literal?, hs, hne]
      rfl
    · simp only [fits, hne]
      split <;> rfl

/-- An operator on a number that is no integer is left alone. -/
theorem foldsAt_self_unary (op : UnaryOp) {t : Ty} (h : ¬ t.IsInteger) :
    (unary op (.number t a)).FoldsAt H 0 (unary op (.number t a)) := by
  have ht := Ty.intTy?_of_not_isInteger h
  refine foldsAt_of_fits ?_ fun _ => ?_
  · simp only [fold, fold?, Operand.literal?, UnaryOp.literal?, ht]
    cases op.onNumbers <;> rfl
  · simp only [fits, Ty.format?, ht, Option.bind_none]

end Expr

/-- Operators on literals of one integer type are folded to what they mean on words, and left alone
exactly if that would trap.  Shifts by the width or more leave zero or the sign.  Literals that are
not of one integer type are never put together. -/
theorem literals_fold_as_words (H : Bytes → Bytes) (f : Word.Format) (a b : Int) :
    (∀ op : BinaryOp, op.isPlain = true →
      (f.binary op a b).FoldsAt H f.width
          ((f.binary op a b).answered (op.onWords f (f.bits a) (f.bits b))) ∧
        ((f.binary op a b).fold H = .ok (f.binary op a b) ↔ op.Traps f a b)) ∧
      ((f.width : Int) ≤ b % 2 ^ f.width →
        (f.binary .shl a b).FoldsAt H f.width (.number f.type 0) ∧
        (f.binary .ushr a b).FoldsAt H f.width (.number f.type 0) ∧
        (f.binary .sshr a b).FoldsAt H f.width
          (.number f.type (f.canonical (if (f.bits a).toInt < 0 then -1 else 0)))) ∧
      (∀ op : UnaryOp, op.onNumbers = true →
        (f.unary op a).FoldsAt H f.width
            ((f.unary op a).answered (op.meaning (.word f (f.bits a)))) ∧
          ((f.unary op a).fold H = .ok (f.unary op a) ↔ op.Traps f a)) ∧
      (∀ (op : BinaryOp) (s t : Ty), s ≠ t ∨ ¬ s.IsInteger →
        (Expr.binary op (.number s a) (.number t b)).FoldsAt H 0
          (.binary op (.number s a) (.number t b))) ∧
      (∀ (op : BinaryOp) (t : Ty) (c : Bool),
        (Expr.binary op (.number t a) (.bool c)).FoldsAt H 0 (.binary op (.number t a) (.bool c)) ∧
        (Expr.binary op (.bool c) (.number t a)).FoldsAt H 0 (.binary op (.bool c) (.number t a))) ∧
      ∀ (op : UnaryOp) (t : Ty), ¬ t.IsInteger →
        (Expr.unary op (.number t a)).FoldsAt H 0 (.unary op (.number t a)) := by
  refine ⟨?_, Expr.foldsAt_shifted_out, ?_, ?_, ?_, ?_⟩
  · intro op hop
    exact ⟨Expr.foldsAt_binary hop, Expr.fold_binary_eq_self_iff hop⟩
  · intro op hop
    exact ⟨Expr.foldsAt_unary hop, Expr.fold_unary_eq_self_iff hop⟩
  · intro op s t h
    exact Expr.foldsAt_self_of_types op h
  · intro op t c
    exact ⟨Expr.foldsAt_of_fits rfl fun _ => rfl, Expr.foldsAt_of_fits rfl fun _ => rfl⟩
  · intro op t h
    exact Expr.foldsAt_self_unary op h

/-- The least number of eight bits and minus one, written out of range.  Their quotient wraps to the
least number again, their product and the negation are left alone, and a shift leaves the sign. -/
theorem literals_fold_as_words_least :
    (Expr.binary .sdiv (.number (.int 8) 128) (.number (.int 8) 255)).FoldsAt Keccak.digest 8
        (.number (.int 8) (-128)) ∧
      (Expr.binary (.mul true) (.number (.int 8) 128) (.number (.int 8) 255)).fold Keccak.digest =
        .ok (.binary (.mul true) (.number (.int 8) 128) (.number (.int 8) 255)) ∧
      (Expr.binary .sshr (.number (.int 8) 128) (.number (.int 8) 255)).FoldsAt Keccak.digest 8
        (.number (.int 8) (-1)) ∧
      (Expr.unary (.neg true) (.number (.int 8) 128)).fold Keccak.digest =
        .ok (.unary (.neg true) (.number (.int 8) 128)) ∧
      (Expr.binary .eq (.number (.int 8) 128) (.number (.uint 8) 255)).FoldsAt Keccak.digest 0
        (.binary .eq (.number (.int 8) 128) (.number (.uint 8) 255)) := by
  obtain ⟨hbinary, hshift, hunary, htypes, -, -⟩ :=
    literals_fold_as_words Keccak.digest ⟨true, 8⟩ 128 255
  refine ⟨(hbinary .sdiv rfl).1, (hbinary (.mul true) rfl).2.2 ⟨rfl, by decide⟩,
    (hshift (by decide)).2.2, (hunary (.neg true) rfl).2.2 ⟨rfl, by decide⟩,
    htypes .eq (.int 8) (.uint 8) (.inl (by decide))⟩

end ContractIR
