import ContractIR.Proofs.Fold.Residue

/-!
# ContractIR.Proofs.Fold.Width — integer literals carried from one type to another

A conversion reads the bits of its literal in one of two ways and writes the number down at the new
width.  On bits it is a sign extension, or else a zero extension; where the new type is narrower,
the low bits remain of either.  So a literal that was extended can be cut down to what it was, and
two extensions of one kind are as good as one.

* `WidthChange.getLsbD_carry`: what a conversion does to each bit.
* `WidthChange.trunc_carry`, `WidthChange.carry_carry`: conversions one after the other.
* `Expr.foldsAt_convert`: folding, with and without limits.
-/

namespace ContractIR

/-- A literal of the integer type, converted to another one. -/
def Word.Format.convert (f : Format) (change : WidthChange) (a : Int) (g : Format) : Expr :=
  .widthChange change (.number f.type a) g.type

namespace WidthChange

variable {change : WidthChange} {f g : Word.Format}

/-- What the conversion puts above the bits that it is given. -/
def filling (change : WidthChange) {w : Nat} (bits : BitVec w) : Bool :=
  match change with
  | signExt => bits.msb
  | zeroExt | trunc => false

/-- A conversion keeps the bits for which there is room and fills up the others. -/
theorem getLsbD_carry {w i : Nat} (bits : BitVec w) (hi : i < g.width) :
    (change.carry g bits).getLsbD i =
      if i < w then bits.getLsbD i else change.filling bits := by
  have hzero : (bits.setWidth g.width).getLsbD i = if i < w then bits.getLsbD i else false := by
    rw [BitVec.getLsbD_setWidth, decide_eq_true hi, Bool.true_and]
    split
    · rfl
    · rw [BitVec.getLsbD_of_ge bits i (by omega)]
  cases change with
  | signExt =>
    rw [carry, BitVec.getLsbD_signExtend, decide_eq_true hi, Bool.true_and]
    rfl
  | zeroExt => exact hzero
  | trunc => exact hzero

/-- Whatever was put above the bits is cut off again. -/
theorem trunc_carry (h : f.width ≤ g.width) (bits : BitVec f.width) :
    trunc.carry f (change.carry g bits) = bits := by
  apply BitVec.eq_of_getLsbD_eq
  intro i hi
  rw [getLsbD_carry _ hi, if_pos (by omega), getLsbD_carry bits (by omega), if_pos hi]

/-- Between two conversions of one kind nothing is lost, if there is room for all bits. -/
theorem carry_carry {k : Word.Format} (h : f.width ≤ g.width) (bits : BitVec f.width) :
    change.carry k (change.carry g bits) = change.carry k bits := by
  have hzero : (bits.setWidth g.width).setWidth k.width = bits.setWidth k.width :=
    BitVec.setWidth_setWidth (by omega)
  cases change with
  | signExt =>
    have hnumber : (bits.signExtend g.width).toInt = bits.toInt := BitVec.toInt_signExtend_of_le h
    rw [carry, carry, carry, BitVec.signExtend, hnumber, BitVec.signExtend]
  | zeroExt => exact hzero
  | trunc => exact hzero

/-- The number of the converted literal. -/
def converted (change : WidthChange) (f g : Word.Format) (a : Int) : Int :=
  g.read (change.carry g (f.bits a))

theorem converted_eq (a : Int) : change.converted f g a = g.wrap (change.read f.width a) := by
  rw [converted, ← g.read_ofInt, ofInt_read]

theorem bits_converted (a : Int) :
    g.bits (change.converted f g a) = change.carry g (f.bits a) := by
  rw [converted_eq, Word.Format.bits, g.ofInt_wrap, ofInt_read]

/-- What a conversion gives is cut down to the literal that it was given. -/
theorem trunc_converted (h : f.width ≤ g.width) (a : Int) :
    trunc.converted g f (change.converted f g a) = f.canonical a := by
  rw [converted, bits_converted, trunc_carry h]
  rfl

/-- Two conversions of one kind give what the second gives alone. -/
theorem converted_converted {k : Word.Format} (h : f.width ≤ g.width) (a : Int) :
    change.converted g k (change.converted f g a) = change.converted f k a := by
  rw [converted, bits_converted, carry_carry h]
  rfl

end WidthChange

/-- A literal is folded through any conversion.  The limits matter only if one of the two types is
too wide for them. -/
theorem Expr.foldsAt_convert {H : Bytes → Bytes} (change : WidthChange) (f g : Word.Format)
    (a : Int) :
    (f.convert change a g).FoldsAt H (max f.width g.width)
      (.number g.type (change.converted f g a)) := by
  refine foldsAt_of_fits ?_ fun h => ?_
  · simp only [Word.Format.convert, fold, fold?, Operand.literal?, WidthChange.literal?,
      f.intTy?_type, g.intTy?_type, f.format_intTy, g.format_intTy, WidthChange.converted_eq]
    rfl
  · simp only [Word.Format.convert, fits, f.format?_type, g.format?_type]
    exact change.fits_of_le (by omega) (by omega) a

/-- Conversions of integer literals.  Every conversion is folded to the literal of the new type
whose number is in range and whose bits are those of the old one, as many as there is room for, with
the sign bit or zeros above them.  If the new type is not narrower, cutting the result down to the
old type gives the literal that was converted, with its number in range; and converting the result
to a third type in the same way is folded to the same literal as converting to that type at once. -/
theorem width_changes_fold_and_compose (H : Bytes → Bytes) (f g : Word.Format) (a : Int)
    (change : WidthChange) :
    ∃ b, (f.convert change a g).FoldsAt H (max f.width g.width) (.number g.type b) ∧
      g.Represents b ∧ g.bits b = change.carry g (f.bits a) ∧
      (∀ i < g.width, (g.bits b).getLsbD i =
        if i < f.width then (f.bits a).getLsbD i else change.filling (f.bits a)) ∧
      (f.width ≤ g.width →
        (g.convert .trunc b f).FoldsAt H (max g.width f.width) (.number f.type (f.canonical a)) ∧
        ∀ k : Word.Format, ∃ c,
          (g.convert change b k).FoldsAt H (max g.width k.width) (.number k.type c) ∧
          (f.convert change a k).FoldsAt H (max f.width k.width) (.number k.type c)) := by
  have hbits := change.bits_converted (f := f) (g := g) a
  refine ⟨change.converted f g a, Expr.foldsAt_convert change f g a, g.represents_read _, hbits,
    fun i hi => ?_, fun h => ⟨?_, fun k => ?_⟩⟩
  · rw [hbits, WidthChange.getLsbD_carry _ hi]
  · have hback := Expr.foldsAt_convert (H := H) .trunc g f (change.converted f g a)
    rwa [WidthChange.trunc_converted h] at hback
  · have htwice := Expr.foldsAt_convert (H := H) change g k (change.converted f g a)
    rw [WidthChange.converted_converted h] at htwice
    exact ⟨_, htwice, Expr.foldsAt_convert change f k a⟩

/-- Minus 56, written out of the range of eight bits, is extended to sixteen bits without sign.  Cut
down it is minus 56 again, and it is extended on to minus 56 as well. -/
theorem width_changes_fold_and_compose_minus :
    ∃ b, (Expr.widthChange .signExt (.number (.int 8) 200) (.uint 16)).FoldsAt Keccak.digest 16
        (.number (.uint 16) b) ∧ b = 65480 ∧
      (Expr.widthChange .trunc (.number (.uint 16) b) (.int 8)).FoldsAt Keccak.digest 16
        (.number (.int 8) (-56)) ∧
      ∃ c, (Expr.widthChange .signExt (.number (.uint 16) b) (.int 32)).FoldsAt Keccak.digest 32
          (.number (.int 32) c) ∧
        (Expr.widthChange .signExt (.number (.int 8) 200) (.int 32)).FoldsAt Keccak.digest 32
          (.number (.int 32) c) := by
  obtain ⟨b, hfold, -, -, -, hcompose⟩ :=
    width_changes_fold_and_compose Keccak.digest ⟨true, 8⟩ ⟨false, 16⟩ 200 .signExt
  obtain ⟨hback, htwice⟩ := hcompose (by decide)
  have hnumber : Expr.number (.uint 16) b = .number (.uint 16) 65480 :=
    Except.ok.inj (hfold.1.symm.trans (by decide))
  have hb : b = 65480 := by simpa using hnumber
  exact ⟨b, hfold, hb, hback, htwice ⟨true, 32⟩⟩

end ContractIR
