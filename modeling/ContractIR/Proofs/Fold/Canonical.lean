import ContractIR.Proofs.Fold.Power
import ContractIR.Proofs.Fold.Rewrite

/-!
# ContractIR.Proofs.Fold.Canonical — folded numbers are in range

A number that comes out of folding is the value of an operator on words or a word carried over to
another type (`Expr.YieldsNumber`).  Both are in the range of their type, with one exception: zero
to the power of zero is one, and one does not fit into a single signed bit.

* `Expr.yieldsNumber_of_fold?`: where a folded number comes from.
* `Expr.YieldsNumber.represents`: what comes from there is in range.
* `Expr.folded_number_in_range`: both together, for folding with and without limits.
-/

namespace ContractIR

/-! ### Integer types and formats -/

/-- If the type is an integer type, its width satisfies `P`. -/
def Ty.HasWidth (P : Int → Prop) (t : Ty) : Prop := ∀ i, t.intTy? = some i → P i.width

/-- The widths of the integer types of number operands, and of the type to which a word is carried
over, satisfy `P`. -/
structure Expr.HasWidths (P : Int → Prop) (e : Expr) : Prop where
  operands : ∀ t v, .number t v ∈ e.operands → t.HasWidth P
  target : ∀ change o t, e = .widthChange change o t → t.HasWidth P

/-- The type of words of a format, from the way the format is found. -/
theorem Ty.eq_type_of_format {t : Ty} {i : IntTy} {f : Word.Format} (hi : t.intTy? = some i)
    (hf : i.format = .ok f) : t = f.type := by
  simp only [IntTy.format, bind_eq_ok_iff, pure_eq_ok_iff, IntTy.checkWidth] at hf
  obtain ⟨w, hw, rfl⟩ := hf
  split at hw
  · rename_i hnonneg
    obtain rfl := Except.ok.inj hw
    have hwidth : ((i.width.toNat : Nat) : Int) = i.width := Int.toNat_of_nonneg hnonneg
    cases t with
    | int width =>
      obtain rfl := Option.some.inj hi
      simp only [Word.Format.type, if_true, hwidth]
    | uint width =>
      obtain rfl := Option.some.inj hi
      simp only [Word.Format.type, Bool.false_eq_true, if_false, hwidth]
    | _ => cases hi
  · cases hw

theorem Ty.eq_type_of_format? {t : Ty} {f : Word.Format} (h : t.format? = some f) : t = f.type := by
  obtain ⟨i, hi, hf⟩ := Option.bind_eq_some_iff.1 h
  cases hformat : i.format with
  | error d =>
    rw [hformat] at hf
    cases hf
  | ok g =>
    rw [hformat] at hf
    obtain rfl := Option.some.inj hf
    exact eq_type_of_format hi hformat

namespace Word.Format

variable {f : Format}

theorem hasWidth_type {P : Int → Prop} (h : f.type.HasWidth P) : P f.width := h _ f.intTy?_type

/-- A format is found again from its type. -/
theorem eq_of_type_eq {g : Format} (h : f.type = g.type) : f = g := by
  have hformat := f.format?_type
  rw [h, format?_type] at hformat
  exact (Option.some.inj hformat).symm

theorem wrap_eq_zero_iff {n : Int} : f.wrap n = 0 ↔ (2 ^ f.width : Int) ∣ n := by
  rw [← BinaryOp.bits_eq_zero_iff]
  constructor
  · intro h
    calc f.bits n = f.bits (f.wrap n) := (f.ofInt_wrap n).symm
      _ = f.bits 0 := by rw [h]
      _ = 0 := BitVec.ofInt_ofNat f.width 0
  · intro h
    rw [← f.canonical_eq, canonical, h, read]
    split <;> simp

end Word.Format

/-! ### Where numbers come from -/

namespace Expr

/-- The expression stands for the number in the format: an operator on words has it as its value, or
a word that is carried over becomes it. -/
inductive YieldsNumber : Expr → Word.Format → Int → Prop
  | binary {op : BinaryOp} {f : Word.Format} {a b v : Int} :
      op.evaluate? f a b = some v → YieldsNumber (f.binary op a b) f v
  | unary {op : UnaryOp} {f : Word.Format} {a v : Int} :
      op.evaluate? f a = some v → YieldsNumber (f.unary op a) f v
  | carried {change : WidthChange} {f g : Word.Format} {a : Int} :
      YieldsNumber (.widthChange change (.number g.type a) f.type) f
        (f.wrap (change.read g.width a))

variable {H : Bytes → Bytes} {e : Expr} {t : Ty} {v : Int}

theorem yieldsNumber_binary {op : BinaryOp} {l r : Literal}
    (h : op.literal? l r = .ok (some (.number t v))) :
    ∃ f, t = f.type ∧ YieldsNumber (.binary op (.literal l) (.literal r)) f v := by
  cases l with
  | bool a =>
    cases r with
    | bool b =>
      obtain ⟨c, -, hc⟩ := Option.map_eq_some_iff.1 (Except.ok.inj h)
      cases hc
    | number s' b => cases h
  | number s a =>
    cases r with
    | bool b => cases h
    | number s' b =>
      simp only [BinaryOp.literal?] at h
      split at h
      · cases h
      · rename_i i hi
        split at h
        · rename_i hequals
          obtain rfl := Ty.equals_iff.1 hequals
          simp only [bind_eq_ok_iff, pure_eq_ok_iff] at h
          obtain ⟨f, hf, hnumber⟩ := h
          obtain rfl := Ty.eq_type_of_format hi hf
          unfold BinaryOp.number? at hnumber
          split at hnumber
          · cases hnumber
          · obtain ⟨v', hv, hliteral⟩ := Option.map_eq_some_iff.1 hnumber
            obtain ⟨rfl, rfl⟩ := Literal.number.inj hliteral
            exact ⟨f, rfl, .binary hv⟩
        · cases h

theorem yieldsNumber_unary {op : UnaryOp} {l : Literal}
    (h : op.literal? l = .ok (some (.number t v))) :
    ∃ f, t = f.type ∧ YieldsNumber (.unary op (.literal l)) f v := by
  cases l with
  | bool a => cases op <;> cases h
  | number s a =>
    simp only [UnaryOp.literal?] at h
    split at h
    · rename_i i _ hi
      simp only [bind_eq_ok_iff, pure_eq_ok_iff] at h
      obtain ⟨f, hf, hnumber⟩ := h
      obtain rfl := Ty.eq_type_of_format hi hf
      obtain ⟨v', hv, hliteral⟩ := Option.map_eq_some_iff.1 hnumber
      obtain ⟨rfl, rfl⟩ := Literal.number.inj hliteral
      exact ⟨f, rfl, .unary hv⟩
    · cases h

theorem yieldsNumber_widthChange {change : WidthChange} {type : Ty} {l : Literal}
    (h : change.literal? type l = .ok (some (.number t v))) :
    ∃ f, t = f.type ∧ YieldsNumber (.widthChange change (.literal l) type) f v := by
  cases l with
  | bool a => cases h
  | number s a =>
    simp only [WidthChange.literal?] at h
    split at h
    · rename_i i j hi hj
      simp only [bind_eq_ok_iff, pure_eq_ok_iff, Option.some.injEq, Literal.number.injEq] at h
      obtain ⟨g, hg, f, hf, rfl, rfl⟩ := h
      obtain rfl := Ty.eq_type_of_format hi hg
      obtain rfl := Ty.eq_type_of_format hj hf
      exact ⟨f, rfl, .carried⟩
    · cases h

/-- A number that an expression is folded to has an integer type, and the expression stands for
it. -/
theorem yieldsNumber_of_fold? (h : e.fold? H = .ok (some (.number t v))) :
    ∃ f, t = f.type ∧ e.YieldsNumber f v := by
  have hliteral {x : Except NumericError (Option Literal)}
      (hx : (do return (← x).map Expr.literal) = Except.ok (some (.number t v))) :
      x = .ok (some (.number t v)) := by
    simp only [bind_eq_ok_iff, pure_eq_ok_iff] at hx
    obtain ⟨c, hc, hsome⟩ := hx
    obtain ⟨l, rfl, hl⟩ := Option.map_eq_some_iff.1 hsome
    rwa [Expr.literal.inj hl] at hc
  unfold fold? at h
  split at h
  · split at h
    · rename_i l r hl hr
      rw [Operand.eq_literal_of_literal? hl, Operand.eq_literal_of_literal? hr]
      exact yieldsNumber_binary (hliteral h)
    · cases h
  · split at h
    · rename_i l hl
      rw [Operand.eq_literal_of_literal? hl]
      exact yieldsNumber_unary (hliteral h)
    · cases h
  · split at h
    · rename_i l hl
      rw [Operand.eq_literal_of_literal? hl]
      exact yieldsNumber_widthChange (hliteral h)
    · cases h
  · simp only [bind_eq_ok_iff, pure_eq_ok_iff, Option.map_eq_some_iff] at h
    obtain ⟨_, -, bytes, -, hdigest⟩ := h
    cases hdigest
  · cases h
  · cases h
  · cases h

theorem YieldsNumber.hasWidth {f : Word.Format} {P : Int → Prop} (h : e.YieldsNumber f v)
    (he : e.HasWidths P) : P f.width := by
  refine Word.Format.hasWidth_type ?_
  cases h with
  | binary => exact he.operands _ _ List.mem_cons_self
  | unary => exact he.operands _ _ List.mem_cons_self
  | carried => exact he.target _ _ _ rfl

end Expr

/-! ### Numbers in range -/

namespace BinaryOp

variable {f : Word.Format} {a b v : Int}

/-- A power is in range if one is; only a single signed bit has no one. -/
theorem represents_of_power {overflowing : Bool} (hw : 1 ≤ f.width)
    (hone : overflowing = true → f.signed = true → 2 ≤ f.width)
    (h : power overflowing f (f.wrap a) (f.wrap b) = some v) : f.Represents v := by
  cases overflowing with
  | false =>
    obtain rfl := Option.some.inj h
    exact f.represents_wrap _
  | true =>
    rw [power_overflowing f a b hw (hone rfl)] at h
    simp only [Option.ite_none_right_eq_some, Option.some.injEq] at h
    obtain ⟨⟨hbase, -, hmax⟩, rfl⟩ := h
    exact f.represents_of_le_max hw (Int.pow_nonneg hbase) hmax

/-- In a single signed bit there is no number above zero, so the only power to be tried is that of
zero to zero. -/
theorem even_of_power_oneBit (h : power true ⟨true, 1⟩ (Word.Format.wrap ⟨true, 1⟩ a)
    (Word.Format.wrap ⟨true, 1⟩ b) = some v) : 2 ∣ a ∧ 2 ∣ b := by
  have hrange (n : Int) : -2 ≤ 2 * Word.Format.wrap ⟨true, 1⟩ n ∧
      2 * Word.Format.wrap ⟨true, 1⟩ n < 2 := Word.Format.represents_wrap ⟨true, 1⟩ n
  simp only [power, if_true] at h
  split at h
  · cases h
  · rename_i hneg
    have ha := hrange a
    have hb := hrange b
    have hbase : Word.Format.wrap ⟨true, 1⟩ a = 0 := by omega
    have hexponent : Word.Format.wrap ⟨true, 1⟩ b = 0 := by omega
    exact ⟨Word.Format.wrap_eq_zero_iff.1 hbase, Word.Format.wrap_eq_zero_iff.1 hexponent⟩

end BinaryOp

namespace Expr

/-- Zero to the power of zero in a single signed bit, with overflow as a trap. -/
def OneBitPower (e : Expr) : Prop :=
  ∃ a b, e = .binary (.pow true) (.number (.int 1) a) (.number (.int 1) b) ∧ 2 ∣ a ∧ 2 ∣ b

variable {H : Bytes → Bytes} {e : Expr} {f : Word.Format} {v : Int}

theorem YieldsNumber.represents (h : e.YieldsNumber f v) (hw : 1 ≤ f.width)
    (he : ¬ e.OneBitPower) : f.Represents v := by
  cases h with
  | @binary op f a b v hv =>
    cases hop : op.isPlain with
    | true => exact BinaryOp.represents_of_evaluate? hop hv
    | false =>
      cases op with
      | pow overflowing =>
        refine BinaryOp.represents_of_power hw (fun hoverflowing hsigned => ?_) hv
        by_contra hnarrow
        obtain rfl : f = ⟨true, 1⟩ := by
          obtain ⟨signed, width⟩ := f
          simp only [Word.Format.mk.injEq]
          exact ⟨hsigned, by dsimp only at hw hnarrow; omega⟩
        subst hoverflowing
        exact he ⟨a, b, rfl, BinaryOp.even_of_power_oneBit hv⟩
      | unknown kind => cases hv
      | _ => cases hop
  | @unary op f a v hv =>
    cases op with
    | neg overflowing => exact BinaryOp.represents_of_checked hv
    | bitNot => exact Option.some.inj hv ▸ f.represents_wrap _
    | _ => cases hv
  | carried => exact f.represents_wrap _

theorem OneBitPower.fold_eq (h : e.OneBitPower) : e.fold H = .ok (.number (.int 1) 1) := by
  obtain ⟨a, b, rfl, ha, hb⟩ := h
  have hzero {n : Int} (hn : 2 ∣ n) : Word.Format.wrap ⟨true, 1⟩ n = 0 :=
    Word.Format.wrap_eq_zero_iff.2 hn
  have hpower : (BinaryOp.pow true).number? (.int 1) ⟨true, 1⟩ a b = some (.number (.int 1) 1) := by
    have hnumber : (BinaryOp.pow true).number? (.int 1) ⟨true, 1⟩ a b =
        (BinaryOp.power true ⟨true, 1⟩ (Word.Format.wrap ⟨true, 1⟩ a)
          (Word.Format.wrap ⟨true, 1⟩ b)).map (.number (.int 1)) := rfl
    rw [hnumber, hzero ha, hzero hb, BinaryOp.power, if_pos rfl, if_neg (by omega), Word.boundedPow,
      Word.boundedPowLoop]
    rfl
  have hfold := (foldsAt_number? (H := H) (f := ⟨true, 1⟩) (a := a) (b := b) (.pow true)).1
  rw [show Word.Format.type ⟨true, 1⟩ = .int 1 from rfl, hpower] at hfold
  exact hfold

/-- A number that an expression with integer types of at least one bit is folded to has an integer
type and is in the range of that type, except for the one that zero to the power of zero gives in a
single signed bit. -/
theorem folded_number_in_range {t : Ty} (he : e.HasWidths (1 ≤ ·))
    (h : e.fold H = .ok (.number t v) ∨ e.foldWithin H = .ok (.number t v))
    (hne : e ≠ .number t v) :
    ∃ f : Word.Format, t = f.type ∧ 1 ≤ f.width ∧
      (¬ e.OneBitPower → f.Represents v ∧ f.wrap v = v) ∧
      (e.OneBitPower → t = .int 1 ∧ v = 1 ∧ ¬ f.Represents v) := by
  have hfold : e.fold H = .ok (.number t v) := h.elim id fold_of_foldWithin
  obtain ⟨r, hr, hvalue⟩ := bind_eq_ok_iff.1 hfold
  rw [pure_eq_ok_iff] at hvalue
  cases r with
  | none => exact absurd hvalue hne
  | some e' =>
    obtain rfl : e' = .number t v := hvalue
    obtain ⟨f, rfl, hyields⟩ := yieldsNumber_of_fold? hr
    have hw : 1 ≤ f.width := Int.ofNat_le.1 (hyields.hasWidth he)
    refine ⟨f, rfl, hw, fun hpower => ?_, fun hpower => ?_⟩
    · have hrange := hyields.represents hw hpower
      exact ⟨hrange, f.wrap_eq_self_iff.2 hrange⟩
    · have hone := hpower.fold_eq.symm.trans hfold
      simp only [Except.ok.injEq, Expr.literal.injEq, Literal.number.injEq] at hone
      obtain ⟨htype, rfl⟩ := hone
      obtain rfl : ⟨true, 1⟩ = f := Word.Format.eq_of_type_eq htype
      exact ⟨rfl, rfl, by decide⟩

/-- The least number of eight bits, written as a number out of range, is its own negation. -/
theorem folded_number_in_range_least :
    ∃ f : Word.Format, Ty.int 8 = f.type ∧ 1 ≤ f.width ∧
      (¬ OneBitPower (.unary (.neg false) (.number (.int 8) 128)) →
        f.Represents (-128) ∧ f.wrap (-128) = -128) ∧
      (OneBitPower (.unary (.neg false) (.number (.int 8) 128)) →
        Ty.int 8 = .int 1 ∧ (-128 : Int) = 1 ∧ ¬ f.Represents (-128)) := by
  refine folded_number_in_range (H := Keccak.digest) ⟨fun t v hmem i hi => ?_, by simp⟩
    (.inr (by decide)) (by decide)
  obtain ⟨rfl, rfl⟩ : t = .int 8 ∧ v = 128 := by simpa [operands] using hmem
  obtain rfl := Option.some.inj hi
  decide

/-- In a single signed bit, zero to the power of zero is folded to one, although its overflow is a
trap; the bit would be read as minus one. -/
theorem folded_number_out_of_range :
    let e : Expr := .binary (.pow true) (.number (.int 1) 0) (.number (.int 1) 0)
    e.HasWidths (1 ≤ ·) ∧ e.fold Keccak.digest = .ok (.number (.int 1) 1) ∧
      e.foldWithin Keccak.digest = .ok (.number (.int 1) 1) ∧ e ≠ .number (.int 1) 1 ∧
      Ty.int 1 = Word.Format.type ⟨true, 1⟩ ∧
      ¬ Word.Format.Represents ⟨true, 1⟩ 1 ∧ Word.Format.wrap ⟨true, 1⟩ 1 = -1 := by
  intro e
  have hfold : e.fold Keccak.digest = .ok (.number (.int 1) 1) :=
    OneBitPower.fold_eq ⟨0, 0, rfl, by decide, by decide⟩
  have hfits : e.fits = true := by decide
  refine ⟨⟨fun t v hmem i hi => ?_, by simp [e]⟩, hfold, ?_, by decide, rfl, by decide, by decide⟩
  · obtain ⟨rfl, rfl⟩ : t = .int 1 ∧ v = 0 := by simpa [e, operands] using hmem
    obtain rfl := Option.some.inj hi
    decide
  · rw [foldWithin, if_pos hfits, hfold]

end Expr

end ContractIR
