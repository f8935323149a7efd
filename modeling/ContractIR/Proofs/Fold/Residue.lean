import ContractIR.Proofs.Fold.Canonical
import ContractIR.Proofs.Fold.Fixpoint

/-!
# ContractIR.Proofs.Fold.Residue — only the residues of literals count

Adding a multiple of the number of words to an integer literal leaves its bits as they are.  The
folder reads literals through their bits alone, so it cannot tell the two apart: whatever multiples
are added to the operands of an expression, folding gives the same result.

* `BinaryOp.literal?_shifts`, `UnaryOp.literal?_shifts`, `WidthChange.literal?_shifts`,
  `Operand.encodeAll_shifts`: one kind of expression each.
* `Expr.fold?_shifts`: all of them.
* `Expr.fits_shifts`: what is refused for its size does not depend on the multiples either.
-/

namespace ContractIR

/-! ### Shifted operands -/

/-- The same literal, or one of the same integer type to which a multiple of the number of words has
been added. -/
inductive Literal.Shifts : Literal → Literal → Prop
  | same (l : Literal) : Shifts l l
  | number (f : Word.Format) {a a' : Int} (k : Int) :
      a' = a + k * 2 ^ f.width → Shifts (.number f.type a) (.number f.type a')

/-- The same operand, or shifted literals. -/
inductive Operand.Shifts : Operand → Operand → Prop
  | same (o : Operand) : Shifts o o
  | literal {l l' : Literal} : l.Shifts l' → Shifts (.literal l) (.literal l')

/-- An expression of a kind that can be folded on literals, and the same one on shifted operands. -/
inductive Expr.Shifts : Expr → Expr → Prop
  | binary (op : BinaryOp) {left left' right right' : Operand} :
      left.Shifts left' → right.Shifts right' →
      Shifts (.binary op left right) (.binary op left' right')
  | unary (op : UnaryOp) {operand operand' : Operand} :
      operand.Shifts operand' → Shifts (.unary op operand) (.unary op operand')
  | widthChange (change : WidthChange) {operand operand' : Operand} (type : Ty) :
      operand.Shifts operand' →
      Shifts (.widthChange change operand type) (.widthChange change operand' type)
  | keccak256 {args args' : List Operand} :
      List.Forall₂ Operand.Shifts args args' → Shifts (.keccak256 args) (.keccak256 args')

namespace Word

theorem bits_shift (f : Format) (a k : Int) : f.bits (a + k * 2 ^ f.width) = f.bits a := by
  have hzero : f.bits (k * 2 ^ f.width) = 0 := BinaryOp.bits_eq_zero_iff.2 (Int.dvd_mul_left _ _)
  calc f.bits (a + k * 2 ^ f.width) = f.bits a + f.bits (k * 2 ^ f.width) := BitVec.ofInt_add _ _
    _ = f.bits a := by rw [hzero]; exact BitVec.add_zero _

variable {w : Nat} {a a' : Int}

theorem unsigned_congr (h : BitVec.ofInt w a = BitVec.ofInt w a') :
    unsigned w a = unsigned w a' := by
  rw [← toNat_ofInt, h, toNat_ofInt]

theorem signed_congr (h : BitVec.ofInt w a = BitVec.ofInt w a') : signed w a = signed w a' := by
  rw [← toInt_ofInt, h, toInt_ofInt]

end Word

/-- Shifted literals are the same truth value, or numbers of one type with the same bits. -/
theorem Literal.Shifts.cases {l l' : Literal} (h : l.Shifts l') :
    (∃ c, l = .bool c ∧ l' = .bool c) ∨
      ∃ t a a', l = .number t a ∧ l' = .number t a' ∧
        ∀ f, t.format? = some f → ∃ k, a' = a + k * 2 ^ f.width := by
  cases h with
  | same l =>
    cases l with
    | bool c => exact .inl ⟨c, rfl, rfl⟩
    | number t a => exact .inr ⟨t, a, a, rfl, rfl, fun f _ => ⟨0, by rw [zero_mul, add_zero]⟩⟩
  | @number f a a' k hk =>
    refine .inr ⟨f.type, a, a', rfl, rfl, fun g hg => ⟨k, ?_⟩⟩
    rw [f.format?_type] at hg
    rw [hk, Option.some.inj hg]

/-! ### Literals -/

section Literals

variable {f : Word.Format} {a a' b b' : Int} {l l' r r' : Literal}

theorem BinaryOp.number?_congr (op : BinaryOp) (type : Ty) (ha : f.bits a' = f.bits a)
    (hb : f.bits b' = f.bits b) : op.number? type f a' b' = op.number? type f a b := by
  simp only [number?, compare?, evaluate?, Word.unsigned_congr ha, Word.unsigned_congr hb,
    Word.signed_congr ha, Word.signed_congr hb, f.wrap_congr ha, f.wrap_congr hb]

theorem UnaryOp.evaluate?_congr (op : UnaryOp) (ha : f.bits a' = f.bits a) :
    op.evaluate? f a' = op.evaluate? f a := by
  simp only [evaluate?, Word.unsigned_congr ha, f.wrap_congr ha]

theorem WidthChange.read_congr (change : WidthChange) (ha : f.bits a' = f.bits a) :
    change.read f.width a' = change.read f.width a := by
  simp only [read, Word.unsigned_congr ha, Word.signed_congr ha]

/-- Where an integer type has a format, shifted numbers have the same bits. -/
theorem bits_eq_of_format {t : Ty} {i : IntTy}
    (h : ∀ f, t.format? = some f → ∃ k, a' = a + k * 2 ^ f.width) (hi : t.intTy? = some i)
    (hf : i.format = .ok f) : f.bits a' = f.bits a := by
  have hformat : t.format? = some f := by
    rw [Ty.format?, hi, Option.bind_some, hf]
    rfl
  obtain ⟨k, rfl⟩ := h f hformat
  exact Word.bits_shift f a k

theorem BinaryOp.literal?_shifts (op : BinaryOp) (hl : l.Shifts l') (hr : r.Shifts r') :
    op.literal? l' r' = op.literal? l r := by
  rcases hl.cases with ⟨c, rfl, rfl⟩ | ⟨t, a, a', rfl, rfl, ha⟩ <;>
    rcases hr.cases with ⟨d, rfl, rfl⟩ | ⟨u, b, b', rfl, rfl, hb⟩
  · rfl
  · rfl
  · rfl
  · simp only [literal?]
    split
    · rfl
    · rename_i i hi
      split
      · rename_i hequals
        obtain rfl := Ty.equals_iff.1 hequals
        cases hf : i.format with
        | error d => rfl
        | ok f =>
          have hleft := bits_eq_of_format ha hi hf
          have hright := bits_eq_of_format hb hi hf
          have hnumber := op.number?_congr t hleft hright
          exact congrArg Except.ok hnumber
      · rfl

theorem UnaryOp.literal?_shifts (op : UnaryOp) (hl : l.Shifts l') :
    op.literal? l' = op.literal? l := by
  rcases hl.cases with ⟨c, rfl, rfl⟩ | ⟨t, a, a', rfl, rfl, ha⟩
  · rfl
  · simp only [literal?]
    split
    · rename_i i _ hi
      cases hf : i.format with
      | error d => rfl
      | ok f =>
        have hvalue := op.evaluate?_congr (bits_eq_of_format ha hi hf)
        exact congrArg (fun v => Except.ok (v.map (Literal.number t))) hvalue
    · rfl

theorem WidthChange.literal?_shifts (change : WidthChange) (type : Ty) (hl : l.Shifts l') :
    change.literal? type l' = change.literal? type l := by
  rcases hl.cases with ⟨c, rfl, rfl⟩ | ⟨t, a, a', rfl, rfl, ha⟩
  · rfl
  · simp only [literal?]
    split
    · rename_i i j hi hj
      cases hf : i.format with
      | error d => rfl
      | ok f =>
        have hread := change.read_congr (bits_eq_of_format ha hi hf)
        simp only [bind, Except.bind, hread]
    · rfl

theorem Literal.encode_shifts (hl : l.Shifts l') : l'.encode = l.encode := by
  rcases hl.cases with ⟨c, rfl, rfl⟩ | ⟨t, a, a', rfl, rfl, ha⟩
  · rfl
  · simp only [encode]
    split
    · rfl
    · rename_i i hi
      split
      · rfl
      · cases hf : i.format with
        | error d => rfl
        | ok f =>
          have hunsigned := Word.unsigned_congr (bits_eq_of_format ha hi hf)
          simp only [bind, Except.bind, hunsigned]

end Literals

/-! ### Expressions -/

namespace Operand

variable {o o' : Operand} {os os' : List Operand}

/-- Shifted operands are shifted literals, or the same and no literals. -/
theorem Shifts.cases (h : o.Shifts o') :
    (∃ l l', o = .literal l ∧ o' = .literal l' ∧ l.Shifts l') ∨ o' = o ∧ o.literal? = none := by
  cases h with
  | same o =>
    cases o with
    | literal l => exact .inl ⟨l, l, rfl, rfl, .same l⟩
    | var id => exact .inr ⟨rfl, rfl⟩
    | unknown kind => exact .inr ⟨rfl, rfl⟩
  | @literal l l' hl => exact .inl ⟨l, l', rfl, rfl, hl⟩

/-- Shifted operands are numbers of one type, or the same. -/
theorem Shifts.number_or_same (h : o.Shifts o') :
    (∃ t a a', o = .number t a ∧ o' = .number t a' ∧
        ∀ f, t.format? = some f → ∃ k, a' = a + k * 2 ^ f.width) ∨
      o' = o ∧ ∀ t a, o ≠ .number t a := by
  rcases h.cases with ⟨l, l', rfl, rfl, hl⟩ | ⟨rfl, hnone⟩
  · rcases hl.cases with ⟨c, rfl, rfl⟩ | ⟨t, a, a', rfl, rfl, ha⟩
    · exact .inr ⟨rfl, by simp⟩
    · exact .inl ⟨t, a, a', rfl, rfl, ha⟩
  · refine .inr ⟨rfl, ?_⟩
    rintro t a rfl
    cases hnone

theorem encode_shifts (h : o.Shifts o') : o'.encode = o.encode := by
  rcases h.cases with ⟨l, l', rfl, rfl, hl⟩ | ⟨rfl, -⟩
  · exact Literal.encode_shifts hl
  · rfl

theorem encodeAll_shifts (h : List.Forall₂ Shifts os os') : encodeAll os' = encodeAll os := by
  induction h with
  | nil => rfl
  | cons ho _ ih => simp only [encodeAll, encode_shifts ho, ih]

end Operand

namespace Expr

variable {H : Bytes → Bytes} {e e' : Expr}

/-- Folding finds the same replacement for an expression and for the same one on shifted operands,
or fails alike. -/
theorem fold?_shifts (h : e.Shifts e') : e'.fold? H = e.fold? H := by
  cases h with
  | binary op hleft hright =>
    rcases hleft.cases with ⟨l, l', rfl, rfl, hl⟩ | ⟨rfl, hnone⟩
    · rcases hright.cases with ⟨r, r', rfl, rfl, hr⟩ | ⟨rfl, hnone⟩
      · simp only [fold?, Operand.literal?, op.literal?_shifts hl hr]
      · simp only [fold?, hnone]
        rfl
    · simp only [fold?, hnone]
  | unary op ho =>
    rcases ho.cases with ⟨l, l', rfl, rfl, hl⟩ | ⟨rfl, -⟩
    · simp only [fold?, Operand.literal?, op.literal?_shifts hl]
    · rfl
  | widthChange change type ho =>
    rcases ho.cases with ⟨l, l', rfl, rfl, hl⟩ | ⟨rfl, -⟩
    · simp only [fold?, Operand.literal?, change.literal?_shifts type hl]
    · rfl
  | keccak256 hargs => simp only [fold?, Operand.encodeAll_shifts hargs]

end Expr

/-! ### Success -/

section Success

variable {l r : Literal}

/-- The number that the literal is, if it is one, has a type whose width satisfies `P`. -/
def Literal.HasWidth (P : Int → Prop) (l : Literal) : Prop := ∀ t v, l = .number t v → t.HasWidth P

theorem IntTy.exists_format {i : IntTy} (h : 0 ≤ i.width) : ∃ f, i.format = .ok f :=
  ⟨⟨i.signed, i.width.toNat⟩, by rw [format, checkWidth, if_pos h]; rfl⟩

theorem BinaryOp.exists_literal? (op : BinaryOp) (hl : l.HasWidth (0 ≤ ·)) :
    ∃ c, op.literal? l r = .ok c := by
  cases l with
  | bool a => cases r <;> exact ⟨_, rfl⟩
  | number t a =>
    cases r with
    | bool b => exact ⟨_, rfl⟩
    | number u b =>
      simp only [literal?]
      split
      · exact ⟨_, rfl⟩
      · rename_i i hi
        split
        · obtain ⟨f, hf⟩ := IntTy.exists_format (hl t a rfl i hi)
          exact ⟨op.number? t f a b, by rw [hf]; rfl⟩
        · exact ⟨_, rfl⟩

theorem UnaryOp.exists_literal? (op : UnaryOp) (hl : l.HasWidth (0 ≤ ·)) :
    ∃ c, op.literal? l = .ok c := by
  cases l with
  | bool a => cases op <;> exact ⟨_, rfl⟩
  | number t a =>
    simp only [literal?]
    split
    · rename_i i _ hi
      obtain ⟨f, hf⟩ := IntTy.exists_format (hl t a rfl i hi)
      exact ⟨(op.evaluate? f a).map (.number t), by rw [hf]; rfl⟩
    · exact ⟨_, rfl⟩

theorem WidthChange.exists_literal? (change : WidthChange) {type : Ty}
    (ht : type.HasWidth (0 ≤ ·)) (hl : l.HasWidth (0 ≤ ·)) :
    ∃ c, change.literal? type l = .ok c := by
  cases l with
  | bool a => exact ⟨_, rfl⟩
  | number t a =>
    simp only [literal?]
    split
    · rename_i i j hi hj
      obtain ⟨f, hf⟩ := IntTy.exists_format (hl t a rfl i hi)
      obtain ⟨g, hg⟩ := IntTy.exists_format (ht j hj)
      exact ⟨_, by rw [hf, hg]; rfl⟩
    · exact ⟨_, rfl⟩

theorem Literal.exists_encode (hl : l.HasWidth (0 ≤ ·)) : ∃ bytes, l.encode = .ok bytes := by
  cases l with
  | bool a => exact ⟨_, rfl⟩
  | number t a =>
    simp only [encode]
    split
    · exact ⟨_, rfl⟩
    · rename_i i hi
      split
      · exact ⟨_, rfl⟩
      · obtain ⟨f, hf⟩ := IntTy.exists_format (hl t a rfl i hi)
        exact ⟨_, by rw [hf]; rfl⟩

theorem Operand.exists_encodeAll {os : List Operand}
    (h : ∀ l, .literal l ∈ os → l.HasWidth (0 ≤ ·)) : ∃ bytes, encodeAll os = .ok bytes := by
  induction os with
  | nil => exact ⟨_, rfl⟩
  | cons o os ih =>
    obtain ⟨rest, hrest⟩ := ih fun l hl => h l (List.mem_cons_of_mem o hl)
    have ho : ∃ bytes, o.encode = .ok bytes := by
      cases o with
      | literal l => exact Literal.exists_encode (h l List.mem_cons_self)
      | var id => exact ⟨_, rfl⟩
      | unknown kind => exact ⟨_, rfl⟩
    obtain ⟨bytes, hbytes⟩ := ho
    rw [encodeAll, hbytes]
    cases bytes with
    | none => exact ⟨_, rfl⟩
    | some bytes => exact ⟨rest.map (bytes ++ ·), by rw [hrest]; rfl⟩

end Success

namespace Expr

variable {H : Bytes → Bytes} {e e' : Expr}

theorem HasWidths.literal {P : Int → Prop} {l : Literal} (h : e.HasWidths P)
    (hl : .literal l ∈ e.operands) : l.HasWidth P := by
  rintro t v rfl
  exact h.operands t v hl

/-- Folding does not fail unless a width is negative. -/
theorem exists_fold? (he : e.HasWidths (0 ≤ ·)) : ∃ r, e.fold? H = .ok r := by
  unfold fold?
  split
  · rename_i op left right
    split
    · rename_i l r hl hr
      rw [Operand.eq_literal_of_literal? hl] at he
      have hwidth := he.literal (l := l) (by simp [operands])
      obtain ⟨c, hc⟩ := op.exists_literal? (r := r) hwidth
      exact ⟨_, by rw [hc]; rfl⟩
    · exact ⟨_, rfl⟩
  · rename_i op operand
    split
    · rename_i l hl
      rw [Operand.eq_literal_of_literal? hl] at he
      obtain ⟨c, hc⟩ := op.exists_literal? (he.literal (l := l) (by simp [operands]))
      exact ⟨_, by rw [hc]; rfl⟩
    · exact ⟨_, rfl⟩
  · rename_i change operand type
    split
    · rename_i l hl
      rw [Operand.eq_literal_of_literal? hl] at he
      have hwidth := he.literal (l := l) (by simp [operands])
      obtain ⟨c, hc⟩ := change.exists_literal? (he.target _ _ _ rfl) hwidth
      exact ⟨_, by rw [hc]; rfl⟩
    · exact ⟨_, rfl⟩
  · rename_i args
    have hargs : ∀ l, .literal l ∈ args → l.HasWidth (0 ≤ ·) := fun l hl => he.literal hl
    obtain ⟨bytes, hbytes⟩ := Operand.exists_encodeAll hargs
    exact ⟨_, by rw [hbytes]; rfl⟩
  · exact ⟨_, rfl⟩
  · exact ⟨_, rfl⟩
  · exact ⟨_, rfl⟩

end Expr

/-! ### Limits -/

section Limits

open Word (capacity)

/-- If two numbers of at most `c` digits differ by a multiple of `2 ^ w`, then `w` is at most `c` or
they are equal. -/
theorem Word.le_or_eq_zero {w c : Nat} {a k : Int} (ha : bitLength a ≤ c)
    (ha' : bitLength (a + k * 2 ^ w) ≤ c) : w ≤ c ∨ k = 0 := by
  by_contra hboth
  rw [not_or] at hboth
  have hlow : a.natAbs < 2 ^ c := natAbs_lt_modulus ha
  have hhigh : (a + k * 2 ^ w).natAbs < 2 ^ c := natAbs_lt_modulus ha'
  have hpow : 2 ^ c * 2 ≤ 2 ^ w := by
    rw [← Nat.pow_succ]
    exact Nat.pow_le_pow_right (by omega) (by omega)
  have hdiff : 2 ^ w ≤ (k * 2 ^ w).natAbs := by
    rw [Int.natAbs_mul, Int.natAbs_pow]
    exact Nat.le_mul_of_pos_left _ (Int.natAbs_pos.2 hboth.2)
  omega

variable {f : Word.Format} {a a' b b' j k : Int}

theorem BinaryOp.fits_congr (op : BinaryOp) (hw : f.width ≤ capacity) (ha : f.bits a' = f.bits a)
    (hb : f.bits b' = f.bits b) : op.fits f a' b' = op.fits f a b := by
  simp only [fits, Word.unsignedFits_of_le hw, Word.unsigned_congr ha, Word.unsigned_congr hb,
    f.wrap_congr ha, f.wrap_congr hb]

theorem BinaryOp.fits_shifts (op : BinaryOp) (ha : Word.bitLength a ≤ capacity)
    (ha' : Word.bitLength (a + k * 2 ^ f.width) ≤ capacity) (hb : Word.bitLength b ≤ capacity)
    (hb' : Word.bitLength (b + j * 2 ^ f.width) ≤ capacity) :
    op.fits f (a + k * 2 ^ f.width) (b + j * 2 ^ f.width) = op.fits f a b := by
  by_cases hw : f.width ≤ capacity
  · exact op.fits_congr hw (Word.bits_shift f a k) (Word.bits_shift f b j)
  · -- numbers that can be held are too short to be shifted
    obtain rfl : k = 0 := (Word.le_or_eq_zero ha ha').resolve_left hw
    obtain rfl : j = 0 := (Word.le_or_eq_zero hb hb').resolve_left hw
    simp only [zero_mul, add_zero]

theorem UnaryOp.fits_shifts (op : UnaryOp) (ha : Word.bitLength a ≤ capacity)
    (ha' : Word.bitLength (a + k * 2 ^ f.width) ≤ capacity) :
    op.fits f (a + k * 2 ^ f.width) = op.fits f a := by
  by_cases hw : f.width ≤ capacity
  · simp only [fits, Word.unsignedFits_of_le hw, f.wrapFits_of_le hw]
  · obtain rfl : k = 0 := (Word.le_or_eq_zero ha ha').resolve_left hw
    simp only [zero_mul, add_zero]

theorem WidthChange.fits_shifts (change : WidthChange) (target : Word.Format)
    (ha : Word.bitLength a ≤ capacity)
    (ha' : Word.bitLength (a + k * 2 ^ f.width) ≤ capacity) :
    change.fits f target (a + k * 2 ^ f.width) = change.fits f target a := by
  by_cases hw : f.width ≤ capacity
  · simp only [fits, Word.unsignedFits_of_le hw, change.read_congr (Word.bits_shift f a k)]
  · obtain rfl : k = 0 := (Word.le_or_eq_zero ha ha').resolve_left hw
    simp only [zero_mul, add_zero]

theorem Operand.encodeAllFits_shifts {os os' : List Operand}
    (h : List.Forall₂ Operand.Shifts os os') : encodeAllFits os' = encodeAllFits os := by
  induction h with
  | nil => rfl
  | @cons o o' os os' ho _ ih =>
    rcases ho.number_or_same with ⟨t, a, a', rfl, rfl, -⟩ | ⟨rfl, hnumber⟩
    · simp only [encodeAllFits, ih]
    · cases o' with
      | literal l =>
        cases l with
        | bool c => exact ih
        | number t a => exact absurd rfl (hnumber t a)
      | var id => rfl
      | unknown kind => rfl

theorem WidthChange.fits_of_le (change : WidthChange) {g : Word.Format} (hf : f.width ≤ capacity)
    (hg : g.width ≤ capacity) (a : Int) : change.fits f g a = true := by
  have hsigned : Word.signedFits f.width = true := decide_eq_true (hf.trans (by decide))
  unfold fits
  rw [g.wrapFits_of_le hg]
  cases change <;> simp [hsigned, Word.unsignedFits_of_le hf]

theorem Operand.encodeAllFits_of_le {os : List Operand}
    (h : ∀ t v f, .number t v ∈ os → t.format? = some f → f.width ≤ capacity) :
    encodeAllFits os = true := by
  induction os with
  | nil => rfl
  | cons o os ih =>
    have hos := ih fun t v f hmem => h t v f (List.mem_cons_of_mem o hmem)
    cases o with
    | literal l =>
      cases l with
      | bool c => exact hos
      | number t a =>
        simp only [encodeAllFits, hos]
        split
        · rename_i f hf
          simp [h t a f List.mem_cons_self hf]
        · rfl
    | var id => rfl
    | unknown kind => rfl

end Limits

namespace Expr

variable {H : Bytes → Bytes} {e e' : Expr}

/-- The numbers among the operands can be held. -/
def Held (e : Expr) : Prop :=
  ∀ t v, .number t v ∈ e.operands → Word.bitLength v ≤ Word.capacity

theorem fits_binary_eq_true {op : BinaryOp} {left right : Operand}
    (h : (∀ t a, left ≠ .number t a) ∨ ∀ t b, right ≠ .number t b) :
    (binary op left right).fits = true := by
  unfold fits
  split <;> simp_all

/-- Of an expression and the same one on shifted operands, both are refused for their size or
neither is. -/
theorem fits_shifts (h : e.Shifts e') (he : e.Held) (he' : e'.Held) : e'.fits = e.fits := by
  cases h with
  | binary op hleft hright =>
    rcases hleft.number_or_same with ⟨t, a, a', rfl, rfl, ha⟩ | ⟨rfl, hleft⟩
    · rcases hright.number_or_same with ⟨u, b, b', rfl, rfl, hb⟩ | ⟨rfl, hright⟩
      · simp only [fits]
        split
        · rename_i f hf
          by_cases hequals : t.equals u = true
          · obtain rfl := Ty.equals_iff.1 hequals
            obtain ⟨k, rfl⟩ := ha f hf
            obtain ⟨j, rfl⟩ := hb f hf
            rw [op.fits_shifts (he t a (by simp [operands])) (he' t _ (by simp [operands]))
              (he t b (by simp [operands])) (he' t _ (by simp [operands]))]
          · simp only [hequals, Bool.not_false, Bool.true_or]
        · rfl
      · rw [fits_binary_eq_true (.inr hright), fits_binary_eq_true (.inr hright)]
    · rw [fits_binary_eq_true (.inl hleft), fits_binary_eq_true (.inl hleft)]
  | unary op ho =>
    rcases ho.number_or_same with ⟨t, a, a', rfl, rfl, ha⟩ | ⟨rfl, -⟩
    · simp only [fits]
      split
      · rename_i f hf
        obtain ⟨k, rfl⟩ := ha f hf
        exact op.fits_shifts (he t a (by simp [operands])) (he' t _ (by simp [operands]))
      · rfl
    · rfl
  | widthChange change type ho =>
    rcases ho.number_or_same with ⟨t, a, a', rfl, rfl, ha⟩ | ⟨rfl, -⟩
    · simp only [fits]
      split
      · rename_i f g hf hg
        obtain ⟨k, rfl⟩ := ha f hf
        exact change.fits_shifts g (he t a (by simp [operands])) (he' t _ (by simp [operands]))
      · rfl
    · rfl
  | keccak256 hargs => exact Operand.encodeAllFits_shifts hargs

/-- Nothing is refused if all widths are at most half of the capacity. -/
theorem fits_of_hasWidths (he : e.HasWidths (2 * · ≤ Word.capacity)) : e.fits = true := by
  have hwidth {t : Ty} {f : Word.Format} (ht : t.HasWidth (2 * · ≤ Word.capacity))
      (hf : t.format? = some f) : 2 * f.width ≤ Word.capacity := by
    rw [Ty.eq_type_of_format? hf] at ht
    exact_mod_cast Word.Format.hasWidth_type ht
  unfold fits
  split
  · rename_i op t a u b
    split
    · rename_i f hf
      rw [op.fits_of_le (hwidth (he.operands t a (by simp [operands])) hf), Bool.or_true]
    · rfl
  · rename_i op t a
    split
    · rename_i f hf
      exact op.fits_of_le (hwidth (he.operands t a (by simp [operands])) hf) a
    · rfl
  · rename_i change t a type
    split
    · rename_i f g hf hg
      have hsource := hwidth (he.operands t a (by simp [operands])) hf
      have htarget := hwidth (he.target _ _ _ rfl) hg
      exact change.fits_of_le (by omega) (by omega) a
    · rfl
  · refine Operand.encodeAllFits_of_le fun t v f hmem hf => ?_
    have hnarrow := hwidth (he.operands t v hmem) hf
    omega
  · rfl

theorem Shifts.not_isValue (h : e.Shifts e') : ¬ e.IsValue ∧ ¬ e'.IsValue := by
  cases h <;> exact ⟨id, id⟩

/-- Adding multiples of the number of words to integer literals does not change what an expression
is folded to: either both expressions are left alone or both are folded to the same.  With limits,
both are folded as without, or both are refused; none is refused if all widths are at most half of
the capacity. -/
theorem fold_shifts (h : e.Shifts e') (he : e.HasWidths (0 ≤ ·)) :
    ((e.fold H = .ok e ∧ e'.fold H = .ok e') ∨
      ∃ r, r ≠ e ∧ r ≠ e' ∧ e.fold H = .ok r ∧ e'.fold H = .ok r) ∧
    (e.Held → e'.Held →
      (e.foldWithin H = e.fold H ∧ e'.foldWithin H = e'.fold H) ∨
        e.foldWithin H = .error .tooLarge ∧ e'.foldWithin H = .error .tooLarge ∧
          ¬ e.HasWidths (2 * · ≤ Word.capacity)) := by
  obtain ⟨r, hr⟩ := exists_fold? he
  have hfold : e.fold H = .ok (r.getD e) := by rw [fold, hr]; rfl
  have hfold' : e'.fold H = .ok (r.getD e') := by rw [fold, fold?_shifts h, hr]; rfl
  constructor
  · cases r with
    | none => exact .inl ⟨hfold, hfold'⟩
    | some e₁ =>
      have hvalue : e₁.IsValue := isValue_of_fold? hr
      obtain ⟨hne, hne'⟩ := h.not_isValue
      exact .inr ⟨e₁, fun heq => hne (heq ▸ hvalue), fun heq => hne' (heq ▸ hvalue), hfold, hfold'⟩
  · intro hheld hheld'
    have hfits := fits_shifts h hheld hheld'
    unfold foldWithin
    rw [hfits]
    by_cases hf : e.fits = true
    · rw [if_pos hf, if_pos hf]
      exact .inl ⟨rfl, rfl⟩
    · rw [if_neg hf, if_neg hf]
      exact .inr ⟨rfl, rfl, fun hwidths => hf (fits_of_hasWidths hwidths)⟩

/-- A quotient of eight bits, with its operands out of range and in range. -/
theorem fold_shifts_quotient :
    let e : Expr := .binary .sdiv (.number (.int 8) 128) (.number (.int 8) 255)
    let e' : Expr := .binary .sdiv (.number (.int 8) (-128)) (.number (.int 8) (-1))
    e.Shifts e' ∧ e.HasWidths (0 ≤ ·) ∧ e.fold Keccak.digest = .ok (.number (.int 8) (-128)) ∧
      ((e.fold Keccak.digest = .ok e ∧ e'.fold Keccak.digest = .ok e') ∨
        ∃ r, r ≠ e ∧ r ≠ e' ∧ e.fold Keccak.digest = .ok r ∧ e'.fold Keccak.digest = .ok r) := by
  intro e e'
  have hshifts : e.Shifts e' :=
    .binary .sdiv (.literal (.number ⟨true, 8⟩ (-1) (by decide)))
      (.literal (.number ⟨true, 8⟩ (-1) (by decide)))
  have hwidths : e.HasWidths (0 ≤ ·) := by
    refine ⟨fun t v hmem i hi => ?_, by simp [e]⟩
    obtain rfl : t = .int 8 := by
      simp only [e, operands, List.mem_cons, Operand.literal.injEq, Literal.number.injEq,
        List.not_mem_nil, or_false] at hmem
      exact hmem.elim And.left And.left
    obtain rfl := Option.some.inj hi
    decide
  exact ⟨hshifts, hwidths, by decide, (fold_shifts hshifts hwidths).1⟩

end Expr

end ContractIR
