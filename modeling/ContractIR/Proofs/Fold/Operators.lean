import ContractIR.Proofs.Except
import ContractIR.Proofs.Meaning.Operators

/-!
# ContractIR.Proofs.Fold.Operators — folded operators keep their meaning

Where an operator on literals is folded, the literal that replaces it stands for the answer of the
reference meaning; in particular that answer is no trap.  Integer types of at least two bits are
needed for powers alone: the power with exponent zero is one, and one has to be in range.
-/

namespace ContractIR

/-- An integer type of fewer than two bits is not among the types. -/
def Ty.Wide (t : Ty) : Prop := ∀ i, t.intTy? = some i → 2 ≤ i.width

/-- The number that the literal is, if it is one, has a wide type. -/
def Literal.Wide : Literal → Prop
  | .bool _ => True
  | .number type _ => type.Wide

theorem Ty.format_of_intTy? {t : Ty} {i : IntTy} (h : t.Wide) (hi : t.intTy? = some i) :
    ∃ f, i.format = .ok f ∧ t.format? = some f ∧ 2 ≤ f.width ∧ (f.width : Int) = i.width := by
  have hw := h i hi
  have hf : i.format = .ok ⟨i.signed, i.width.toNat⟩ := by
    simp only [IntTy.format, IntTy.checkWidth, if_pos (show 0 ≤ i.width by omega)]
    rfl
  refine ⟨_, hf, ?_, ?_, ?_⟩
  · simp only [Ty.format?, hi, Option.bind_some, hf]
    rfl
  · dsimp only
    omega
  · dsimp only
    omega

namespace BinaryOp

open Word (toNat_ofInt toInt_ofInt ofNat_toNat)

variable {op : BinaryOp} {f : Word.Format} {l r : Int}

theorem ofInt_inj_iff {w : Nat} :
    BitVec.ofInt w l = BitVec.ofInt w r ↔ Word.unsigned w l = Word.unsigned w r := by
  rw [← BitVec.toNat_inj, toNat_ofInt, toNat_ofInt]

theorem ofInt_eq_zero_iff {w : Nat} : BitVec.ofInt w r = 0 ↔ Word.unsigned w r = 0 := by
  rw [← BitVec.toNat_inj, toNat_ofInt]
  rfl

theorem ofInt_eq_zero_iff_signed {w : Nat} : BitVec.ofInt w r = 0 ↔ Word.signed w r = 0 := by
  rw [← BitVec.toInt_inj, toInt_ofInt]
  exact iff_of_eq (congrArg _ BitVec.toInt_zero)

/-- A folded comparison has the truth value that it means. -/
theorem onWords_of_compare? {b : Bool} (h : op.compare? f.width l r = some b) :
    op.onWords f (BitVec.ofInt f.width l) (BitVec.ofInt f.width r) = some (.value (.truth b)) := by
  cases op <;> simp only [compare?, reduceCtorEq, Option.some.injEq] at h <;> subst h <;>
    simp only [onWords, toNat_ofInt, toInt_ofInt, ofInt_inj_iff, ne_eq]
  case eq => rw [Bool.beq_eq_decide_eq]
  case neq => rw [bne, Bool.beq_eq_decide_eq, decide_not]

theorem guarded_of_checked {overflowing : Bool} {exact v : Int} {bits : BitVec f.width}
    (h : checked overflowing f exact = some v) (hbits : BitVec.ofInt f.width exact = bits) :
    Answer.guarded overflowing f exact bits = .value (.word f (BitVec.ofInt f.width v)) := by
  unfold checked at h
  split at h
  · cases h
  · rename_i hr
    cases h
    have hr' : ¬ (overflowing ∧ ¬ f.Represents exact) := by
      rw [← f.inRange_iff]
      simpa using hr
    rw [Answer.guarded, if_neg hr', f.ofInt_wrap, hbits]

theorem divided_of_ne_zero {divisor bits : BitVec f.width} (h : divisor ≠ 0) :
    Answer.divided f divisor bits = .value (.word f bits) := if_neg h

/-- A folded power is the power, and it is in range. -/
theorem onWords_of_power {overflowing : Bool} {v : Int} (hw : 2 ≤ f.width)
    (h : power overflowing f (f.wrap l) (f.wrap r) = some v) :
    (pow overflowing).onWords f (BitVec.ofInt f.width l) (BitVec.ofInt f.width r) =
      some (.value (.word f (BitVec.ofInt f.width v))) := by
  cases overflowing with
  | false =>
    simp only [power, Bool.false_eq_true, if_false, Option.some.injEq] at h
    subst h
    rw [onWords, f.ofInt_wrap, BitVec.ofInt_natCast, Word.ofNat_modPow, f.ofInt_wrap,
      Int.toNat_natCast, ← toNat_ofInt, f.ofInt_wrap]
  | true =>
    simp only [power, if_true] at h
    split at h
    · cases h
    · rename_i hneg
      obtain ⟨rfl, hmax⟩ := Word.boundedPow_eq_some h (f.one_le_max (by omega) fun _ => hw)
      have h0 : 0 ≤ f.wrap l ^ (f.wrap r).toNat := Int.pow_nonneg (by omega)
      have hrep := f.represents_of_le_max (by omega) h0 hmax
      rw [onWords, f.read_ofInt, f.read_ofInt, if_neg (by omega), Answer.guarded,
        if_neg (by simp [hrep]), Word.ofInt_pow, f.ofInt_wrap]

theorem sshiftRight_min {w : Nat} (bits : BitVec w) (n : Nat) :
    bits.sshiftRight (min n w) = bits.sshiftRight n := by
  apply BitVec.eq_of_getLsbD_eq
  intro i hi
  rw [BitVec.getLsbD_sshiftRight, BitVec.getLsbD_sshiftRight]
  rcases Nat.le_total n w with h | h
  · rw [Nat.min_eq_left h]
  · rw [Nat.min_eq_right h, if_neg (by omega), if_neg (by omega)]

/-- A folded operator has the word that it means. -/
theorem onWords_of_evaluate? {v : Int} (hpow : ∀ overflowing, op = pow overflowing → 2 ≤ f.width)
    (h : op.evaluate? f l r = some v) :
    op.onWords f (BitVec.ofInt f.width l) (BitVec.ofInt f.width r) =
      some (.value (.word f (BitVec.ofInt f.width v))) := by
  -- the unsigned operators are those of natural numbers on the two residues
  have hnat {bits : BitVec f.width} {n : Nat} (hn : bits.toNat = n) :
      BitVec.ofInt f.width (f.wrap n) = bits := by
    rw [f.ofInt_wrap, BitVec.ofInt_natCast, ← hn, ofNat_toNat]
  cases op with
  | add overflowing =>
    rw [onWords, f.read_ofInt, f.read_ofInt, guarded_of_checked h]
    rw [BitVec.ofInt_add, f.ofInt_wrap, f.ofInt_wrap]
  | sub overflowing =>
    rw [onWords, f.read_ofInt, f.read_ofInt, guarded_of_checked h]
    rw [Word.ofInt_sub, f.ofInt_wrap, f.ofInt_wrap]
  | mul overflowing =>
    rw [onWords, f.read_ofInt, f.read_ofInt, guarded_of_checked h]
    rw [BitVec.ofInt_mul, f.ofInt_wrap, f.ofInt_wrap]
  | pow overflowing => exact onWords_of_power (hpow overflowing rfl) h
  | udiv =>
    simp only [evaluate?, Option.ite_none_left_eq_some, Option.some.injEq] at h
    obtain ⟨hr, rfl⟩ := h
    rw [onWords, divided_of_ne_zero (mt ofInt_eq_zero_iff.1 hr), hnat]
    rw [BitVec.toNat_udiv, toNat_ofInt, toNat_ofInt]
  | sdiv =>
    simp only [evaluate?, Option.ite_none_left_eq_some, Option.some.injEq] at h
    obtain ⟨hr, rfl⟩ := h
    rw [onWords, divided_of_ne_zero (mt ofInt_eq_zero_iff_signed.1 hr), f.ofInt_wrap]
    congr 3
    apply BitVec.eq_of_toInt_eq
    rw [BitVec.toInt_sdiv, toInt_ofInt _ l, toInt_ofInt _ r, BitVec.toInt_ofInt]
  | umod =>
    simp only [evaluate?, Option.ite_none_left_eq_some, Option.some.injEq] at h
    obtain ⟨hr, rfl⟩ := h
    rw [onWords, divided_of_ne_zero (mt ofInt_eq_zero_iff.1 hr), hnat]
    rw [BitVec.toNat_umod, toNat_ofInt, toNat_ofInt]
  | smod =>
    simp only [evaluate?, Option.ite_none_left_eq_some, Option.some.injEq] at h
    obtain ⟨hr, rfl⟩ := h
    rw [onWords, divided_of_ne_zero (mt ofInt_eq_zero_iff_signed.1 hr), f.ofInt_wrap, ← toInt_ofInt,
      ← toInt_ofInt, ← BitVec.toInt_srem, BitVec.ofInt_toInt]
  | bitAnd =>
    obtain rfl := Option.some.inj h
    rw [onWords, hnat]
    rw [BitVec.toNat_and, toNat_ofInt, toNat_ofInt]
  | bitOr =>
    obtain rfl := Option.some.inj h
    rw [onWords, hnat]
    rw [BitVec.toNat_or, toNat_ofInt, toNat_ofInt]
  | bitXor =>
    obtain rfl := Option.some.inj h
    rw [onWords, hnat]
    rw [BitVec.toNat_xor, toNat_ofInt, toNat_ofInt]
  | shl =>
    obtain rfl := Option.some.inj h
    rw [onWords, toNat_ofInt]
    split
    · rename_i hwide
      rw [BitVec.shiftLeft_eq_zero hwide, BitVec.ofInt_ofNat]
    · rw [f.ofInt_wrap, BitVec.ofInt_natCast]
      congr 3
      apply BitVec.eq_of_toNat_eq
      rw [BitVec.toNat_shiftLeft, BitVec.toNat_ofNat, toNat_ofInt]
  | ushr =>
    obtain rfl := Option.some.inj h
    rw [onWords, toNat_ofInt]
    split
    · rename_i hwide
      rw [BitVec.ushiftRight_eq_zero hwide, BitVec.ofInt_ofNat]
    · rw [hnat]
      rw [BitVec.toNat_ushiftRight, toNat_ofInt]
  | sshr =>
    obtain rfl := Option.some.inj h
    rw [onWords, toNat_ofInt, f.ofInt_wrap, ← toInt_ofInt, ← BitVec.sshiftRight_eq,
      sshiftRight_min]
  | _ => simp [evaluate?] at h

theorem onTruth_of_bool? {a b c : Bool} (h : op.bool? a b = some c) :
    op.onTruth a b = some (.value (.truth c)) := by
  cases op <;> simp only [bool?, reduceCtorEq, Option.some.injEq] at h <;> subst h <;>
    cases a <;> cases b <;> rfl

theorem wide_of_number? {type : Ty} {c : Literal} (ht : type.Wide)
    (h : op.number? type f l r = some c) : c.Wide := by
  unfold number? at h
  split at h
  · obtain rfl := Option.some.inj h
    trivial
  · obtain ⟨v, -, rfl⟩ := Option.map_eq_some_iff.1 h
    exact ht

theorem meaning_of_number? {type : Ty} {c : Literal} (hf : type.format? = some f)
    (hw : 2 ≤ f.width) (h : op.number? type f l r = some c) :
    op.meaning (Literal.number type l).denote (Literal.number type r).denote =
      some (.value c.denote) := by
  rw [Literal.denote_number hf, Literal.denote_number hf, meaning_word]
  unfold number? at h
  split at h
  · rename_i b hb
    obtain rfl := Option.some.inj h
    exact onWords_of_compare? hb
  · obtain ⟨v, hv, rfl⟩ := Option.map_eq_some_iff.1 h
    rw [Literal.denote_number hf]
    exact onWords_of_evaluate? (fun _ _ => hw) hv

/-- An operator on wide literals is folded without failing, and to what it means. -/
theorem literal?_eq_ok {a b : Literal} (ha : a.Wide) :
    ∃ c, op.literal? a b = .ok c ∧
      ∀ d, c = some d → d.Wide ∧ op.meaning a.denote b.denote = some (.value d.denote) := by
  match a, b with
  | .bool a, .bool b =>
    refine ⟨_, rfl, fun d hd => ?_⟩
    obtain ⟨c, hc, rfl⟩ := Option.map_eq_some_iff.1 hd
    exact ⟨trivial, onTruth_of_bool? hc⟩
  | .number type l, .number type' r =>
    simp only [literal?]
    split
    · exact ⟨none, rfl, by simp⟩
    · rename_i i hi
      obtain ⟨f, hformat, hf, hw, -⟩ := Ty.format_of_intTy? ha hi
      split
      · rename_i heq
        obtain rfl := Ty.equals_iff.1 heq
        refine ⟨op.number? type f l r, by rw [hformat]; rfl, fun d hd => ⟨?_, ?_⟩⟩
        · exact wide_of_number? ha hd
        · exact meaning_of_number? hf hw hd
      · exact ⟨none, rfl, by simp⟩
  | .bool _, .number _ _ | .number _ _, .bool _ => exact ⟨none, rfl, by simp⟩

end BinaryOp

namespace UnaryOp

variable {op : UnaryOp} {f : Word.Format}

theorem meaning_of_evaluate? {a v : Int} (h : op.evaluate? f a = some v) :
    op.meaning (.word f (BitVec.ofInt f.width a)) =
      some (.value (.word f (BitVec.ofInt f.width v))) := by
  cases op with
  | neg overflowing =>
    rw [meaning, f.read_ofInt, BinaryOp.guarded_of_checked h]
    rw [BitVec.ofInt_neg, f.ofInt_wrap]
  | bitNot =>
    obtain rfl := Option.some.inj h
    rw [meaning, f.ofInt_wrap, Word.ofInt_sub, BitVec.ofInt_neg, Word.ofInt_unsigned,
      BitVec.not_eq_neg_add]
    rfl
  | _ => simp [evaluate?] at h

/-- An operator on a wide literal is folded without failing, and to what it means. -/
theorem literal?_eq_ok {a : Literal} (ha : a.Wide) :
    ∃ c, op.literal? a = .ok c ∧
      ∀ d, c = some d → d.Wide ∧ op.meaning a.denote = some (.value d.denote) := by
  cases a with
  | bool a =>
    cases op with
    | not =>
      refine ⟨_, rfl, fun d hd => ?_⟩
      obtain rfl := Option.some.inj hd
      exact ⟨trivial, rfl⟩
    | _ => exact ⟨none, rfl, by simp⟩
  | number type value =>
    simp only [literal?]
    split
    · rename_i i _ hi
      obtain ⟨f, hformat, hf, -, -⟩ := Ty.format_of_intTy? ha hi
      refine ⟨(op.evaluate? f value).map (.number type), by rw [hformat]; rfl, fun d hd => ?_⟩
      obtain ⟨v, hv, rfl⟩ := Option.map_eq_some_iff.1 hd
      rw [Literal.denote_number hf, Literal.denote_number hf]
      exact ⟨ha, meaning_of_evaluate? hv⟩
    · exact ⟨none, rfl, by simp⟩

end UnaryOp

namespace WidthChange

variable {change : WidthChange}

theorem ofInt_read (g : Word.Format) (w : Nat) (value : Int) :
    BitVec.ofInt g.width (change.read w value) = change.carry g (BitVec.ofInt w value) := by
  cases change with
  | signExt => rw [read, carry, BitVec.signExtend, Word.toInt_ofInt]
  | zeroExt => rw [read, carry, BitVec.ofInt_natCast, ← BitVec.ofNat_toNat, Word.toNat_ofInt]
  | trunc => rw [read, carry, BitVec.ofInt_natCast, ← BitVec.ofNat_toNat, Word.toNat_ofInt]

/-- A wide literal is carried over to a wide type without failing, and to what that means. -/
theorem literal?_eq_ok {type : Ty} {a : Literal} (ht : type.Wide) (ha : a.Wide) :
    ∃ c, change.literal? type a = .ok c ∧
      ∀ d, c = some d → d.Wide ∧ change.meaning type a.denote = some (.value d.denote) := by
  cases a with
  | bool a => exact ⟨none, rfl, by simp⟩
  | number source value =>
    simp only [literal?]
    split
    · rename_i i j hi hj
      obtain ⟨f, hformat, hf, -, -⟩ := Ty.format_of_intTy? ha hi
      obtain ⟨g, hformat', hg, -, -⟩ := Ty.format_of_intTy? ht hj
      refine ⟨_, by rw [hformat, hformat']; rfl, fun d hd => ?_⟩
      obtain rfl := Option.some.inj hd
      refine ⟨ht, ?_⟩
      rw [Literal.denote_number hf, Literal.denote_number hg, meaning, hg, g.ofInt_wrap, ofInt_read]
      rfl
    · exact ⟨none, rfl, by simp⟩

end WidthChange

/-! ### Bytes -/

theorem Bytes.bigEndian_eq_map (n value : Nat) :
    Bytes.bigEndian n value =
      (List.range n).reverse.map fun i => (value / 256 ^ i % 256).toUInt8 := by
  induction n generalizing value with
  | zero => rfl
  | succ n ih =>
    rw [Bytes.bigEndian_succ, ih, List.range_succ_eq_map, List.reverse_cons, List.map_append,
      ← List.map_reverse, List.map_map]
    congr 1
    · apply List.map_congr_left
      intro i _
      rw [Function.comp_apply, Nat.div_div_eq_div_mul, Nat.pow_succ']
    · simp

theorem Word.byteAt_eq {w : Nat} (bits : BitVec w) (i : Nat) :
    Word.byteAt bits i = (bits.toNat / 256 ^ i % 256).toUInt8 := by
  apply UInt8.toNat_inj.1
  simp only [Word.byteAt, UInt8.toNat_ofBitVec, BitVec.extractLsb'_toNat, Nat.toUInt8,
    UInt8.toNat_ofNat', Nat.shiftRight_eq_div_pow, Nat.pow_mul, Nat.reducePow, Nat.mod_mod]

/-- A wide literal has the bytes of the value that it stands for. -/
theorem Literal.encode_eq_ok {a : Literal} (ha : a.Wide) : a.encode = .ok a.denote.encoding := by
  cases a with
  | bool a => rfl
  | number type value =>
    simp only [encode]
    split
    · rename_i hi
      simp only [denote, Ty.format?, hi]
      rfl
    · rename_i i hi
      obtain ⟨f, hformat, hf, -, hwidth⟩ := Ty.format_of_intTy? ha hi
      rw [denote_number hf, Const.encoding]
      by_cases h8 : f.width % 8 = 0
      · have hbytes : Bytes.bigEndian (f.width / 8) (Word.unsigned f.width value) =
            (List.range (f.width / 8)).reverse.map (Word.byteAt (BitVec.ofInt f.width value)) := by
          rw [Bytes.bigEndian_eq_map, ← Word.toNat_ofInt]
          exact List.map_congr_left fun i _ => (Word.byteAt_eq _ i).symm
        rw [if_neg (by omega), if_pos h8, hformat, ← hbytes]
        rfl
      · rw [if_pos (by omega), if_neg h8]

end ContractIR
