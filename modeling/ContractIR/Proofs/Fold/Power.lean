import ContractIR.Proofs.Fold.Arithmetic

/-!
# ContractIR.Proofs.Fold.Power — powers of integer literals

A power that wraps around is folded always, and its exponent is read without sign.  A power whose
overflow is a trap is folded exactly if base and exponent are not negative and the exact power does
not exceed the largest number of the type; the repeated squaring behind it gives up early, but never
too early.
-/

namespace ContractIR

namespace Word.Format

variable (f : Format)

theorem max_eq (h : 1 ≤ f.width) :
    f.max = if f.signed then 2 ^ (f.width - 1) - 1 else 2 ^ f.width - 1 := by
  unfold max
  rw [modulus_eq, modulus_eq, if_neg (show ¬ f.width = 0 by omega)]

/-- Numbers with the same bits stand for the same number in range. -/
theorem wrap_congr {m n : Int} (h : f.bits m = f.bits n) : f.wrap m = f.wrap n := by
  rw [← f.read_ofInt, ← f.read_ofInt]
  exact congrArg f.read h

theorem unsigned_wrap (n : Int) : unsigned f.width (f.wrap n) = (n % 2 ^ f.width).toNat := by
  have hbits := f.ofInt_wrap n
  rw [← toNat_ofInt, hbits, toNat_ofInt, unsigned_eq, modulus_eq]

end Word.Format

namespace BinaryOp

variable (f : Word.Format) (b e : Int)

/-- The power modulo the number of words. -/
theorem power_wrapping :
    power false f (f.wrap b) (f.wrap e) =
      some (f.canonical (b ^ (e % 2 ^ f.width).toNat)) := by
  have hbits : f.bits (Word.modPow f.width (f.wrap b) (Word.unsigned f.width (f.wrap e))) =
      f.bits (b ^ (e % 2 ^ f.width).toNat) := by
    calc f.bits (Word.modPow f.width (f.wrap b) (Word.unsigned f.width (f.wrap e)))
        = f.bits (f.wrap b) ^ Word.unsigned f.width (f.wrap e) := by
          rw [Word.Format.bits, BitVec.ofInt_natCast, Word.ofNat_modPow, Int.toNat_natCast]
      _ = f.bits b ^ (e % 2 ^ f.width).toNat := by
          rw [Word.Format.bits, f.ofInt_wrap, f.unsigned_wrap]
      _ = f.bits (b ^ (e % 2 ^ f.width).toNat) := (Word.ofInt_pow _ _ _).symm
  rw [f.canonical_eq, ← f.wrap_congr hbits]
  rfl

/-- The exact power, if it is one of numbers that are not negative and does not exceed the largest
number. -/
theorem power_overflowing (hw : 1 ≤ f.width) (hs : f.signed = true → 2 ≤ f.width) :
    power true f (f.wrap b) (f.wrap e) =
      if 0 ≤ f.canonical b ∧ 0 ≤ f.canonical e ∧ f.canonical b ^ (f.canonical e).toNat ≤ f.max then
        some (f.canonical b ^ (f.canonical e).toNat)
      else none := by
  rw [f.canonical_eq, f.canonical_eq, power, if_pos rfl]
  by_cases hneg : f.wrap b < 0 ∨ f.wrap e < 0
  · rw [if_pos hneg, if_neg (by omega)]
  · rw [if_neg hneg, Word.boundedPow_eq (by omega) (f.one_le_max hw hs)]
    refine if_congr ?_ rfl rfl
    exact ⟨fun h => ⟨by omega, by omega, h⟩, fun h => h.2.2⟩

end BinaryOp

/-- Powers of integer literals: one that wraps around is folded to the number in range that is equal
to it modulo the number of words; one that traps on overflow is folded exactly if base and exponent
are not negative and the exact power is at most the largest number, and then to that power. -/
theorem powers_fold_exactly (H : Bytes → Bytes) (f : Word.Format) (hw : 1 ≤ f.width) (b e : Int) :
    (f.binary (.pow false) b e).FoldsAt H f.width
        (.number f.type (f.canonical (b ^ (e % 2 ^ f.width).toNat))) ∧
      ((f.signed = true → 2 ≤ f.width) →
        (f.binary (.pow true) b e).FoldsAt H f.width
          (if 0 ≤ f.canonical b ∧ 0 ≤ f.canonical e ∧
              f.canonical b ^ (f.canonical e).toNat ≤
                (if f.signed then 2 ^ (f.width - 1) - 1 else 2 ^ f.width - 1) then
            .number f.type (f.canonical b ^ (f.canonical e).toNat)
          else f.binary (.pow true) b e)) := by
  have hnumber (overflowing : Bool) :
      (BinaryOp.pow overflowing).number? f.type f b e =
        (BinaryOp.power overflowing f (f.wrap b) (f.wrap e)).map (.number f.type) := rfl
  refine ⟨?_, fun hs => ?_⟩
  · have hfold := Expr.foldsAt_number? (H := H) (f := f) (a := b) (b := e) (.pow false)
    rw [hnumber, BinaryOp.power_wrapping] at hfold
    exact hfold
  · have hfold := Expr.foldsAt_number? (H := H) (f := f) (a := b) (b := e) (.pow true)
    rw [hnumber, BinaryOp.power_overflowing f b e hw hs] at hfold
    rw [← f.max_eq hw]
    by_cases h : 0 ≤ f.canonical b ∧ 0 ≤ f.canonical e ∧
        f.canonical b ^ (f.canonical e).toNat ≤ f.max
    · rw [if_pos h] at hfold ⊢
      exact hfold
    · rw [if_neg h] at hfold ⊢
      exact hfold

/-- Powers of eight bits with operands out of range: 3 to the power of 5 is 243, which wraps to
minus 13 and is too large to be exact; 259 is 3, and its fourth power is 81. -/
theorem powers_fold_exactly_three :
    (Expr.binary (.pow false) (.number (.int 8) 3) (.number (.int 8) 261)).FoldsAt Keccak.digest 8
        (.number (.int 8) (-13)) ∧
      (Expr.binary (.pow true) (.number (.int 8) 3) (.number (.int 8) 261)).FoldsAt Keccak.digest 8
        (.binary (.pow true) (.number (.int 8) 3) (.number (.int 8) 261)) ∧
      (Expr.binary (.pow true) (.number (.int 8) 259) (.number (.int 8) 4)).FoldsAt Keccak.digest 8
        (.number (.int 8) 81) :=
  ⟨(powers_fold_exactly Keccak.digest ⟨true, 8⟩ (by decide) 3 261).1,
    (powers_fold_exactly Keccak.digest ⟨true, 8⟩ (by decide) 3 261).2 (by decide),
    (powers_fold_exactly Keccak.digest ⟨true, 8⟩ (by decide) 259 4).2 (by decide)⟩

end ContractIR
