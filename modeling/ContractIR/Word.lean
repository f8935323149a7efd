import ContractIR.Numeric
import ContractIR.Ty

/-!
# ContractIR.Word — integers of a fixed number of bits

A `w`-bit word is an integer modulo `2 ^ w`.  It is read as a natural number below `2 ^ w`, or in
two's complement as an integer from `-2 ^ (w - 1)` on.  A word of no bits is zero in both readings.
-/

namespace ContractIR

namespace Word

/-- How many words of `w` bits there are: `2 ^ w`. -/
def modulus (w : Nat) : Nat := Nat.pow 2 w

theorem modulus_pos (w : Nat) : 0 < modulus w := Nat.pow_pos (by omega)

theorem modulus_add (v w : Nat) : modulus (v + w) = modulus v * modulus w := Nat.pow_add 2 v w

/-- The number of binary digits of the magnitude. -/
def bitLength (value : Int) : Nat := if value = 0 then 0 else value.natAbs.log2 + 1

theorem natAbs_lt_modulus {w : Nat} {value : Int} (h : bitLength value ≤ w) :
    value.natAbs < modulus w := by
  unfold bitLength at h
  split at h
  · have := modulus_pos w
    omega
  · exact Nat.lt_of_lt_of_le Nat.lt_log2_self (Nat.pow_le_pow_right (by omega) h)

/-- The value modulo `2 ^ w` as a natural number.  A natural number of at most `w` digits stands for
itself, however large `w` is. -/
def unsigned (w : Nat) (value : Int) : Nat :=
  if 0 ≤ value ∧ bitLength value ≤ w then value.toNat else (value % modulus w).toNat

/-- The value modulo `2 ^ w` in two's complement.  An integer of fewer than `w` digits stands for
itself, however large `w` is. -/
def signed (w : Nat) (value : Int) : Int :=
  if bitLength value < w then value else value.bmod (modulus w)

theorem unsigned_eq (w : Nat) (value : Int) : unsigned w value = (value % modulus w).toNat := by
  unfold unsigned
  split
  · rename_i h
    have hlt := natAbs_lt_modulus h.2
    rw [Int.emod_eq_of_lt h.1 (by omega)]
  · rfl

theorem signed_eq (w : Nat) (value : Int) : signed w value = value.bmod (modulus w) := by
  unfold signed
  split
  · rename_i h
    have hlt := natAbs_lt_modulus (w := w - 1) (by omega : bitLength value ≤ w - 1)
    have hw : modulus w = modulus (w - 1) * 2 := by
      rw [← show modulus 1 = 2 from rfl, ← modulus_add]
      congr 1
      omega
    rw [Int.bmod_eq_of_le (by omega) (by omega)]
  · rfl

theorem unsigned_lt (w : Nat) (value : Int) : unsigned w value < modulus w := by
  have hpos : (0 : Int) < modulus w := by exact_mod_cast modulus_pos w
  have hlt := Int.emod_lt_of_pos value hpos
  have hnn := Int.emod_nonneg value (Int.ne_of_gt hpos)
  rw [unsigned_eq]
  omega

/-- The unsigned reading is congruent to the value. -/
theorem unsigned_emod (w : Nat) (value : Int) :
    (unsigned w value : Int) = value % modulus w := by
  have hpos : (0 : Int) < modulus w := by exact_mod_cast modulus_pos w
  have hnn := Int.emod_nonneg value (Int.ne_of_gt hpos)
  rw [unsigned_eq]
  omega

/-- The signed reading is congruent to the value. -/
theorem signed_emod (w : Nat) (value : Int) :
    signed w value % modulus w = value % modulus w := by
  rw [signed_eq]
  exact Int.bmod_emod

/-- How the bits of a word are read. -/
structure Format where
  signed : Bool
  width : Nat
deriving DecidableEq, Inhabited

namespace Format

/-- The number in the range of the format that is equal to the value modulo `2 ^ width`. -/
def wrap (f : Format) (value : Int) : Int :=
  if f.signed then Word.signed f.width value else Word.unsigned f.width value

/-- Whether the format can represent the value. -/
def inRange (f : Format) (value : Int) : Bool := f.wrap value == value

/-- The largest number that the format can represent; for a signed word of no bits, minus one. -/
def max (f : Format) : Int :=
  if f.signed then if f.width = 0 then -1 else (modulus (f.width - 1) : Int) - 1
  else (modulus f.width : Int) - 1

end Format

end Word

/-- An integer type as it is declared; nothing keeps the declared width from being negative. -/
structure IntTy where
  signed : Bool
  width : Int
deriving DecidableEq, Inhabited

namespace IntTy

/-- The declared width as a number of bits. -/
def checkWidth (width : Int) : Except NumericError Nat :=
  if 0 ≤ width then .ok width.toNat else .error (.negativeWidth width)

/-- The format of the words of the type; there is none if the width is negative. -/
def format (t : IntTy) : Except NumericError Word.Format := do
  return ⟨t.signed, ← checkWidth t.width⟩

end IntTy

namespace Ty

/-- The integer type that the type is, if it is one. -/
def intTy? : Ty → Option IntTy
  | int width => some ⟨true, width⟩
  | uint width => some ⟨false, width⟩
  | _ => none

end Ty

end ContractIR
