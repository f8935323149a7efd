import ContractIR.Word.Power
import Mathlib.Algebra.Order.Ring.Int
import Mathlib.Data.BitVec

/-!
# ContractIR.Proofs.Word — words as bit vectors

The integers that share a word are those with the same residue, so a word of `w` bits is a
`BitVec w`.  The readings of `ContractIR.Word` are the two readings of a bit vector, and both loops
of `ContractIR.Word.Power` compute powers.
-/

namespace ContractIR.Word

/-! ### Readings -/

theorem modulus_eq (w : Nat) : (modulus w : Int) = 2 ^ w := by
  simp only [modulus, Nat.pow_eq, Nat.cast_pow, Nat.cast_ofNat]

theorem toNat_ofInt (w : Nat) (value : Int) : (BitVec.ofInt w value).toNat = unsigned w value := by
  rw [BitVec.toNat_ofInt, unsigned_eq]
  rfl

theorem toInt_ofInt (w : Nat) (value : Int) : (BitVec.ofInt w value).toInt = signed w value := by
  rw [BitVec.toInt_ofInt, signed_eq]
  rfl

theorem ofNat_toNat {w : Nat} (bits : BitVec w) : BitVec.ofNat w bits.toNat = bits := by
  rw [BitVec.ofNat_toNat, BitVec.setWidth_eq]

theorem ofNat_unsigned (w : Nat) (value : Int) :
    BitVec.ofNat w (unsigned w value) = BitVec.ofInt w value := by
  rw [← toNat_ofInt, ofNat_toNat]

theorem ofInt_unsigned (w : Nat) (value : Int) :
    BitVec.ofInt w (unsigned w value) = BitVec.ofInt w value := by
  rw [BitVec.ofInt_natCast, ofNat_unsigned]

theorem ofInt_signed (w : Nat) (value : Int) :
    BitVec.ofInt w (signed w value) = BitVec.ofInt w value := by
  rw [← toInt_ofInt, BitVec.ofInt_toInt]

theorem ofInt_sub (w : Nat) (a b : Int) :
    BitVec.ofInt w (a - b) = BitVec.ofInt w a - BitVec.ofInt w b := Int.cast_sub a b

theorem ofInt_pow (w : Nat) (a : Int) (n : Nat) :
    BitVec.ofInt w (a ^ n) = BitVec.ofInt w a ^ n := Int.cast_pow a n

namespace Format

variable (f : Format)

/-- The number that the bits stand for. -/
def read (bits : BitVec f.width) : Int := if f.signed then bits.toInt else bits.toNat

/-- The number is in the range of the format. -/
def Represents (n : Int) : Prop :=
  if f.signed then -2 ^ f.width ≤ 2 * n ∧ 2 * n < 2 ^ f.width else 0 ≤ n ∧ n < 2 ^ f.width

instance (n : Int) : Decidable (f.Represents n) := by
  unfold Represents
  infer_instance

@[simp] theorem read_ofInt (value : Int) : f.read (BitVec.ofInt f.width value) = f.wrap value := by
  unfold read wrap
  rw [toInt_ofInt, toNat_ofInt]

@[simp] theorem ofInt_wrap (value : Int) :
    BitVec.ofInt f.width (f.wrap value) = BitVec.ofInt f.width value := by
  unfold wrap
  split
  · exact ofInt_signed f.width value
  · exact ofInt_unsigned f.width value

theorem represents_read (bits : BitVec f.width) : f.Represents (f.read bits) := by
  unfold Represents read
  split
  · exact ⟨BitVec.le_two_mul_toInt, BitVec.two_mul_toInt_lt⟩
  · exact ⟨by omega, by exact_mod_cast bits.isLt⟩

/-- Wrapping changes nothing exactly if the number is in range. -/
theorem wrap_eq_self_iff {value : Int} : f.wrap value = value ↔ f.Represents value := by
  constructor
  · intro h
    rw [← h, ← read_ofInt]
    exact f.represents_read _
  · intro h
    unfold Represents at h
    unfold wrap
    split at h
    · rename_i hs
      rw [if_pos hs, signed_eq]
      exact Int.bmod_eq_of_le_mul_two (by rw [modulus_eq]; omega) (by rw [modulus_eq]; omega)
    · rename_i hs
      rw [if_neg hs, unsigned_emod]
      exact Int.emod_eq_of_lt h.1 (by rw [modulus_eq]; omega)

theorem represents_zero : f.Represents 0 := by
  have hpos : (0 : Int) < 2 ^ f.width := Int.pow_pos (by omega)
  unfold Represents
  split <;> omega

theorem represents_wrap (value : Int) : f.Represents (f.wrap value) := by
  rw [← read_ofInt]
  exact f.represents_read _

/-- A number in range has no more digits than the format has bits. -/
theorem bitLength_le {value : Int} (h : f.Represents value) : bitLength value ≤ f.width := by
  have hmodulus := modulus_eq f.width
  have hpos := modulus_pos f.width
  have hlt : value.natAbs < modulus f.width := by
    unfold Represents at h
    split at h <;> omega
  unfold bitLength
  split
  · omega
  · rename_i hne
    exact (Nat.log2_lt (by omega)).2 hlt

theorem inRange_iff {value : Int} : f.inRange value = true ↔ f.Represents value := by
  rw [inRange, beq_iff_eq, wrap_eq_self_iff]

theorem one_le_max (hw : 1 ≤ f.width) (hs : f.signed = true → 2 ≤ f.width) : 1 ≤ f.max := by
  have hpow {m n : Nat} (h : m ≤ n) : (2 ^ m : Int) ≤ modulus n := by
    rw [modulus_eq]
    exact pow_le_pow_right₀ (by omega) h
  unfold max
  split
  · rename_i hsigned
    have hw' := hs hsigned
    have htwo := hpow (show 1 ≤ f.width - 1 by omega)
    rw [if_neg (by omega)]
    omega
  · have htwo := hpow hw
    omega

theorem represents_of_le_max {n : Int} (hw : 0 < f.width) (h0 : 0 ≤ n) (h : n ≤ f.max) :
    f.Represents n := by
  have hpow : (2 : Int) ^ f.width = 2 * 2 ^ (f.width - 1) := by
    rw [← pow_succ', Nat.sub_add_cancel hw]
  have hpos : (0 : Int) < 2 ^ (f.width - 1) := Int.pow_pos (by omega)
  unfold max at h
  unfold Represents
  split at h
  · rename_i hs
    rw [if_neg (by omega), modulus_eq] at h
    rw [if_pos hs]
    omega
  · rename_i hs
    rw [modulus_eq] at h
    rw [if_neg hs]
    omega

end Format

/-! ### Powers -/

/-- One round of squaring: the last bit of the exponent says whether a factor is taken out. -/
theorem pow_eq_round {M : Type} [CommMonoid M] (a s : M) (n : Nat) :
    a * s ^ n = (if n % 2 = 1 then a * s else a) * (s * s) ^ (n / 2) := by
  have hs : s ^ n = s ^ (n % 2) * (s * s) ^ (n / 2) := by
    rw [← pow_two, ← pow_mul, ← pow_add, Nat.mod_add_div]
  rcases Nat.mod_two_eq_zero_or_one n with h | h
  · rw [hs, h, pow_zero, one_mul, if_neg (by omega)]
  · rw [hs, h, pow_one, if_pos rfl, mul_assoc]

theorem ofNat_modPowLoop (w result square n : Nat) :
    BitVec.ofNat w (modPowLoop w result square n) =
      BitVec.ofNat w result * BitVec.ofNat w square ^ n := by
  fun_induction modPowLoop w result square n with
  | case1 result square => rw [pow_zero, mul_one]
  | case2 result square n hn ih =>
    have hround (k : Nat) : BitVec.ofNat w (unsigned w (k : Int)) = BitVec.ofNat w k := by
      rw [ofNat_unsigned, BitVec.ofInt_natCast]
    rw [dite_eq_ite] at ih
    rw [ih, pow_eq_round _ _ n, hround, BitVec.ofNat_mul]
    split
    · rw [hround, BitVec.ofNat_mul]
    · rfl

theorem ofNat_modPow (w : Nat) (base exponent : Int) :
    BitVec.ofNat w (modPow w base exponent) = BitVec.ofInt w base ^ exponent.toNat := by
  rw [modPow, ofNat_modPowLoop, ofNat_unsigned]
  exact one_mul _

theorem boundedPowLoop_eq_some {limit result square v : Int} {n : Nat}
    (h : boundedPowLoop limit result square n = some v) :
    v = result * square ^ n ∧ (result ≤ limit → v ≤ limit) := by
  fun_induction boundedPowLoop limit result square n with
  | case1 result square =>
    cases h
    exact ⟨by rw [pow_zero, mul_one], id⟩
  | case2 => cases h
  | case3 result square n hn product hlimit hhalf =>
    have hproduct : product = if n % 2 = 1 then result * square else result := rfl
    obtain rfl := Option.some.inj h
    refine ⟨by rw [pow_eq_round, hhalf, pow_zero, mul_one, hproduct], fun hr => ?_⟩
    by_cases hodd : n % 2 = 1
    · omega
    · rwa [hproduct, if_neg hodd]
  | case4 => cases h
  | case5 result square n hn product hlimit hhalf hsquare ih =>
    have hproduct : product = if n % 2 = 1 then result * square else result := rfl
    obtain ⟨hv, hle⟩ := ih h
    refine ⟨by rw [hv, pow_eq_round _ _ n, hproduct], fun hr => hle ?_⟩
    by_cases hodd : n % 2 = 1
    · omega
    · rwa [hproduct, if_neg hodd]

/-- Giving up is right: one factor that is too large is enough, since no factor left is zero. -/
theorem lt_of_boundedPowLoop_eq_none {limit result square : Int} {n : Nat}
    (h : boundedPowLoop limit result square n = none) (hlimit : 1 ≤ limit) (hsquare : 0 ≤ square)
    (hresult : 0 < square → 0 < result) : limit < result * square ^ n := by
  fun_induction boundedPowLoop limit result square n with
  | case1 result square => cases h
  | case2 result square n hn product hproduct =>
    have hodd : product = result * square := if_pos hproduct.1
    have hpos : 0 < square := hsquare.lt_of_ne (by rintro rfl; omega)
    have hle : result * square ≤ result * square ^ n :=
      mul_le_mul_of_nonneg_left (le_self_pow₀ hpos hn) (hresult hpos).le
    omega
  | case3 => cases h
  | case4 result square n hn product hproduct hhalf hlarge =>
    have hpos : 0 < square := hsquare.lt_of_ne (by rintro rfl; omega)
    have hle : square ^ 2 ≤ square ^ n := pow_le_pow_right₀ hpos (by omega)
    have hone : 1 * square ^ n ≤ result * square ^ n :=
      mul_le_mul_of_nonneg_right (hresult hpos) (pow_nonneg hsquare n)
    rw [pow_two] at hle
    omega
  | case5 result square n hn product hproduct hhalf hlarge ih =>
    have hround : product = if n % 2 = 1 then result * square else result := rfl
    have hlt := ih h (mul_nonneg hsquare hsquare) fun hpos => by
      have hpos' : 0 < square := hsquare.lt_of_ne (by rintro rfl; omega)
      rw [hround]
      split
      · exact mul_pos (hresult hpos') hpos'
      · exact hresult hpos'
    rwa [pow_eq_round _ _ n, ← hround]

/-- What is returned is the power, and it does not exceed a limit of at least one. -/
theorem boundedPow_eq_some {base exponent limit v : Int}
    (h : boundedPow base exponent limit = some v) (hlimit : 1 ≤ limit) :
    v = base ^ exponent.toNat ∧ v ≤ limit := by
  obtain ⟨hv, hle⟩ := boundedPowLoop_eq_some h
  exact ⟨by rw [hv, one_mul], hle hlimit⟩

/-- The power is returned exactly if it does not exceed the limit. -/
theorem boundedPow_eq {base exponent limit : Int} (hbase : 0 ≤ base) (hlimit : 1 ≤ limit) :
    boundedPow base exponent limit =
      if base ^ exponent.toNat ≤ limit then some (base ^ exponent.toNat) else none := by
  cases h : boundedPow base exponent limit with
  | none =>
    have hlt := lt_of_boundedPowLoop_eq_none h hlimit hbase fun _ => one_pos
    rw [one_mul] at hlt
    rw [if_neg (by omega)]
  | some v =>
    obtain ⟨rfl, hle⟩ := boundedPow_eq_some h hlimit
    rw [if_pos hle]

end ContractIR.Word
