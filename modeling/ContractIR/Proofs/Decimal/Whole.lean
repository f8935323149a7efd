import ContractIR.Proofs.Decimal.Layout
import ContractIR.Proofs.Decimal.Rounding

/-!
# ContractIR.Proofs.Decimal.Whole — integers can be told from their texts

The digits of a whole float either are the number, or round to it and to no other float.  So no two
integers that are floats share a text (`reads_intText`).
-/

namespace ContractIR.Decimal

open Text

/-- A character of a number without its sign. -/
def isNumeric (c : Char) : Bool := c.isDigit || c == '.' || c == 'e' || c == '+'

/-! ### The digits -/

theorem chars_of_lt {d : Nat} (h : d < 10 ^ 21) : chars d 0 = Nat.toDigits 10 d := by
  obtain ⟨k, hk⟩ := exists_eq_dropTrailingZeros_append (Nat.toDigits 10 d)
  have hlen := congrArg List.length hk
  rw [List.length_append, List.length_replicate] at hlen
  have h21 : (Nat.toDigits 10 d).length ≤ 21 :=
    (Nat.length_toDigits_le_iff (by omega) (by omega)).2 h
  unfold chars
  rw [layout_of_le (by omega) (by omega), Nat.zero_add,
    show (Nat.toDigits 10 d).length - (dropTrailingZeros (Nat.toDigits 10 d)).length = k by omega,
    ← hk]

theorem isNumeric_of_mem_chars {d e : Nat} {c : Char} (h : c ∈ chars d e) : isNumeric c = true := by
  have hdigit : ∀ {c}, c ∈ dropTrailingZeros (Nat.toDigits 10 d) → isNumeric c = true := by
    intro c hc
    simp [isNumeric, isDigit_toDigits (mem_of_mem_dropTrailingZeros hc)]
  have hlen := length_dropTrailingZeros_le (Nat.toDigits 10 d)
  unfold chars at h
  rcases Nat.lt_or_ge 21 (e + (Nat.toDigits 10 d).length) with h21 | h21
  · rw [layout_of_lt h21] at h
    simp only [List.mem_append, List.mem_cons] at h
    rcases h with (h | h) | rfl | rfl | h
    · exact hdigit (List.mem_of_mem_take h)
    · split at h
      · cases h
      · rcases List.mem_cons.1 h with rfl | h
        · rfl
        · exact hdigit (List.mem_of_mem_drop h)
    · rfl
    · rfl
    · simp [isNumeric, isDigit_toDigits h]
  · rw [layout_of_le (by omega) h21] at h
    rcases List.mem_append.1 h with h | h
    · exact hdigit h
    · rw [List.eq_of_mem_replicate h]
      rfl

/-- The text begins with a digit. -/
def BeginsWithDigit (s : List Char) : Prop := ∃ c r, s = c :: r ∧ c.isDigit = true

theorem BeginsWithDigit.ne_nil {s : List Char} (h : BeginsWithDigit s) : s ≠ [] := by
  obtain ⟨c, r, rfl, -⟩ := h
  exact List.cons_ne_nil c r

theorem beginsWithDigit_toDigits (n : Nat) : BeginsWithDigit (Nat.toDigits 10 n) := by
  obtain ⟨c, r, h⟩ := List.exists_cons_of_ne_nil (Nat.toDigits_ne_nil (n := n) (b := 10))
  exact ⟨c, r, h, isDigit_toDigits (n := n) (by simp [h])⟩

theorem beginsWithDigit_chars {d : Nat} (hd : d ≠ 0) (e : Nat) : BeginsWithDigit (chars d e) := by
  obtain ⟨k, hk⟩ := exists_eq_dropTrailingZeros_append (Nat.toDigits 10 d)
  have hds : dropTrailingZeros (Nat.toDigits 10 d) ≠ [] := by
    intro hnil
    rw [hnil, List.nil_append] at hk
    have hvalue := Nat.ofDigitChars_ten_toDigits (n := d)
    rw [hk, Nat.ofDigitChars_replicate_zero] at hvalue
    omega
  obtain ⟨c, r, hcr⟩ := List.exists_cons_of_ne_nil hds
  have hc : c.isDigit = true :=
    isDigit_toDigits (n := d) (mem_of_mem_dropTrailingZeros (by simp [hcr]))
  have hlen := length_dropTrailingZeros_le (Nat.toDigits 10 d)
  unfold chars
  rcases Nat.lt_or_ge 21 (e + (Nat.toDigits 10 d).length) with h21 | h21
  · rw [layout_of_lt h21, hcr]
    exact ⟨c, _, rfl, hc⟩
  · rw [layout_of_le (by omega) h21, hcr]
    exact ⟨c, _, rfl, hc⟩

/-! ### The number that the digits stand for -/

/-- The digits of `v` are written for the whole float `x`. -/
inductive Stands : Nat → Nat → Prop
  | exact {x : Nat} : x ≤ 2 ^ 53 → Stands x x
  | rounded {m q v : Nat} : Normal m q → 2 ^ 53 < m * 2 ^ q → Rounds m q v → Stands (m * 2 ^ q) v

theorem Stands.unique {x y v : Nat} (hx : Stands x v) (hy : Stands y v) : x = y := by
  cases hx with
  | exact hx =>
    cases hy with
    | exact _ => rfl
    | rounded hm hbig hy =>
      have := hy.lt_of_normal hm hbig
      omega
  | rounded hm hbig hx =>
    cases hy with
    | exact _ =>
      have := hx.lt_of_normal hm hbig
      omega
    | rounded hm' _ hy =>
      obtain ⟨rfl, rfl⟩ := hx.unique hm hm' hy
      rfl

/-! ### Signs -/

/-- The sign of an integer. -/
def sign (n : Int) : List Char := if n < 0 then ['-'] else []

theorem toString_toList (n : Int) : (toString n).toList = sign n ++ Nat.toDigits 10 n.natAbs := by
  rw [Int.toString_eq_repr, Int.repr_eq_if]
  split
  · rw [sign, if_neg (by omega), Nat.toList_repr, show n.toNat = n.natAbs by omega, List.nil_append]
  · rw [sign, if_pos (by omega), String.toList_append, Nat.toList_repr,
      show (-n).toNat = n.natAbs by omega]
    rfl

/-- A sign and a run of characters of which none is a sign. -/
theorem sign_run_inj {p : Char → Bool} (hp : p '-' = false) {m n : Int} {s t u v : List Char}
    (hs : ∀ c ∈ s, p c = true) (ht : ∀ c ∈ t, p c = true) (hs0 : s ≠ []) (ht0 : t ≠ [])
    (hu : Stops p u) (hv : Stops p v) (h : sign m ++ s ++ u = sign n ++ t ++ v) :
    (m < 0 ↔ n < 0) ∧ s = t ∧ u = v := by
  have hsign : ∀ {l w w' : List Char}, (∀ c ∈ l, p c = true) → l ≠ [] → l ++ w ≠ '-' :: w' := by
    intro l w w' hl hl0 h
    obtain ⟨c, l, rfl⟩ := List.exists_cons_of_ne_nil hl0
    obtain ⟨rfl, -⟩ := List.cons.inj h
    rw [hl _ (by simp)] at hp
    cases hp
  unfold sign at h
  by_cases hm : m < 0 <;> by_cases hn : n < 0 <;>
    simp only [hm, hn, if_true, if_false, List.cons_append, List.nil_append, List.cons.injEq,
      true_and] at h
  · exact ⟨by simp [hm, hn], run_inj hs ht hu hv h⟩
  · exact absurd h.symm (hsign ht ht0)
  · exact absurd h (hsign hs hs0)
  · exact ⟨by simp [hm, hn], run_inj hs ht hu hv h⟩

/-! ### Integers -/

/-- The text of a whole float: a sign, and digits that stand for its magnitude. -/
theorem exists_chars_of_isFloat {n : Int} (h : IsFloat n) :
    ∃ d e, Stands n.natAbs (d * 10 ^ e) ∧ BeginsWithDigit (chars d e) ∧
      (intText n).toList = sign n ++ chars d e := by
  unfold intText
  split
  next hsmall =>
    have hchars : chars n.natAbs 0 = Nat.toDigits 10 n.natAbs := chars_of_lt (by omega)
    refine ⟨n.natAbs, 0, ?_, ?_, ?_⟩
    · rw [pow_zero, Nat.mul_one]
      exact .exact hsmall
    · rw [hchars]
      exact beginsWithDigit_toDigits n.natAbs
    · rw [toString_toList, hchars]
  next hbig =>
    have hbig : 2 ^ 53 < n.natAbs := by omega
    obtain ⟨m, q, hnearest, hn, hm⟩ := nearest_of_isFloat h hbig (decide (n < 0))
    obtain ⟨d, e, hshort, hround⟩ := Magnitude.shortest_whole hm
    have hd : d ≠ 0 := by
      rintro rfl
      have := hround.lt_of_normal hm (hn ▸ hbig)
      omega
    refine ⟨d, e, hn ▸ .rounded hm (hn ▸ hbig) hround, beginsWithDigit_chars hd e, ?_⟩
    have hm0 : m ≠ 0 := by
      have := hm.le
      omega
    rw [hnearest, Binary.text, if_neg hm0, String.toList_append, Magnitude.text, hshort]
    by_cases hneg : n < 0 <;> simp [sign, hneg, chars]

theorem intText_head {n : Int} (h : IsFloat n) :
    ∃ c r, (intText n).toList = c :: r ∧ (c.isDigit || c == '-') = true := by
  obtain ⟨d, e, -, ⟨c, r, hchars, hc⟩, hs⟩ := exists_chars_of_isFloat h
  rw [hs, hchars]
  unfold sign
  split
  · exact ⟨'-', c :: r, rfl, rfl⟩
  · exact ⟨c, r, rfl, by simp [hc]⟩

/-- A number begins with a digit or its sign. -/
theorem intText_append_ne_cons {n : Int} {c : Char} {u v : List Char} (h : IsFloat n)
    (hc : (c.isDigit || c == '-') = false) : (intText n).toList ++ u ≠ c :: v := by
  obtain ⟨c', r, hr, hc'⟩ := intText_head h
  rw [hr]
  intro heq
  obtain ⟨rfl, -⟩ := List.cons.inj heq
  rw [hc] at hc'
  cases hc'

/-- The text of an integer that is a float. -/
def NumberText (n : Int) (s : List Char) : Prop := IsFloat n ∧ (intText n).toList = s

/-- Integers that are floats can be told from their texts. -/
theorem reads_intText : Reads NumberText (Stops isNumeric) := by
  rintro m n s t u v ⟨hm, rfl⟩ ⟨hn, rfl⟩ hu hv h
  obtain ⟨d, e, hstands, hdigit, hs⟩ := exists_chars_of_isFloat hm
  obtain ⟨d', e', hstands', hdigit', ht⟩ := exists_chars_of_isFloat hn
  rw [hs, ht] at h
  obtain ⟨hsign, hchars, hrest⟩ := sign_run_inj rfl (fun _ => isNumeric_of_mem_chars)
    (fun _ => isNumeric_of_mem_chars) hdigit.ne_nil hdigit'.ne_nil hu hv h
  rw [chars_inj hchars] at hstands
  have habs := hstands.unique hstands'
  exact ⟨by omega, hrest⟩

/-- Integers written with all their digits can be told from their texts. -/
theorem reads_toString :
    Reads (fun (n : Int) s => (toString n).toList = s) (Stops Char.isDigit) := by
  rintro m n s t u v rfl rfl hu hv h
  rw [toString_toList, toString_toList] at h
  obtain ⟨hsign, hdigits, hrest⟩ := sign_run_inj rfl (fun _ => isDigit_toDigits)
    (fun _ => isDigit_toDigits) Nat.toDigits_ne_nil Nat.toDigits_ne_nil hu hv h
  have habs := toDigits_inj hdigits
  exact ⟨by omega, hrest⟩

end ContractIR.Decimal
