import ContractIR.Decimal.Text
import ContractIR.Proofs.Text.Reading
import Mathlib.Algebra.Order.Ring.Nat
import Mathlib.Data.List.TakeWhile

/-!
# ContractIR.Proofs.Decimal.Layout — what a written number tells

A decimal `d * 10 ^ e` without a fraction is written from its digits without the zeros at their end
and from the place of its point.  Both can be told from the text, hence so can the number.
-/

namespace ContractIR.Decimal

/-- The text of `d * 10 ^ e`. -/
def chars (d e : Nat) : List Char :=
  (layout (dropTrailingZeros (Nat.toDigits 10 d)) (e + (Nat.toDigits 10 d).length : Nat)).toList

/-! ### Zeros at the end -/

theorem dropTrailingZeros_append_replicate (l : List Char) (k : Nat) :
    dropTrailingZeros (l ++ List.replicate k '0') = dropTrailingZeros l := by
  unfold dropTrailingZeros
  rw [List.reverse_append, List.reverse_replicate, List.dropWhile_append_of_pos]
  intro c hc
  rw [List.eq_of_mem_replicate hc]
  rfl

theorem exists_eq_dropTrailingZeros_append (l : List Char) :
    ∃ k, l = dropTrailingZeros l ++ List.replicate k '0' := by
  refine ⟨(l.reverse.takeWhile (· == '0')).length, ?_⟩
  have hzeros : l.reverse.takeWhile (· == '0') =
      List.replicate (l.reverse.takeWhile (· == '0')).length '0' := by
    refine List.eq_replicate_iff.2 ⟨rfl, fun c hc => ?_⟩
    simpa using List.mem_takeWhile_imp hc
  rw [← List.reverse_replicate, ← hzeros, dropTrailingZeros, ← List.reverse_append,
    List.takeWhile_append_dropWhile, List.reverse_reverse]

theorem dropTrailingZeros_idem (l : List Char) :
    dropTrailingZeros (dropTrailingZeros l) = dropTrailingZeros l := by
  obtain ⟨k, hk⟩ := exists_eq_dropTrailingZeros_append l
  rw [← dropTrailingZeros_append_replicate (dropTrailingZeros l) k, ← hk]

theorem length_dropTrailingZeros_le (l : List Char) : (dropTrailingZeros l).length ≤ l.length := by
  obtain ⟨k, hk⟩ := exists_eq_dropTrailingZeros_append l
  have hlen := congrArg List.length hk
  rw [List.length_append] at hlen
  omega

theorem mem_of_mem_dropTrailingZeros {c : Char} {l : List Char} (h : c ∈ dropTrailingZeros l) :
    c ∈ l := by
  obtain ⟨k, hk⟩ := exists_eq_dropTrailingZeros_append l
  rw [hk]
  exact List.mem_append_left _ h

/-! ### The two forms -/

section Layout

variable {ds ds' : List Char} {p p' : Nat}

theorem layout_of_le (hp : ds.length ≤ p) (h : p ≤ 21) :
    (layout ds p).toList = ds ++ List.replicate (p - ds.length) '0' := by
  unfold layout
  rw [if_pos ⟨by omega, by omega⟩, String.toList_ofList,
    show ((p : Int) - ds.length).toNat = p - ds.length by omega]

theorem layout_of_lt (h : 21 < p) :
    (layout ds p).toList =
      (ds.take 1 ++ if ds.length ≤ 1 then [] else '.' :: ds.drop 1) ++
        'e' :: '+' :: Nat.toDigits 10 (p - 1) := by
  have hexp : ((p : Int) - 1).natAbs = p - 1 := by omega
  unfold layout
  rw [if_neg (by omega), if_neg (by omega), if_neg (by omega)]
  simp only [if_neg (show ¬ (p : Int) - 1 < 0 by omega), hexp, String.toList_append,
    String.toList_ofList, Nat.toString_eq_repr, Nat.toList_repr, String.reduceToList,
    List.append_assoc, List.cons_append, List.nil_append]

theorem isDigit_toDigits {n : Nat} {c : Char} (h : c ∈ Nat.toDigits 10 n) : c.isDigit = true :=
  Nat.isDigit_of_mem_toDigits (by omega) (by omega) h

theorem toDigits_inj {m n : Nat} (h : Nat.toDigits 10 m = Nat.toDigits 10 n) : m = n := by
  rw [← Nat.ofDigitChars_ten_toDigits (n := m), h, Nat.ofDigitChars_ten_toDigits]

theorem not_mem_mantissa (hds : ∀ c ∈ ds, c.isDigit) :
    'e' ∉ ds.take 1 ++ if ds.length ≤ 1 then [] else '.' :: ds.drop 1 := by
  have he : 'e' ∉ ds := fun h => absurd (hds _ h) (by decide)
  split
  · simpa using fun h => he (List.mem_of_mem_take h)
  · simp only [List.mem_append, List.mem_cons, not_or]
    exact ⟨fun h => he (List.mem_of_mem_take h), by decide, fun h => he (List.mem_of_mem_drop h)⟩

theorem filter_mantissa (hds : ∀ c ∈ ds, c.isDigit) :
    (ds.take 1 ++ if ds.length ≤ 1 then [] else '.' :: ds.drop 1).filter (· ≠ '.') = ds := by
  have hkeep : ∀ l : List Char, l ⊆ ds → l.filter (· ≠ '.') = l := by
    intro l hl
    refine List.filter_eq_self.2 fun c hc => ?_
    have hdigit := hds c (hl hc)
    have : c ≠ '.' := by
      rintro rfl
      exact absurd hdigit (by decide)
    simpa using this
  rw [List.filter_append, hkeep _ (List.take_subset 1 ds)]
  split
  · rw [List.filter_nil, List.append_nil, List.take_of_length_le (by assumption)]
  · rw [List.filter_cons_of_neg (by simp), hkeep _ (List.drop_subset 1 ds), List.take_append_drop]

/-- Digits and point can be told from the text. -/
theorem layout_inj (hds : ∀ c ∈ ds, c.isDigit) (hds' : ∀ c ∈ ds', c.isDigit)
    (hz : dropTrailingZeros ds = ds) (hz' : dropTrailingZeros ds' = ds') (hp : ds.length ≤ p)
    (hp' : ds'.length ≤ p') (h : (layout ds p).toList = (layout ds' p').toList) :
    ds = ds' ∧ p = p' := by
  have hplain : ∀ {l : List Char} {k : Nat}, (∀ c ∈ l, c.isDigit) →
      'e' ∉ l ++ List.replicate k '0' := by
    intro l k hl he
    rcases List.mem_append.1 he with he | he
    · exact absurd (hl _ he) (by decide)
    · exact absurd (List.eq_of_mem_replicate he) (by decide)
  rcases Nat.lt_or_ge 21 p with h21 | h21 <;> rcases Nat.lt_or_ge 21 p' with h21' | h21'
  · rw [layout_of_lt h21, layout_of_lt h21'] at h
    obtain ⟨hm, hexp⟩ := Text.append_cons_inj (not_mem_mantissa hds) (not_mem_mantissa hds') h
    refine ⟨?_, ?_⟩
    · rw [← filter_mantissa hds, hm, filter_mantissa hds']
    · have := toDigits_inj (List.cons.inj hexp).2
      omega
  · rw [layout_of_lt h21, layout_of_le hp' h21'] at h
    refine absurd ?_ (hplain hds' (k := p' - ds'.length))
    rw [← h]
    simp
  · rw [layout_of_le hp h21, layout_of_lt h21'] at h
    refine absurd ?_ (hplain hds (k := p - ds.length))
    rw [h]
    simp
  · rw [layout_of_le hp h21, layout_of_le hp' h21'] at h
    have hdrop := congrArg dropTrailingZeros h
    rw [dropTrailingZeros_append_replicate, dropTrailingZeros_append_replicate, hz, hz'] at hdrop
    have hlen := congrArg List.length h
    simp only [List.length_append, List.length_replicate] at hlen
    exact ⟨hdrop, by omega⟩

end Layout

/-! ### The number that is written -/

/-- The number can be told from the text. -/
theorem chars_inj {d e d' e' : Nat} (h : chars d e = chars d' e') : d * 10 ^ e = d' * 10 ^ e' := by
  have hvalue : ∀ d e : Nat, d * 10 ^ e =
      Nat.ofDigitChars 10 (dropTrailingZeros (Nat.toDigits 10 d)) 0 *
        10 ^ (e + (Nat.toDigits 10 d).length - (dropTrailingZeros (Nat.toDigits 10 d)).length) := by
    intro d e
    obtain ⟨k, hk⟩ := exists_eq_dropTrailingZeros_append (Nat.toDigits 10 d)
    have hd := Nat.ofDigitChars_ten_toDigits (n := d)
    rw [hk, Nat.ofDigitChars_append, Nat.ofDigitChars_replicate_zero] at hd
    have hlen := congrArg List.length hk
    rw [List.length_append, List.length_replicate] at hlen
    have hexp : e + (Nat.toDigits 10 d).length - (dropTrailingZeros (Nat.toDigits 10 d)).length =
        k + e := by omega
    calc d * 10 ^ e
        = 10 ^ k * Nat.ofDigitChars 10 (dropTrailingZeros (Nat.toDigits 10 d)) 0 * 10 ^ e := by
          rw [hd]
      _ = _ := by rw [hexp, Nat.pow_add, Nat.mul_comm (10 ^ k), Nat.mul_assoc]
  have hdigits : ∀ d : Nat, ∀ c ∈ dropTrailingZeros (Nat.toDigits 10 d), c.isDigit :=
    fun d c hc => isDigit_toDigits (mem_of_mem_dropTrailingZeros hc)
  have hle : ∀ d e : Nat, (dropTrailingZeros (Nat.toDigits 10 d)).length ≤
      e + (Nat.toDigits 10 d).length := by
    intro d e
    have := length_dropTrailingZeros_le (Nat.toDigits 10 d)
    omega
  obtain ⟨hds, hp⟩ := layout_inj (hdigits d) (hdigits d') (dropTrailingZeros_idem _)
    (dropTrailingZeros_idem _) (hle d e) (hle d' e') h
  rw [hvalue d e, hvalue d' e', hds, hp]

end ContractIR.Decimal
