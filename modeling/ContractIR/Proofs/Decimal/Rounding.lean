import ContractIR.Decimal.Text
import Mathlib.Algebra.Order.Ring.Nat
import Mathlib.Tactic.NormNum
import Mathlib.Tactic.Ring

/-!
# ContractIR.Proofs.Decimal.Rounding — which numbers round to a float

Beyond `2 ^ 53` the whole floats are the numbers `m * 2 ^ q` with `2 ^ 52 ≤ m < 2 ^ 53` and `1 ≤ q`.
The numbers that round to such a float form an interval (`Rounds`), no two of these intervals meet
(`Rounds.unique`), and the shortest decimal lies in the interval of its float.
-/

namespace ContractIR.Decimal

/-- The integer is a 64-bit float. -/
def IsFloat (n : Int) : Prop := ∃ m q : Nat, m < 2 ^ 53 ∧ q ≤ 971 ∧ n.natAbs = m * 2 ^ q

theorem isFloat_of_le {n : Int} (h : n.natAbs ≤ 2 ^ 53) : IsFloat n := by
  rcases Nat.lt_or_eq_of_le h with h | h
  · exact ⟨n.natAbs, 0, h, by omega, by rw [pow_zero, mul_one]⟩
  · exact ⟨2 ^ 52, 1, by norm_num, by omega, by rw [h]; norm_num⟩

/-- Coefficient and exponent of a whole float beyond `2 ^ 53`. -/
structure Normal (m q : Nat) : Prop where
  le : 2 ^ 52 ≤ m
  lt : m < 2 ^ 53
  pos : 1 ≤ q

/-- Four times the lower end of the interval of the float, in units of `2 ^ q`. -/
def lowEnd (m : Nat) : Nat := if m = 2 ^ 52 then 4 * m - 1 else 4 * m - 2

/-- The number rounds to `m * 2 ^ q`; the ends of the interval do if `m` is even. -/
structure Rounds (m q v : Nat) : Prop where
  lower : lowEnd m * 2 ^ q < 4 * v ∨ m % 2 = 0 ∧ lowEnd m * 2 ^ q = 4 * v
  upper : 4 * v < (4 * m + 2) * 2 ^ q ∨ m % 2 = 0 ∧ 4 * v = (4 * m + 2) * 2 ^ q

theorem Normal.rounds {m q : Nat} (h : Normal m q) : Rounds m q (m * 2 ^ q) := by
  have hpos : 0 < 2 ^ q := Nat.two_pow_pos q
  have hlow : lowEnd m < 4 * m := by
    have := h.le
    unfold lowEnd
    split <;> omega
  constructor
  · left
    calc lowEnd m * 2 ^ q < 4 * m * 2 ^ q := Nat.mul_lt_mul_of_pos_right hlow hpos
      _ = 4 * (m * 2 ^ q) := Nat.mul_assoc ..
  · left
    calc 4 * (m * 2 ^ q) = 4 * m * 2 ^ q := (Nat.mul_assoc ..).symm
      _ < (4 * m + 2) * 2 ^ q := Nat.mul_lt_mul_of_pos_right (by omega) hpos

namespace Rounds

variable {m q m' q' v : Nat}

theorem lowEnd_le (h : Rounds m q v) : lowEnd m * 2 ^ q ≤ 4 * v := by
  rcases h.lower with h | h <;> omega

theorem le_highEnd (h : Rounds m q v) : 4 * v ≤ (4 * m + 2) * 2 ^ q := by
  rcases h.upper with h | h <;> omega

/-- Two floats of one exponent: their intervals meet in no more than an end, which belongs to the
even one. -/
theorem not_lt_of_exponent_eq (h : Rounds m q v) (h' : Rounds m' q v) : ¬ m < m' := by
  intro hlt
  have hpos : 0 < 2 ^ q := Nat.two_pow_pos q
  have hends : 4 * m + 2 ≤ lowEnd m' := by
    unfold lowEnd
    split <;> omega
  have hle := Nat.mul_le_mul_right (2 ^ q) hends
  have hup := h.le_highEnd
  have hlow := h'.lowEnd_le
  have heq : (4 * m + 2) * 2 ^ q = lowEnd m' * 2 ^ q := by omega
  have hsame : 4 * m + 2 = lowEnd m' := Nat.eq_of_mul_eq_mul_right hpos heq
  have hm : m % 2 = 0 := by
    rcases h.upper with h | h
    · omega
    · exact h.1
  have hm' : m' % 2 = 0 := by
    rcases h'.lower with h | h
    · omega
    · exact h.1
  unfold lowEnd at hsame
  split at hsame <;> omega

/-- Of two floats, the one with the larger exponent is larger, and its interval lies above. -/
theorem not_lt_exponent (hm : Normal m q) (hm' : Normal m' q') (h : Rounds m q v)
    (h' : Rounds m' q' v) : ¬ q < q' := by
  intro hlt
  have hpos : 0 < 2 ^ q := Nat.two_pow_pos q
  have hpow : 2 * 2 ^ q ≤ 2 ^ q' := by
    rw [← pow_succ']
    exact Nat.pow_le_pow_right (by omega) hlt
  have hlow : 2 ^ 54 - 1 ≤ lowEnd m' := by
    have := hm'.le
    unfold lowEnd
    split <;> omega
  have hends : (2 ^ 54 - 1) * 2 * 2 ^ q ≤ lowEnd m' * 2 ^ q' :=
    calc (2 ^ 54 - 1) * 2 * 2 ^ q = (2 ^ 54 - 1) * (2 * 2 ^ q) := Nat.mul_assoc ..
      _ ≤ lowEnd m' * 2 ^ q' := Nat.mul_le_mul hlow hpow
  have hlt := hm.lt
  have hhigh : (4 * m + 2) * 2 ^ q ≤ (2 ^ 54 - 1) * 2 * 2 ^ q :=
    Nat.mul_le_mul_right _ (by omega)
  have hup := h.le_highEnd
  have hlow' := h'.lowEnd_le
  have heven : m % 2 = 0 := by
    rcases h.upper with h | h
    · omega
    · exact h.1
  -- an even coefficient leaves room below the next power of two
  have hroom : (4 * m + 2) * 2 ^ q < (2 ^ 54 - 1) * 2 * 2 ^ q :=
    Nat.mul_lt_mul_of_pos_right (by omega) hpos
  omega

/-- A number rounds to one float only. -/
theorem unique (hm : Normal m q) (hm' : Normal m' q') (h : Rounds m q v) (h' : Rounds m' q' v) :
    m = m' ∧ q = q' := by
  have hq : q = q' := by
    have h1 := not_lt_exponent hm hm' h h'
    have h2 := not_lt_exponent hm' hm h' h
    omega
  subst hq
  have h1 := not_lt_of_exponent_eq h h'
  have h2 := not_lt_of_exponent_eq h' h
  exact ⟨by omega, rfl⟩

/-- No number up to `2 ^ 53` rounds to a float beyond it. -/
theorem lt_of_normal (hm : Normal m q) (hbig : 2 ^ 53 < m * 2 ^ q) (h : Rounds m q v) :
    2 ^ 53 < v := by
  have hq := hm.pos
  have hm52 := hm.le
  have hlow := h.lowEnd_le
  have hfour : 4 * 2 ^ 53 < lowEnd m * 2 ^ q := by
    by_cases hm0 : m = 2 ^ 52
    · -- the least coefficient comes with an exponent of at least two
      have hq2 : 2 ≤ q := by
        by_contra hq2
        obtain rfl : q = 1 := by omega
        omega
      calc 4 * 2 ^ 53 < lowEnd m * 2 ^ 2 := by
            rw [lowEnd, if_pos hm0]
            omega
        _ ≤ lowEnd m * 2 ^ q := Nat.mul_le_mul_left _ (Nat.pow_le_pow_right (by omega) hq2)
    · calc 4 * 2 ^ 53 < lowEnd m * 2 ^ 1 := by
            rw [lowEnd, if_neg hm0]
            omega
        _ ≤ lowEnd m * 2 ^ q := Nat.mul_le_mul_left _ (Nat.pow_le_pow_right (by omega) hq)
  omega

end Rounds

/-! ### The float nearest to a whole float -/

/-- A number of more than 53 binary digits, all of them zero after the 53rd, in normal form. -/
theorem exists_normal_of_dvd {x : Nat} (hlen : 53 ≤ x.log2) (hdvd : 2 ^ (x.log2 - 52) ∣ x) :
    ∃ m, x = m * 2 ^ (x.log2 - 52) ∧ Normal m (x.log2 - 52) := by
  obtain ⟨m, hm⟩ := hdvd
  have hlow : 2 ^ (x.log2 - 52) * 2 ^ 52 ≤ 2 ^ (x.log2 - 52) * m := by
    rw [← hm, ← pow_add, Nat.sub_add_cancel (by omega)]
    exact Nat.log2_self_le (by rintro rfl; simp at hlen)
  have hhigh : 2 ^ (x.log2 - 52) * m < 2 ^ (x.log2 - 52) * 2 ^ 53 := by
    rw [← hm, ← pow_add, show x.log2 - 52 + 53 = x.log2 + 1 by omega]
    exact Nat.lt_log2_self
  exact ⟨m, hm.trans (Nat.mul_comm ..), Nat.le_of_mul_le_mul_left hlow (Nat.two_pow_pos _),
    Nat.lt_of_mul_lt_mul_left hhigh, by omega⟩

/-- A whole float beyond `2 ^ 53` is its own nearest float. -/
theorem nearest_of_isFloat {n : Int} (h : IsFloat n) (hbig : 2 ^ 53 < n.natAbs) (negative : Bool) :
    ∃ m q : Nat, Binary.nearest negative n.natAbs 0 = .finite negative m q ∧
      n.natAbs = m * 2 ^ q ∧ Normal m q := by
  obtain ⟨m₀, q₀, hm₀, hq₀, hn⟩ := h
  generalize n.natAbs = x at hbig hn ⊢
  have hlog : 2 ^ x.log2 ≤ x := Nat.log2_self_le (by omega)
  have hlog' : x < 2 ^ (x.log2 + 1) := Nat.lt_log2_self
  have hlen : 53 ≤ x.log2 := by
    by_contra hlt
    have := Nat.pow_le_pow_right (n := 2) (by omega) (show x.log2 + 1 ≤ 53 by omega)
    omega
  have hq : x.log2 < q₀ + 53 := by
    rw [← Nat.pow_lt_pow_iff_right (a := 2) (by omega), pow_add, Nat.mul_comm]
    have := Nat.mul_lt_mul_of_pos_right hm₀ (Nat.two_pow_pos q₀)
    omega
  have hdvd : 2 ^ (x.log2 - 52) ∣ x :=
    (Nat.pow_dvd_pow 2 (by omega)).trans ⟨m₀, hn.trans (Nat.mul_comm ..)⟩
  obtain ⟨m, hm, hnormal⟩ := exists_normal_of_dvd hlen hdvd
  have hquot : x / 2 ^ (x.log2 - 52) = m := Nat.div_eq_of_eq_mul_left (Nat.two_pow_pos _) hm
  have hrem : x % 2 ^ (x.log2 - 52) = 0 := Nat.mod_eq_zero_of_dvd hdvd
  have hlt := hnormal.lt
  refine ⟨m, x.log2 - 52, ?_, hm, hnormal⟩
  have hunit : x.log2 + 1 - 53 = x.log2 - 52 := by omega
  have hexp : (0 : Int) + ((x.log2 + 1 : Nat) : Int) - 53 = (x.log2 - 52 : Nat) := by omega
  have hpos : 2 ^ (x.log2 - 52) ≠ 0 := (Nat.two_pow_pos _).ne'
  simp only [Binary.nearest, if_neg (show ¬ x.log2 + 1 ≤ 53 by omega), Nat.pow_eq, hunit, hquot,
    hrem, hexp]
  rw [if_neg (c := 2 ^ (x.log2 - 52) < _ ∨ _) (by simp [hpos.symm]), if_neg (by omega),
    if_neg (by omega)]
  rfl

/-! ### The shortest decimal -/

theorem compare_mul_left {c : Nat} (hc : 0 < c) (a b : Nat) :
    compare (c * a) (c * b) = compare a b := by
  rcases Nat.lt_trichotomy a b with h | rfl | h
  · rw [Nat.compare_eq_lt.2 h, Nat.compare_eq_lt.2 (Nat.mul_lt_mul_of_pos_left h hc)]
  · rw [Nat.compare_eq_eq.2 rfl, Nat.compare_eq_eq.2 rfl]
  · rw [Nat.compare_eq_gt.2 h, Nat.compare_eq_gt.2 (Nat.mul_lt_mul_of_pos_left h hc)]

namespace Magnitude

variable {m q d e : Nat}

theorem compareScaled_whole (d e n : Nat) (hq : 1 ≤ q) :
    compareScaled d e n ((q : Int) - 2) = compare (4 * (d * 10 ^ e)) (n * 2 ^ q) := by
  simp only [compareScaled, Nat.pow_eq, Int.toNat_natCast, Int.toNat_neg_natCast, pow_zero,
    Nat.mul_one]
  obtain rfl | ⟨k, rfl⟩ : q = 1 ∨ ∃ k, q = k + 2 := by
    rcases Nat.lt_or_ge q 2 with h | h
    · exact .inl (by omega)
    · exact .inr ⟨q - 2, by omega⟩
  · rw [← compare_mul_left (show 0 < 2 by decide)]
    congr 1 <;> simp <;> omega
  · rw [← compare_mul_left (show 0 < 4 by decide)]
    congr 1
    · simp
    · rw [show ((k + 2 : Nat) : Int) - 2 = k by omega, Int.toNat_natCast, pow_add]
      ring

/-- A whole decimal reads back as the float that it rounds to. -/
theorem readsBack_iff (hm : Normal m q) :
    readsBack ⟨m, q⟩ ⟨d, e⟩ = true ↔ Rounds m q (d * 10 ^ e) := by
  have hend : lowerEnd ⟨m, q⟩ = lowEnd m := by
    unfold lowerEnd lowEnd
    exact if_congr (and_iff_left (show (-1074 : Int) < q by omega)) rfl rfl
  simp only [readsBack, hend, upperEnd, compareScaled_whole _ _ _ hm.pos, Bool.and_eq_true,
    Bool.or_eq_true, beq_iff_eq, Nat.compare_eq_gt, Nat.compare_eq_lt, Nat.compare_eq_eq]
  exact ⟨fun ⟨h1, h2⟩ => ⟨h1.imp_right (And.imp_right Eq.symm), h2⟩,
    fun h => ⟨h.lower.imp_right (And.imp_right Eq.symm), h.upper⟩⟩

/-- What is found on a grid lies on it and reads back. -/
theorem onGrid?_eq_some {x : Magnitude} {i : Int} {r : Scientific} (h : x.onGrid? i = some r) :
    r.exponent = i ∧ x.readsBack r = true := by
  dsimp only [onGrid?] at h
  split at h
  · cases h
  · cases h
    exact ⟨rfl, by assumption⟩
  · cases h
    exact ⟨rfl, by assumption⟩
  · split at h
    · cases h
      exact ⟨rfl, by assumption⟩
    · cases h
      exact ⟨rfl, by assumption⟩
    · cases h
      split
      · exact ⟨rfl, by assumption⟩
      · exact ⟨rfl, by assumption⟩

/-- A whole float is found on the grid of the whole numbers. -/
theorem onGrid?_zero_ne_none (hm : Normal m q) : onGrid? ⟨m, q⟩ 0 ≠ none := by
  have hback : readsBack ⟨m, q⟩ ⟨m * 2 ^ q, 0⟩ = true := by
    refine (readsBack_iff (e := 0) hm).2 ?_
    rw [pow_zero, Nat.mul_one]
    exact hm.rounds
  intro h
  simp only [onGrid?, Int.toNat_natCast, Int.toNat_neg_natCast, Int.toNat_zero, Int.neg_zero,
    Nat.pow_eq, pow_zero, Nat.mul_one, Nat.div_one, hback] at h
  split at h
  · cases ‹true = false›
  · cases h
  · cases h
  · split at h <;> cases h

theorem scale_whole (hm : Normal m q) :
    scale ⟨m, q⟩ = (Nat.toDigits 10 (m * 2 ^ q)).length := by
  have hpos : 0 < m * 2 ^ q := Nat.mul_pos (by have := hm.le; omega) (Nat.two_pow_pos q)
  simp only [scale, Int.toNat_natCast, Int.toNat_neg_natCast, Nat.pow_eq, pow_zero, Nat.div_one,
    if_pos hpos]

theorem mem_of_lt_of_range_eq {k n j : Nat} {l l' : List Nat} (h : List.range k = l ++ n :: l')
    (hj : j < n) : j ∈ l := by
  rw [List.range_eq_range', List.range'_eq_append_iff] at h
  obtain ⟨i, -, rfl, hrest⟩ := h
  obtain ⟨rfl, -⟩ := List.range'_eq_cons_iff.1 hrest.symm
  simpa using hj

/-- The shortest decimal of a whole float is whole and rounds to the float. -/
theorem shortest_whole (hm : Normal m q) :
    ∃ d e : Nat, shortest ⟨m, q⟩ = ⟨d, e⟩ ∧ Rounds m q (d * 10 ^ e) := by
  unfold shortest
  cases hfind : (List.range 17).findSome? fun n : Nat =>
      onGrid? ⟨m, q⟩ (scale ⟨m, q⟩ - (n + 1)) with
  | none =>
    refine ⟨m * 2 ^ q, 0, by simp [Nat.pow_eq], ?_⟩
    rw [pow_zero, Nat.mul_one]
    exact hm.rounds
  | some r =>
    obtain ⟨l, n, l', hrange, hgrid, hnone⟩ := List.findSome?_eq_some_iff.1 hfind
    obtain ⟨hexp, hback⟩ := onGrid?_eq_some hgrid
    generalize hK : scale ⟨m, q⟩ = K at hexp hnone
    have hKpos : 0 < K := by
      rw [← hK, scale_whole hm]
      exact_mod_cast List.length_pos_iff.2 Nat.toDigits_ne_nil
    -- the grid of the whole numbers comes before any finer one
    have hwhole : 0 ≤ r.exponent := by
      by_contra hneg
      have hbefore : (K - 1).toNat ∈ l := mem_of_lt_of_range_eq hrange (by omega)
      have := hnone _ hbefore
      rw [show K - (((K - 1).toNat : Int) + 1) = 0 by omega] at this
      exact onGrid?_zero_ne_none hm this
    obtain ⟨d, i⟩ := r
    obtain ⟨e, rfl⟩ := Int.eq_ofNat_of_zero_le hwhole
    exact ⟨d, e, rfl, (readsBack_iff hm).1 hback⟩

end Magnitude

end ContractIR.Decimal
