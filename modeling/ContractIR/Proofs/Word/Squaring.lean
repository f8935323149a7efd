import ContractIR.Proofs.Word
import Mathlib.Logic.Relation

/-!
# ContractIR.Proofs.Word.Squaring — repeated squaring, one assignment at a time

`boundedPow` says what the loop returns.  How large its variables become on the way is a matter of
the single assignments, so the loop is taken apart into a machine that makes one multiplication or
one test in a step.  The machine returns what `boundedPow` does, and each of its products has
factors that have been compared with the limit.

* `PowState.returns_iff`: what the machine returns.
* `PowState.bounded_of_step`, `PowState.bounded_of_visits`: how large the variables are after one
  step, and in every state of a run.
* `boundedPow_exact_and_bounded`: both together.
-/

namespace ContractIR.Word

/-- Where the loop stands. -/
inductive PowPoint
  /-- before the test of what remains of the exponent -/
  | test
  /-- after the result has been multiplied, and before it is compared with the limit -/
  | multiplied
  /-- before the exponent is halved -/
  | halve
  /-- after the square has been squared, and before it is compared with the limit -/
  | squared
deriving DecidableEq

/-- The variables of the loop, and where it stands. -/
structure PowState where
  point : PowPoint
  result : Int
  square : Int
  remaining : Nat

namespace PowState

/-- The state in which the loop is entered. -/
def start (base : Int) (exponent : Nat) : PowState := ⟨.test, 1, base, exponent⟩

/-- The next state, or what is returned. -/
def step (limit : Int) : PowState → PowState ⊕ Option Int
  | ⟨.test, result, square, remaining⟩ =>
    if remaining = 0 then .inr (some result)
    else if remaining % 2 = 1 then .inl ⟨.multiplied, result * square, square, remaining⟩
    else .inl ⟨.halve, result, square, remaining⟩
  | ⟨.multiplied, result, square, remaining⟩ =>
    if limit < result then .inr none else .inl ⟨.halve, result, square, remaining⟩
  | ⟨.halve, result, square, remaining⟩ =>
    if remaining / 2 = 0 then .inl ⟨.test, result, square, remaining / 2⟩
    else .inl ⟨.squared, result, square * square, remaining / 2⟩
  | ⟨.squared, result, square, remaining⟩ =>
    if limit < square then .inr none else .inl ⟨.test, result, square, remaining⟩

/-- The state is one of those through which the loop goes. -/
def Visits (limit : Int) : PowState → PowState → Prop :=
  Relation.ReflTransGen fun s t => s.step limit = .inl t

/-- The loop comes to an end and returns the value. -/
inductive Returns (limit : Int) : PowState → Option Int → Prop
  | stop {s : PowState} {v : Option Int} : s.step limit = .inr v → Returns limit s v
  | next {s t : PowState} {v : Option Int} : s.step limit = .inl t → Returns limit t v →
      Returns limit s v

variable {limit result square : Int} {n : Nat} {s t : PowState} {v w : Option Int}

/-! ### What the loop returns -/

theorem Returns.unique (hv : s.Returns limit v) (hw : s.Returns limit w) : v = w := by
  induction hv with
  | stop h =>
    cases hw with
    | stop h' => exact Sum.inr.inj (h.symm.trans h')
    | next h' _ => cases h.symm.trans h'
  | next h _ ih =>
    cases hw with
    | stop h' => cases h.symm.trans h'
    | next h' hw =>
      obtain rfl := Sum.inl.inj (h.symm.trans h')
      exact ih hw

/-- From the test to the halving the result is multiplied if the exponent is odd. -/
theorem returns_of_halve (hn : n ≠ 0)
    (hlimit : ¬ (n % 2 = 1 ∧ limit < if n % 2 = 1 then result * square else result))
    (h : (⟨.halve, if n % 2 = 1 then result * square else result, square, n⟩ :
      PowState).Returns limit v) :
    (⟨.test, result, square, n⟩ : PowState).Returns limit v := by
  by_cases hodd : n % 2 = 1
  · rw [if_pos hodd] at hlimit h
    have hle : ¬ limit < result * square := fun hlt => hlimit ⟨hodd, hlt⟩
    refine .next (t := ⟨.multiplied, result * square, square, n⟩) ?_ (.next ?_ h)
    · simp [step, hn, hodd]
    · simp [step, hle]
  · rw [if_neg hodd] at h
    refine .next ?_ h
    simp [step, hn, hodd]

theorem returns_boundedPowLoop (limit result square : Int) (n : Nat) :
    (⟨.test, result, square, n⟩ : PowState).Returns limit
      (boundedPowLoop limit result square n) := by
  fun_induction boundedPowLoop limit result square n with
  | case1 result square => exact .stop rfl
  | case2 result square n hn product hlimit =>
    have hproduct : product = result * square := if_pos hlimit.1
    rw [hproduct] at hlimit
    refine .next (t := ⟨.multiplied, result * square, square, n⟩) ?_ (.stop ?_)
    · simp [step, hn, hlimit.1]
    · simp [step, hlimit.2]
  | case3 result square n hn product hlimit hhalf =>
    have hhalve : step limit ⟨.halve, product, square, n⟩ =
        .inl ⟨.test, product, square, n / 2⟩ := if_pos hhalf
    have htest : step limit ⟨.test, product, square, n / 2⟩ = .inr (some product) := if_pos hhalf
    exact returns_of_halve hn hlimit (.next hhalve (.stop htest))
  | case4 result square n hn product hlimit hhalf hlarge =>
    have hhalve : step limit ⟨.halve, product, square, n⟩ =
        .inl ⟨.squared, product, square * square, n / 2⟩ := if_neg hhalf
    have hsquared : step limit ⟨.squared, product, square * square, n / 2⟩ = .inr none :=
      if_pos hlarge
    exact returns_of_halve hn hlimit (.next hhalve (.stop hsquared))
  | case5 result square n hn product hlimit hhalf hlarge ih =>
    have hhalve : step limit ⟨.halve, product, square, n⟩ =
        .inl ⟨.squared, product, square * square, n / 2⟩ := if_neg hhalf
    have hsquared : step limit ⟨.squared, product, square * square, n / 2⟩ =
        .inl ⟨.test, product, square * square, n / 2⟩ := if_neg hlarge
    exact returns_of_halve hn hlimit (.next hhalve (.next hsquared ih))

/-- The loop returns what `boundedPow` does, and nothing else. -/
theorem returns_iff {base : Int} {exponent : Nat} :
    (start base exponent).Returns limit v ↔ v = boundedPow base exponent limit := by
  have h : (start base exponent).Returns limit (boundedPow base exponent limit) :=
    returns_boundedPowLoop limit 1 base exponent
  constructor
  · intro hv
    exact hv.unique h
  · rintro rfl
    exact h

/-! ### What the variables hold -/

/-- A variable exceeds the limit only right after its own multiplication, and then it is a product
of two numbers that do not. -/
structure Bounded (limit : Int) (s : PowState) : Prop where
  result_nonneg : 0 ≤ s.result
  square_nonneg : 0 ≤ s.square
  result_le : s.result ≤ limit ∨ s.point = .multiplied ∧ s.result ≤ limit * limit
  square_le : s.square ≤ limit ∨ s.point = .squared ∧ s.square ≤ limit * limit

theorem bounded_of_step (hs : s.Bounded limit) (h : s.step limit = .inl t) : t.Bounded limit := by
  obtain ⟨point, result, square, n⟩ := s
  obtain ⟨hresult₀, hsquare₀, hresult, hsquare⟩ := hs
  cases point with
  | test =>
    replace hresult : result ≤ limit := hresult.resolve_right (by simp)
    replace hsquare : square ≤ limit := hsquare.resolve_right (by simp)
    have hproduct : result * square ≤ limit * limit :=
      mul_le_mul hresult hsquare hsquare₀ (hresult₀.trans hresult)
    simp only [step] at h
    split at h
    · cases h
    · split at h
      · cases h
        exact ⟨mul_nonneg hresult₀ hsquare₀, hsquare₀, .inr ⟨rfl, hproduct⟩, .inl hsquare⟩
      · cases h
        exact ⟨hresult₀, hsquare₀, .inl hresult, .inl hsquare⟩
  | multiplied =>
    replace hsquare : square ≤ limit := hsquare.resolve_right (by simp)
    simp only [step] at h
    split at h
    · cases h
    · rename_i hle
      cases h
      exact ⟨hresult₀, hsquare₀, .inl (not_lt.1 hle), .inl hsquare⟩
  | halve =>
    replace hresult : result ≤ limit := hresult.resolve_right (by simp)
    replace hsquare : square ≤ limit := hsquare.resolve_right (by simp)
    have hproduct : square * square ≤ limit * limit :=
      mul_le_mul hsquare hsquare hsquare₀ (hsquare₀.trans hsquare)
    simp only [step] at h
    split at h
    · cases h
      exact ⟨hresult₀, hsquare₀, .inl hresult, .inl hsquare⟩
    · cases h
      exact ⟨hresult₀, mul_nonneg hsquare₀ hsquare₀, .inl hresult, .inr ⟨rfl, hproduct⟩⟩
  | squared =>
    replace hresult : result ≤ limit := hresult.resolve_right (by simp)
    simp only [step] at h
    split at h
    · cases h
    · rename_i hle
      cases h
      exact ⟨hresult₀, hsquare₀, .inl hresult, .inl (not_lt.1 hle)⟩

theorem bounded_of_visits (hs : s.Bounded limit) (h : s.Visits limit t) : t.Bounded limit := by
  induction h with
  | refl => exact hs
  | tail _ hstep ih => exact bounded_of_step ih hstep

end PowState

/-- For a base that is not negative and a limit of at least one, the loop comes to an end and
returns the power if that does not exceed the limit, and otherwise nothing.  If the base does not
exceed the limit, none of the values that its variables take exceeds the square of the limit,
whatever the exponent is. -/
theorem boundedPow_exact_and_bounded {base limit : Int} (exponent : Nat) (hbase : 0 ≤ base)
    (hlimit : 1 ≤ limit) :
    boundedPow base exponent limit =
      (if base ^ exponent ≤ limit then some (base ^ exponent) else none) ∧
    (∀ v, (PowState.start base exponent).Returns limit v ↔
      v = boundedPow base exponent limit) ∧
    (base ≤ limit → ∀ s, (PowState.start base exponent).Visits limit s →
      s.result ≤ limit * limit ∧ s.square ≤ limit * limit) := by
  refine ⟨?_, fun v => PowState.returns_iff, fun hle s hs => ?_⟩
  · have h : boundedPow base exponent limit =
        if base ^ (exponent : Int).toNat ≤ limit then some (base ^ (exponent : Int).toNat)
        else none := boundedPow_eq hbase hlimit
    rwa [Int.toNat_natCast] at h
  · have hstart : (PowState.start base exponent).Bounded limit :=
      ⟨Int.one_nonneg, hbase, .inl hlimit, .inl hle⟩
    have hbounded := PowState.bounded_of_visits hstart hs
    have hlarger : limit ≤ limit * limit := le_mul_of_one_le_left (by omega) hlimit
    exact ⟨hbounded.result_le.elim hlarger.trans' And.right,
      hbounded.square_le.elim hlarger.trans' And.right⟩

/-- The fifth power of 3 exceeds 100.  The loop gives up after the last multiplication, at 243. -/
theorem boundedPow_exact_and_bounded_three :
    boundedPow 3 5 100 = none ∧ boundedPow 3 4 100 = some 81 ∧
      (PowState.start 3 5).Visits 100 ⟨.multiplied, 243, 81, 1⟩ ∧
      ∀ s, (PowState.start 3 5).Visits 100 s → s.result ≤ 100 * 100 ∧ s.square ≤ 100 * 100 := by
  obtain ⟨hfifth, -, hbounded⟩ :=
    @boundedPow_exact_and_bounded 3 100 5 (by decide) (by decide)
  obtain ⟨hfourth, -⟩ := @boundedPow_exact_and_bounded 3 100 4 (by decide) (by decide)
  refine ⟨hfifth, hfourth, ?_, hbounded (by decide)⟩
  refine .head (b := ⟨.multiplied, 3, 3, 5⟩) rfl (.head (b := ⟨.halve, 3, 3, 5⟩) rfl ?_)
  refine .head (b := ⟨.squared, 3, 9, 2⟩) rfl (.head (b := ⟨.test, 3, 9, 2⟩) rfl ?_)
  refine .head (b := ⟨.halve, 3, 9, 2⟩) rfl (.head (b := ⟨.squared, 3, 81, 1⟩) rfl ?_)
  exact .head (b := ⟨.test, 3, 81, 1⟩) rfl (.head rfl .refl)

end ContractIR.Word
