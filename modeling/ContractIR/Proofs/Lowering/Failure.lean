import ContractIR.Lowering
import Mathlib.Data.List.Lex

/-!
# ContractIR.Proofs.Lowering.Failure — which failed type stops lowering

A position in a source type is the way to it from the root, as a list of indices into the components
that are lowered along with a type (`SourceTy.parts`).  Positions are compared like words in a
dictionary, so that of two positions the one further to the left is the smaller one.

* `SourceTy.outcome`: lowering succeeds where no position fails, and otherwise stops at the least.
* `SourceTy.lower_fails_first`: when lowering fails, and with which error.
-/

namespace ContractIR.SourceTy

/-! ### Positions -/

/-- The components of a type that are lowered along with it, from left to right.  The fields of a
structure and the signature of an external function are not among them. -/
def parts : SourceTy → List SourceTy
  | array element _ => [element]
  | mapping k v => [k, v]
  | function _ params returns .internal => params ++ returns
  | userDefined _ underlying => [underlying]
  | reference referent _ _ => [referent]
  | slice element => [element]
  | _ => []

/-- The type that stands at a position. -/
def at? (t : SourceTy) : List Nat → Option SourceTy
  | [] => some t
  | index :: rest => t.parts[index]?.bind fun part => part.at? rest

/-- What is said of a type that cannot be lowered itself. -/
def complaint? : SourceTy → Option String
  | failure message => some ("<error: " ++ message ++ "> (kind fail)")
  | foreign x => some ("unrecognized type " ++ x.text)
  | _ => none

/-- At the position `p` stands a type that cannot be lowered itself; `complaint` is said of it. -/
def FailsAt (t : SourceTy) (p : List Nat) (complaint : String) : Prop :=
  (t.at? p).bind complaint? = some complaint

/-- The positions are the same, or `p` comes before `q` in a dictionary. -/
def AtOrBefore (p q : List Nat) : Prop := p = q ∨ List.Lex (· < ·) p q

theorem atOrBefore_nil (q : List Nat) : AtOrBefore [] q := by
  cases q with
  | nil => exact .inl rfl
  | cons j q => exact .inr .nil

theorem AtOrBefore.cons {i : Nat} {p q : List Nat} (h : AtOrBefore p q) :
    AtOrBefore (i :: p) (i :: q) := by
  rcases h with rfl | h
  · exact .inl rfl
  · exact .inr (.cons h)

theorem AtOrBefore.antisymm {p q : List Nat} (hpq : AtOrBefore p q) (hqp : AtOrBefore q p) :
    p = q := by
  rcases hpq with heq | hpq
  · exact heq
  · rcases hqp with heq | hqp
    · exact heq.symm
    · exact absurd hqp (Std.Asymm.asymm p q hpq)

/-- No position to the left of `p` fails. -/
structure FailsFirstAt (t : SourceTy) (p : List Nat) (complaint : String) : Prop where
  failsAt : t.FailsAt p complaint
  first : ∀ q c, t.FailsAt q c → AtOrBefore p q

theorem failsAt_nil {t : SourceTy} {c : String} : t.FailsAt [] c ↔ t.complaint? = some c :=
  Iff.rfl

theorem failsAt_cons {t : SourceTy} {i : Nat} {p : List Nat} {c : String} :
    t.FailsAt (i :: p) c ↔ ∃ u, t.parts[i]? = some u ∧ u.FailsAt p c := by
  unfold FailsAt
  rw [at?]
  cases h : t.parts[i]? with
  | none => simp
  | some u => simp

theorem FailsFirstAt.unique {t : SourceTy} {p q : List Nat} {c d : String}
    (hp : t.FailsFirstAt p c) (hq : t.FailsFirstAt q d) : c = d := by
  have hpq : p = q := (hp.first q d hq.failsAt).antisymm (hq.first p c hp.failsAt)
  have hc : some c = some d := by
    rw [← hp.failsAt, ← hq.failsAt, hpq]
  exact Option.some.inj hc

theorem sizeOf_lt_of_mem_parts {t u : SourceTy} (h : u ∈ t.parts) : sizeOf u < sizeOf t := by
  cases t with
  | array element size | reference element place immutable | userDefined name element
  | slice element =>
    obtain rfl : u = element := List.mem_singleton.1 h
    simp only [array.sizeOf_spec, reference.sizeOf_spec, userDefined.sizeOf_spec, slice.sizeOf_spec]
    omega
  | mapping k v =>
    simp only [parts, List.mem_cons, List.not_mem_nil, or_false] at h
    rw [mapping.sizeOf_spec]
    rcases h with rfl | rfl
    · omega
    · omega
  | function name params returns visibility =>
    cases visibility with
    | external => cases h
    | internal =>
      have hlt : sizeOf u < sizeOf params ∨ sizeOf u < sizeOf returns :=
        (List.mem_append.1 h).imp List.sizeOf_lt_of_mem List.sizeOf_lt_of_mem
      rw [function.sizeOf_spec]
      omega
  | _ => cases h

/-- What holds of a type as soon as it holds of its components holds of every type. -/
theorem parts_induction {P : SourceTy → Prop} (h : ∀ t, (∀ u ∈ t.parts, P u) → P t)
    (t : SourceTy) : P t :=
  h t fun u _ => parts_induction h u
termination_by sizeOf t
decreasing_by exact sizeOf_lt_of_mem_parts ‹_›

/-! ### One type and its components -/

section Outcome

variable (target : Target) (location : Option Location)

theorem shape_of_complaint {t : SourceTy} {c : String} (h : t.complaint? = some c) :
    shape target location t = .error (unrepresentable c location) := by
  unfold complaint? at h
  split at h
  · rename_i message
    have hc : c = "<error: " ++ message ++ ">" ++ " (kind " ++ "fail" ++ ")" := by
      rw [← Option.some.inj h]
      simp [String.append_assoc]
    rw [shape, text, kind, hc]
  · rw [shape, ← Option.some.inj h]
  · cases h

theorem shapes_append (ts us : List SourceTy) :
    shapes target location (ts ++ us) = do
      let ss ← shapes target location ts
      let rs ← shapes target location us
      return ss ++ rs := by
  induction ts with
  | nil =>
    rw [List.nil_append, shapes]
    cases shapes target location us <;> rfl
  | cons t ts ih =>
    rw [List.cons_append, shapes, shapes, ih]
    cases shape target location t <;> cases shapes target location ts <;>
      cases shapes target location us <;> rfl

/-- Apart from what becomes of it, lowering a type is lowering its components one after the
other. -/
theorem shape_outcome {t : SourceTy} (h : t.complaint? = none) :
    (shape target location t).map (fun _ => ()) =
      (shapes target location t.parts).map (fun _ => ()) := by
  cases t with
  | array element size | slice element | userDefined name element =>
    rw [shape, parts, shapes, shapes]
    cases shape target location element <;> rfl
  | reference referent place immutable =>
    rw [shape, parts, shapes, shapes]
    cases shape target location referent <;> cases place <;> rfl
  | mapping k v =>
    rw [shape, parts, shapes, shapes, shapes]
    cases shape target location k <;> cases shape target location v <;> rfl
  | function name params returns visibility =>
    cases visibility with
    | external => rfl
    | internal =>
      rw [shape, parts, shapes_append]
      cases shapes target location params <;> cases shapes target location returns <;> rfl
  | bytes bits => cases bits <;> rfl
  | failure message => cases h
  | foreign x => cases h
  | _ => rfl

/-- How lowering a type ends. -/
inductive Outcome (t : SourceTy) : Prop
  | lowered {s : Shape} : shape target location t = .ok s → (∀ p c, ¬ t.FailsAt p c) → Outcome t
  | stopped {p : List Nat} {c : String} : t.FailsFirstAt p c →
      shape target location t = .error (unrepresentable c location) → Outcome t

/-- How lowering several types ends: the first of them that fails anywhere is what counts. -/
inductive Outcomes (ts : List SourceTy) : Prop
  | lowered {ss : List Shape} : shapes target location ts = .ok ss →
      (∀ u ∈ ts, ∀ p c, ¬ u.FailsAt p c) → Outcomes ts
  | stopped {i : Nat} {u : SourceTy} {p : List Nat} {c : String} : ts[i]? = some u →
      u.FailsFirstAt p c → (∀ j v, j < i → ts[j]? = some v → ∀ q d, ¬ v.FailsAt q d) →
      shapes target location ts = .error (unrepresentable c location) → Outcomes ts

variable {target location}

theorem outcomes_of_forall {ts : List SourceTy} (h : ∀ u ∈ ts, Outcome target location u) :
    Outcomes target location ts := by
  induction ts with
  | nil => exact .lowered rfl (by simp)
  | cons t ts ih =>
    cases h t (by simp) with
    | stopped hfirst hs =>
      refine .stopped (i := 0) rfl hfirst (fun j v hj => absurd hj (Nat.not_lt_zero j)) ?_
      rw [shapes, hs]
      rfl
    | @lowered s hs hnone =>
      cases ih fun u hu => h u (List.mem_cons_of_mem t hu) with
      | @lowered ss hss hnones =>
        have hcons : shapes target location (t :: ts) = .ok (s :: ss) := by
          rw [shapes, hs, hss]
          rfl
        exact .lowered hcons (List.forall_mem_cons.2 ⟨hnone, hnones⟩)
      | @stopped i _ _ _ hu hfirst hbefore hss =>
        refine .stopped (i := i + 1) (by simpa using hu) hfirst ?_ ?_
        · intro j v hj hv
          cases j with
          | zero =>
            obtain rfl : t = v := by simpa using hv
            exact hnone
          | succ j => exact hbefore j v (by omega) (by simpa using hv)
        · rw [shapes, hs, hss]
          rfl

/-- A type fails where its components do, those further to the left first. -/
theorem FailsFirstAt.cons {t u : SourceTy} {i : Nat} {p : List Nat} {c : String}
    (ht : t.complaint? = none) (hu : t.parts[i]? = some u) (hfirst : u.FailsFirstAt p c)
    (hbefore : ∀ j v, j < i → t.parts[j]? = some v → ∀ q d, ¬ v.FailsAt q d) :
    t.FailsFirstAt (i :: p) c where
  failsAt := failsAt_cons.2 ⟨u, hu, hfirst.failsAt⟩
  first q d hq := by
    cases q with
    | nil =>
      rw [failsAt_nil, ht] at hq
      cases hq
    | cons j q =>
      obtain ⟨v, hv, hq⟩ := failsAt_cons.1 hq
      rcases Nat.lt_trichotomy i j with hij | rfl | hji
      · exact .inr (.rel hij)
      · obtain rfl : u = v := Option.some.inj (hu.symm.trans hv)
        exact (hfirst.first q d hq).cons
      · exact absurd hq (hbefore j v hji hv q d)

/-- Lowering succeeds where no position fails, and otherwise stops at the least that does. -/
theorem outcome (t : SourceTy) : Outcome target location t := by
  induction t using parts_induction with
  | h t ih =>
  cases hc : t.complaint? with
  | some c =>
    refine .stopped (p := []) ⟨hc, fun q d _ => ?_⟩ (shape_of_complaint target location hc)
    exact atOrBefore_nil q
  | none =>
    have hsame := shape_outcome target location hc
    cases outcomes_of_forall ih with
    | lowered hss hnone =>
      rw [hss] at hsame
      cases hs : shape target location t with
      | error d =>
        rw [hs] at hsame
        cases hsame
      | ok s =>
        refine .lowered hs fun p c hp => ?_
        cases p with
        | nil =>
          rw [failsAt_nil, hc] at hp
          cases hp
        | cons i p =>
          obtain ⟨u, hu, hp⟩ := failsAt_cons.1 hp
          exact hnone u (List.mem_of_getElem? hu) p c hp
    | stopped hu hfirst hbefore hss =>
      rw [hss] at hsame
      cases hs : shape target location t with
      | ok s =>
        rw [hs] at hsame
        cases hsame
      | error d =>
        rw [hs] at hsame
        cases hsame
        exact .stopped (.cons hc hu hfirst hbefore) hs

end Outcome

theorem lower_eq_error_iff {target : Target} {location : Option Location} {t : SourceTy}
    {d : Diagnostic} :
    t.lower target location = .error d ↔ shape target location t = .error d := by
  unfold lower
  cases shape target location t with
  | error e =>
    constructor
    · intro h
      cases h
      rfl
    · intro h
      cases h
      rfl
  | ok s => exact ⟨nofun, nofun⟩

theorem FailsAt.ne_empty {t : SourceTy} {p : List Nat} {c : String} (h : t.FailsAt p c) :
    c ≠ "" := by
  obtain ⟨u, -, hu⟩ := Option.bind_eq_some_iff.1 h
  cases u with
  | failure message | foreign x =>
    obtain rfl := Option.some.inj hu
    simp
  | _ => cases hu

/-- A complaint is never empty, so it always follows the summary. -/
theorem FailsAt.message_unrepresentable {t : SourceTy} {p : List Nat} {c : String}
    (h : t.FailsAt p c) (location : Option Location) :
    (unrepresentable c location).message = "Type has no Ir representation: " ++ c := by
  have hdetail : (unrepresentable c location).message =
      if c = "" then "Type has no Ir representation"
      else "Type has no Ir representation" ++ ": " ++ c := rfl
  rw [hdetail, if_neg h.ne_empty]
  rfl

/-- Lowering fails exactly if a failed or foreign type stands in a position that is lowered.  The
error then is about the leftmost of them: it has the code for types without a lowering and the
location that was given, and its message ends with the complaint about that type. -/
theorem lower_fails_first (target : Target) (location : Option Location) (t : SourceTy) :
    ((∃ d, t.lower target location = .error d) ↔ ∃ p c, t.FailsAt p c) ∧
      ∀ d, t.lower target location = .error d ↔ ∃ p c, t.FailsAt p c ∧
        (∀ q c', t.FailsAt q c' → AtOrBefore p q) ∧
        d = .loweringError .unrepresentableType (some c) location ∧
        d.code = "IRGEN001" ∧ d.location = location ∧
        d.message = "Type has no Ir representation: " ++ c := by
  simp only [lower_eq_error_iff]
  cases @outcome target location t with
  | lowered hs hnone =>
    refine ⟨⟨?_, ?_⟩, fun d => ⟨?_, ?_⟩⟩
    · rintro ⟨d, hd⟩
      rw [hs] at hd
      cases hd
    · rintro ⟨p, c, hp⟩
      exact absurd hp (hnone p c)
    · intro hd
      rw [hs] at hd
      cases hd
    · rintro ⟨p, c, hp, -⟩
      exact absurd hp (hnone p c)
  | @stopped p c hfirst hs =>
    refine ⟨⟨fun _ => ⟨p, c, hfirst.failsAt⟩, fun _ => ⟨_, hs⟩⟩, fun d => ⟨fun hd => ?_, ?_⟩⟩
    · rw [hs] at hd
      cases hd
      exact ⟨p, c, hfirst.failsAt, hfirst.first, rfl, rfl, rfl,
        hfirst.failsAt.message_unrepresentable location⟩
    · rintro ⟨q, c', hq, hle, rfl, -⟩
      rw [hs, hfirst.unique ⟨hq, hle⟩]
      rfl

/-- A failed field of a structure does not count, and the value of a mapping among the parameters
comes before a return. -/
theorem lower_fails_first_parameter :
    let t : SourceTy := .function "f"
      [.struct "S" [("x", .failure "a")] 0 none, .mapping .bool (.foreign ⟨0, "other", "T"⟩)]
      [.failure "b"] .internal
    let place : Location := { function := some "g", block := some 2 }
    t.FailsAt [1, 1] "unrecognized type T" ∧ t.FailsAt [2] "<error: b> (kind fail)" ∧
      ∃ d, t.lower .evm (some place) = .error d ∧ d.code = "IRGEN001" ∧
        d.location = some place ∧
        d.message = "Type has no Ir representation: unrecognized type T" := by
  intro t place
  obtain ⟨hfails, herror⟩ := lower_fails_first .evm (some place) t
  obtain ⟨d, hd⟩ := hfails.2 ⟨[1, 1], "unrecognized type T", rfl⟩
  obtain ⟨-, -, -, -, -, hcode, hlocation, -⟩ := (herror d).1 hd
  refine ⟨rfl, rfl, d, hd, hcode, hlocation, ?_⟩
  cases hd
  rfl

end ContractIR.SourceTy
