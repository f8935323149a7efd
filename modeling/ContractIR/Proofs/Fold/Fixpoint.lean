import ContractIR.Digest.Keccak
import ContractIR.Fold.Capacity
import ContractIR.Proofs.Except

/-!
# ContractIR.Proofs.Fold.Fixpoint — a second pass changes nothing

A second pass over a folded function knows at each place the literals that the first pass knew
there: it has gone through instructions that set the same variables to the same literals.  Then it
finds nothing to put in and nothing to evaluate, whether variables are set once or several times.

* `Fold.Settles`: what an expression folder has to satisfy for this.
* `Func.foldBy_again`: a pass with such a folder reaches its fixed point.
* `Func.fold_idempotent`: both folders of expressions are of that kind.
-/

namespace ContractIR

/-- A pass that leaves each of its results as it is leaves the list of the results as it is. -/
theorem IdMap.mapEntries_again {α σ ε : Type} {F : σ → α → Except ε (α × σ)}
    (hF : ∀ s a a' s', F s a = .ok (a', s') → F s a' = .ok (a', s')) {s s' : σ}
    {es es' : List (Int × α)} (h : mapEntries F s es = .ok (es', s')) :
    mapEntries F s es' = .ok (es', s') := by
  induction es generalizing s es' with
  | nil =>
    obtain ⟨rfl, rfl⟩ := Prod.mk.inj (Except.ok.inj h)
    rfl
  | cons e es ih =>
    simp only [mapEntries, bind_eq_ok_iff, pure_eq_ok_iff, Prod.mk.injEq] at h
    obtain ⟨⟨a', s₁⟩, ha, ⟨es₁, s₂⟩, hes, rfl, rfl⟩ := h
    simp only [mapEntries, bind_eq_ok_iff, pure_eq_ok_iff, Prod.mk.injEq]
    exact ⟨(a', s₁), hF _ _ _ _ ha, (es₁, s₂), ih hes, rfl, rfl⟩

/-! ### The pass -/

namespace Fold

theorem replace_replace (known : Constants) (o : Operand) :
    replace known (replace known o) = replace known o := by
  cases o with
  | var id => cases h : known.lookup id <;> simp [replace, h]
  | literal l => rfl
  | unknown kind => rfl

theorem substitute_substitute (known : Constants) (e : Expr) :
    substitute known (substitute known e) = substitute known e := by
  cases e with
  | binary op left right => simp only [substitute, replace_replace]
  | unary op operand => simp only [substitute, replace_replace]
  | widthChange change operand type => simp only [substitute, replace_replace]
  | keccak256 args => simp [substitute, replace_replace]
  | _ => rfl

/-- The folder leaves its results as they are, and where it does not return the expression that it
was given, it returns one that has no place for literals. -/
structure Settles (fold : Expr → Except NumericError Expr) : Prop where
  again : ∀ {e e'}, fold e = .ok e' → fold e' = .ok e'
  kept : ∀ {e e'}, fold e = .ok e' → e' = e ∨ ∀ known, substitute known e' = e'

variable {fold : Expr → Except NumericError Expr}

namespace Settles

variable (hfold : Settles fold)

include hfold

theorem fold_substitute {known : Constants} {e e' : Expr} (h : fold (substitute known e) = .ok e') :
    fold (substitute known e') = .ok e' := by
  have hsub : substitute known e' = e' := by
    rcases hfold.kept h with rfl | hkept
    · exact substitute_substitute known e
    · exact hkept known
  rw [hsub]
  exact hfold.again h

theorem instr_again {known known' : Constants} {i i' : Instr}
    (h : instr fold known i = .ok (i', known')) : instr fold known i' = .ok (i', known') := by
  cases i with
  | set r e =>
    simp only [instr, bind_eq_ok_iff, pure_eq_ok_iff, Prod.mk.injEq] at h
    obtain ⟨e', he, rfl, rfl⟩ := h
    simp only [instr, bind_eq_ok_iff, pure_eq_ok_iff, Prod.mk.injEq]
    exact ⟨e', hfold.fold_substitute he, rfl, rfl⟩
  | _ =>
    obtain ⟨rfl, -⟩ := Prod.mk.inj (Except.ok.inj h)
    exact h

theorem instrs_again {known known' : Constants} {is is' : List Instr}
    (h : instrs fold known is = .ok (is', known')) :
    instrs fold known is' = .ok (is', known') := by
  induction is generalizing known is' with
  | nil =>
    obtain ⟨rfl, rfl⟩ := Prod.mk.inj (Except.ok.inj h)
    rfl
  | cons i is ih =>
    simp only [instrs, bind_eq_ok_iff, pure_eq_ok_iff, Prod.mk.injEq] at h
    obtain ⟨⟨i', known₁⟩, hi, ⟨is₁, known₂⟩, his, rfl, rfl⟩ := h
    -- the rest starts with the same literals in both passes
    simp only [instrs, bind_eq_ok_iff, pure_eq_ok_iff, Prod.mk.injEq]
    exact ⟨(i', known₁), hfold.instr_again hi, (is₁, known₂), ih his, rfl, rfl⟩

theorem block_again {known known' : Constants} {b b' : Block}
    (h : block fold known b = .ok (b', known')) : block fold known b' = .ok (b', known') := by
  simp only [block, bind_eq_ok_iff, pure_eq_ok_iff, Prod.mk.injEq] at h
  obtain ⟨⟨is, known₁⟩, his, rfl, rfl⟩ := h
  simp only [block, bind_eq_ok_iff, pure_eq_ok_iff, Prod.mk.injEq]
  exact ⟨(is, known₁), hfold.instrs_again his, rfl, rfl⟩

end Settles

end Fold

theorem Func.foldBy_again {fold : Expr → Except NumericError Expr} (hfold : Fold.Settles fold)
    {f g : Func} (h : f.foldBy fold = .ok g) : g.foldBy fold = .ok g := by
  simp only [foldBy, bind_eq_ok_iff, pure_eq_ok_iff] at h
  obtain ⟨⟨blocks, known⟩, hblocks, rfl⟩ := h
  simp only [foldBy, bind_eq_ok_iff, pure_eq_ok_iff]
  have hentries := IdMap.mapState_eq_ok_iff.1 hblocks
  have hagain := IdMap.mapEntries_again (F := Fold.block fold)
    (fun _ _ _ _ => hfold.block_again) hentries
  exact ⟨(blocks, known), IdMap.mapState_eq_ok_iff.2 hagain, rfl⟩

/-! ### The folders of expressions -/

namespace Expr

variable {H : Bytes → Bytes}

/-- What a folded expression can be: a literal, the bytes of a digest, or a new buffer. -/
def IsValue : Expr → Prop
  | literal _ | bytes _ _ | allocDynamicBytes _ _ _ => True
  | _ => False

theorem isValue_of_map_literal {x : Except NumericError (Option Literal)} {e : Expr}
    (h : (do return (← x).map Expr.literal) = Except.ok (some e)) : e.IsValue := by
  simp only [bind_eq_ok_iff, pure_eq_ok_iff, Option.map_eq_some_iff] at h
  obtain ⟨_, _, l, _, rfl⟩ := h
  trivial

theorem isValue_of_fold? {e e' : Expr} (h : e.fold? H = .ok (some e')) : e'.IsValue := by
  unfold fold? at h
  split at h
  · split at h
    · exact isValue_of_map_literal h
    · cases h
  · split at h
    · exact isValue_of_map_literal h
    · cases h
  · split at h
    · exact isValue_of_map_literal h
    · cases h
  · simp only [bind_eq_ok_iff, pure_eq_ok_iff, Option.map_eq_some_iff] at h
    obtain ⟨_, _, bytes, _, rfl⟩ := h
    trivial
  · cases h
    trivial
  · cases h
    trivial
  · cases h

namespace IsValue

variable {e : Expr} (h : e.IsValue)

include h

theorem fold_eq : e.fold H = .ok e := by
  cases e <;> first | rfl | cases h

theorem fits_eq : e.fits = true := by
  cases e <;> first | rfl | cases h

theorem substitute_eq (known : Fold.Constants) : Fold.substitute known e = e := by
  cases e <;> first | rfl | cases h

end IsValue

theorem eq_or_isValue_of_fold {e e' : Expr} (h : e.fold H = .ok e') : e' = e ∨ e'.IsValue := by
  simp only [fold, bind_eq_ok_iff, pure_eq_ok_iff] at h
  obtain ⟨r, hr, rfl⟩ := h
  cases r with
  | none => exact .inl rfl
  | some e' => exact .inr (isValue_of_fold? hr)

theorem settles_fold : Fold.Settles (fold H) where
  again h := by
    rcases eq_or_isValue_of_fold h with rfl | hvalue
    · exact h
    · exact hvalue.fold_eq
  kept h := (eq_or_isValue_of_fold h).imp_right fun hvalue => hvalue.substitute_eq

/-- What is refused for its size in a second pass has been refused in the first. -/
theorem settles_foldWithin : Fold.Settles (foldWithin H) where
  again h := by
    rcases eq_or_isValue_of_fold (fold_of_foldWithin h) with rfl | hvalue
    · exact h
    · rw [foldWithin, if_pos hvalue.fits_eq, hvalue.fold_eq]
  kept h := settles_fold.kept (fold_of_foldWithin h)

end Expr

namespace Func

/-- Folding a function that has been folded does not fail and gives the same function, with and
without limits on the size of integers. -/
theorem fold_idempotent {H : Bytes → Bytes} {f g : Func} :
    (f.fold H = .ok g → g.fold H = .ok g) ∧ (f.foldWithin H = .ok g → g.foldWithin H = .ok g) :=
  ⟨foldBy_again Expr.settles_fold, foldBy_again Expr.settles_foldWithin⟩

/-- The variable 0 is set twice, and read in a block that was added before the one that sets it. -/
def reassigned (sum quotient : Expr) : Func where
  id := 0
  name := "reassigned"
  params := []
  returns := []
  entry := 1
  blocks := ⟨[
    (2, { id := 2, instructions :=
      [.set 1 (.binary (.add false) (.var 0) (.number (.uint 8) 1)), .terminate (.ret [])] }),
    (1, { id := 1, instructions :=
      [.set 0 (.number (.uint 8) 200), .set 0 sum, .set 2 quotient, .terminate (.branch 2)] })],
    by simp⟩
  table := ⟨#[⟨.uint 8, none⟩, ⟨.uint 8, none⟩, ⟨.uint 8, none⟩]⟩

/-- The sum of 200 and 100 is 44 in eight bits; the division of 44 by zero stays. -/
theorem fold_idempotent_reassigned :
    let f := reassigned (.binary (.add false) (.var 0) (.number (.uint 8) 100))
      (.binary .udiv (.var 0) (.number (.uint 8) 0))
    let g := reassigned (.number (.uint 8) 44)
      (.binary .udiv (.number (.uint 8) 44) (.number (.uint 8) 0))
    f.fold Keccak.digest = .ok g ∧ f.foldWithin Keccak.digest = .ok g ∧
      g.fold Keccak.digest = .ok g ∧ g.foldWithin Keccak.digest = .ok g := by
  intro f g
  have hfold : f.fold Keccak.digest = .ok g := rfl
  have hwithin : f.foldWithin Keccak.digest = .ok g := rfl
  exact ⟨hfold, hwithin, fold_idempotent.1 hfold, fold_idempotent.2 hwithin⟩

end Func

end ContractIR
