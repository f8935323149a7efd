import ContractIR.Proofs.Fold.Operators
import ContractIR.Proofs.Fold.Rewrite
import ContractIR.Proofs.Meaning.Run

/-!
# ContractIR.Proofs.Fold.Expr — folded expressions evaluate alike

If all integer types of an expression have at least two bits, folding the expression succeeds, and
the result has the same outcome under every interpretation.  Putting literals in place of variables
that hold them does not change the outcome either, as long as all operands have a value.
-/

namespace ContractIR

/-- The integer types of literals in the expression, and the type to which it carries a word over,
have at least two bits. -/
structure Expr.Wide (e : Expr) : Prop where
  value : ∀ l, e = .literal l → l.Wide
  operands : ∀ l, .literal l ∈ e.operands → l.Wide
  target : ∀ change o t, e = .widthChange change o t → t.Wide

namespace Operand

/-- Wide operands are encoded without failing.  Those that have bytes are literals, and the bytes
are those of the values that the literals stand for. -/
theorem encodeAll_eq_ok {os : List Operand} (hos : ∀ l, .literal l ∈ os → l.Wide) :
    ∃ r, encodeAll os = .ok r ∧ ∀ bytes, r = some bytes →
      ∃ (ls : List Literal) (chunks : List Bytes), os = ls.map .literal ∧
        (ls.map Literal.denote).mapM Const.encoding = some chunks ∧ bytes = chunks.flatten := by
  induction os with
  | nil =>
    refine ⟨some [], rfl, fun bytes h => ⟨[], [], rfl, rfl, ?_⟩⟩
    exact (Option.some.inj h).symm
  | cons o os ih =>
    obtain ⟨r, hr, hbytes⟩ := ih fun l hl => hos l (List.mem_cons_of_mem o hl)
    cases o with
    | var id => exact ⟨none, rfl, by simp⟩
    | unknown kind => exact ⟨none, rfl, by simp⟩
    | literal l =>
      have hl : encode (.literal l) = .ok l.denote.encoding :=
        Literal.encode_eq_ok (hos l (by simp))
      cases hchunk : l.denote.encoding with
      | none =>
        rw [hchunk] at hl
        refine ⟨none, ?_, by simp⟩
        rw [encodeAll, hl]
        rfl
      | some chunk =>
        rw [hchunk] at hl
        refine ⟨r.map (chunk ++ ·), ?_, fun bytes h => ?_⟩
        · rw [encodeAll, hl, hr]
          rfl
        · obtain ⟨rest, hrest, rfl⟩ := Option.map_eq_some_iff.1 h
          obtain ⟨ls, chunks, rfl, hchunks, rfl⟩ := hbytes rest hrest
          refine ⟨l :: ls, chunk :: chunks, rfl, ?_, rfl⟩
          simp [hchunk, hchunks]

end Operand

namespace Interp

variable {H : Bytes → Bytes} {I : Interp H} (env : I.Env) (m : I.State)

theorem eval_literal (l : Literal) :
    eval env m (.literal l) = .ok (.next (I.const l.denote) m) :=
  congrArg Except.ok (I.expr_literal l m)

theorem mapM_read_literals (ls : List Literal) :
    (ls.map Operand.literal).mapM (read env) = .ok (ls.map fun l => I.const l.denote) := by
  rw [mapM_eq_ok_iff, List.forall₂_map_left_iff, List.forall₂_map_right_iff]
  exact List.forall₂_same.2 fun _ _ => rfl

/-- The expression that is put in place of another has the same outcome. -/
def Replaces (H : Bytes → Bytes) (e e' : Expr) : Prop :=
  e'.Wide ∧ ∀ (I : Interp H) (env : I.Env) (m : I.State), eval env m e' = eval env m e

theorem replaces_literal {e : Expr} {d : Literal} (hd : d.Wide)
    (h : ∀ (I : Interp H) (env : I.Env) (m : I.State),
      eval env m e = .ok (.next (I.const d.denote) m)) : Replaces H e (.literal d) := by
  refine ⟨⟨fun l hl => ?_, fun l hl => ?_, nofun⟩, fun I env m => ?_⟩
  · rwa [← Expr.literal.inj hl]
  · simp [Expr.operands] at hl
  · rw [h, eval_literal]

/-- Hashing the bytes of literals has the outcome of their digest. -/
theorem replaces_digest {ls : List Literal} {chunks : List Bytes}
    (h : (ls.map Literal.denote).mapM Const.encoding = some chunks) :
    Replaces H (.keccak256 (ls.map .literal)) (.digest H chunks.flatten) := by
  refine ⟨⟨nofun, fun l hl => by simp [Expr.digest, Expr.operands] at hl, nofun⟩, fun I env m => ?_⟩
  have hlaw := I.expr_keccak256 _ _ h m
  rw [List.map_map, List.map_map] at hlaw
  simp only [eval, Expr.operands, mapM_read_literals, Expr.form, List.map_map]
  exact congrArg Except.ok hlaw.symm

theorem replaces_buffer (left right : Bytes) :
    Replaces H (.stringConcat (.compileTime left) (.compileTime right))
      (.buffer (left ++ right)) := by
  refine ⟨⟨nofun, fun l hl => ?_, nofun⟩, fun I env m => ?_⟩
  · simp only [Expr.buffer, Expr.operands, List.mem_singleton, Operand.literal.injEq] at hl
    subst hl
    intro i hi
    simp only [Ty.intTy?, Option.some.injEq] at hi
    subst hi
    decide
  · have hsize : (Literal.number (.uint 32) ((left ++ right).length : Nat)).denote =
        .word ⟨false, 32⟩ (BitVec.ofNat 32 (left ++ right).length) := by
      rw [Literal.denote_number (f := ⟨false, 32⟩) rfl, BitVec.ofInt_natCast]
    have halloc := I.expr_alloc (left ++ right) m
    rw [← hsize, ← I.expr_stringConcat] at halloc
    exact congrArg Except.ok halloc

end Interp

namespace Expr

open Interp

variable {H : Bytes → Bytes}

theorem map_literal_eq_ok {e : Expr} {x : Except NumericError (Option Literal)}
    {c : Option Literal} (hx : x = .ok c) (hc : ∀ d, c = some d → Replaces H e (.literal d)) :
    ∃ r, (do return (← x).map Expr.literal) = Except.ok r ∧
      ∀ e', r = some e' → Replaces H e e' := by
  refine ⟨c.map .literal, by rw [hx]; rfl, fun e' he' => ?_⟩
  obtain ⟨d, hd, rfl⟩ := Option.map_eq_some_iff.1 he'
  exact hc d hd

/-- A wide expression is folded without failing, to an expression with the same outcome. -/
theorem fold?_eq_ok {e : Expr} (he : e.Wide) :
    ∃ r, e.fold? H = .ok r ∧ ∀ e', r = some e' → Replaces H e e' := by
  cases e with
  | binary op left right =>
    simp only [fold?]
    split
    · rename_i a b ha hb
      obtain rfl := Operand.eq_literal_of_literal? ha
      obtain rfl := Operand.eq_literal_of_literal? hb
      obtain ⟨c, hc, hmean⟩ := op.literal?_eq_ok (b := b) (he.operands a (by simp [operands]))
      refine map_literal_eq_ok hc fun d hd => replaces_literal (hmean d hd).1 fun I env m => ?_
      exact congrArg Except.ok (I.expr_binary op _ _ _ (hmean d hd).2 m)
    · exact ⟨none, rfl, by simp⟩
  | unary op operand =>
    simp only [fold?]
    split
    · rename_i a ha
      obtain rfl := Operand.eq_literal_of_literal? ha
      obtain ⟨c, hc, hmean⟩ := op.literal?_eq_ok (he.operands a (by simp [operands]))
      refine map_literal_eq_ok hc fun d hd => replaces_literal (hmean d hd).1 fun I env m => ?_
      exact congrArg Except.ok (I.expr_unary op _ _ (hmean d hd).2 m)
    · exact ⟨none, rfl, by simp⟩
  | widthChange change operand type =>
    simp only [fold?]
    split
    · rename_i a ha
      obtain rfl := Operand.eq_literal_of_literal? ha
      obtain ⟨c, hc, hmean⟩ := change.literal?_eq_ok (he.target _ _ _ rfl)
        (he.operands a (by simp [operands]))
      refine map_literal_eq_ok hc fun d hd => replaces_literal (hmean d hd).1 fun I env m => ?_
      exact congrArg Except.ok (I.expr_widthChange change type _ _ (hmean d hd).2 m)
    · exact ⟨none, rfl, by simp⟩
  | keccak256 args =>
    have hargs : ∀ l, .literal l ∈ args → l.Wide := he.operands
    obtain ⟨r, hr, hbytes⟩ := Operand.encodeAll_eq_ok hargs
    refine ⟨r.map (digest H), by rw [fold?, hr]; rfl, fun e' he' => ?_⟩
    obtain ⟨bytes, hsome, rfl⟩ := Option.map_eq_some_iff.1 he'
    obtain ⟨ls, chunks, rfl, hchunks, rfl⟩ := hbytes bytes hsome
    exact replaces_digest hchunks
  | stringCompare left right =>
    match left, right with
    | .compileTime left, .compileTime right =>
      refine ⟨some (.bool (left == right)), rfl, fun e' he' => ?_⟩
      obtain rfl := Option.some.inj he'
      refine replaces_literal trivial fun I env m => ?_
      rw [beq_eq_decide]
      exact congrArg Except.ok (I.expr_stringCompare left right m)
    | .compileTime _, .runTime _ | .compileTime _, .unknown _ | .runTime _, _ | .unknown _, _ =>
      exact ⟨none, rfl, by simp⟩
  | stringConcat left right =>
    match left, right with
    | .compileTime left, .compileTime right =>
      refine ⟨some (.buffer (left ++ right)), rfl, fun e' he' => ?_⟩
      obtain rfl := Option.some.inj he'
      exact replaces_buffer left right
    | .compileTime _, .runTime _ | .compileTime _, .unknown _ | .runTime _, _ | .unknown _, _ =>
      exact ⟨none, rfl, by simp⟩
  | _ => exact ⟨none, rfl, by simp⟩

theorem fold_eq_ok {e : Expr} (he : e.Wide) : ∃ e', e.fold H = .ok e' ∧ Replaces H e e' := by
  obtain ⟨r, hr, hrep⟩ := fold?_eq_ok he
  refine ⟨r.getD e, by rw [fold, hr]; rfl, ?_⟩
  cases r with
  | none => exact ⟨he, fun I env m => rfl⟩
  | some e' => exact hrep e' rfl

end Expr

end ContractIR
