import ContractIR.Proofs.Text.Expr
import ContractIR.Proofs.Text.Reference

/-!
# ContractIR.Proofs.Text.Operands — a text names what the instruction defines and reads

The variables in the text of an instruction are those that it defines and those that its operands
read, and the blocks are those that control may go to or come from.

* `Text.refers_expr`, `Text.refers_terminator`, `Text.refers_instr`: the references in the texts, in
  the order in which they are printed.
* `Instr.names_text`: what can be found in the text of an instruction.
-/

namespace ContractIR

open Decimal Text

/-! ### What is referred to -/

/-- The number, if it is looked for. -/
def Text.Mark.pick (mark other : Mark) (n : Int) : List Int := if other = mark then [n] else []

@[simp] theorem Text.Mark.pick_self (mark : Mark) (n : Int) : mark.pick mark n = [n] := if_pos rfl

@[simp] theorem Text.Mark.flatMap_pick_self (mark : Mark) (ns : List Int) :
    ns.flatMap (mark.pick mark) = ns := by
  simp [List.flatMap_congr fun n _ => mark.pick_self n]

@[simp] theorem Text.Mark.pick_of_ne {mark other : Mark} (h : other ≠ mark) (n : Int) :
    mark.pick other n = [] := if_neg h

/-- The references in the text of an operand. -/
def Operand.refs (mark : Mark) (o : Operand) : List Int := o.var?.toList.flatMap (mark.pick .var)

@[simp] theorem Operand.refs_block (o : Operand) : o.refs .block = [] := by simp [refs]

theorem Operand.flatMap_refs_var (os : List Operand) :
    os.flatMap (refs .var) = os.filterMap var? := by
  induction os with
  | nil => rfl
  | cons o os ih =>
    rw [List.flatMap_cons, List.filterMap_cons, ih]
    cases o <;> simp [refs, var?]

/-- The references in the text of a terminator. -/
def Terminator.refs (mark : Mark) (t : Terminator) : List Int :=
  match mark with
  | .var => t.operands.flatMap (Operand.refs .var)
  | .block => t.successors

namespace Instr

/-- The blocks that control may go to, or come from if the instruction is a phi. -/
def targets : Instr → List BlockId
  | phi _ inputs => inputs.map PhiInput.block
  | i => i.successors

/-- The operands in the order in which they are printed; a store is the only instruction that has
them in another order. -/
def printed : Instr → List Operand
  | store dest data => [data, dest]
  | i => i.operands

theorem printed_perm (i : Instr) : i.printed.Perm i.operands := by
  cases i with
  | store dest data => exact .swap dest data []
  | _ => exact .rfl

/-- The references in the text of the instruction. -/
def refs (mark : Mark) (i : Instr) : List Int :=
  match mark with
  | .var => i.definitions ++ i.printed.filterMap Operand.var?
  | .block => i.targets

theorem refs_var_perm (i : Instr) : (i.refs .var).Perm (i.definitions ++ i.uses) :=
  (i.printed_perm.filterMap _).append_left _

theorem refs_eq {i : Instr} (h : i.targets = []) (mark : Mark) : i.refs mark =
    i.definitions.flatMap (mark.pick .var) ++ i.printed.flatMap (Operand.refs mark) := by
  cases mark with
  | var => simp [refs, Operand.flatMap_refs_var]
  | block => simp [refs, h]

end Instr

/-! ### Operands and the parts that hold them -/

namespace Text

variable {mark : Mark}

theorem refers_mark {other : Mark} {n : Int} {s : String}
    (hs : s.toList = other.chars ++ numeral n) : Refers mark Breaks s (mark.pick other n) := by
  intro h u hu
  rw [hs, List.append_assoc]
  by_cases heq : other = mark
  · subst heq
    have hn : IsFloat n := h n (by simp [Mark.pick])
    simpa [Mark.pick] using references_mark hn hu
  · rw [Mark.pick, if_neg heq]
    have hother : mark.closing ∉ other.chars ++ numeral n := by
      intro hmem
      rcases List.mem_append.1 hmem with hmem | hmem
      · cases mark <;> cases other <;> first | exact heq rfl | (revert hmem; decide)
      · exact (plain_intText n).closing_not_mem mark hmem
    rw [← List.append_assoc]
    exact references_append_of_not_mem hother hu

theorem refers_varText (x : VarId) : Refers mark Breaks (varText x) (mark.pick .var x) :=
  refers_mark (by simp [varText, Mark.chars, numeral])

theorem refers_blockText (b : BlockId) : Refers mark Breaks (blockText b) (mark.pick .block b) :=
  refers_mark (by simp [blockText, Mark.chars, numeral])

theorem refers_operand {o : Operand} {s : String} (hs : o.text = .ok s) :
    Refers mark Breaks s (o.refs mark) := by
  cases o with
  | var x =>
    simp only [Operand.text, Except.ok.injEq] at hs
    subst hs
    simpa [Operand.refs, Operand.var?] using refers_varText x
  | literal l => exact .plain (plain_literal hs)
  | unknown kind => cases hs

theorem refers_list {α : Type} {f : α → Except Diagnostic String} {g : α → List Int} {as : List α}
    {ss : List String} (h : List.Forall₂ (fun a s => f a = .ok s) as ss)
    (hf : ∀ a s, f a = .ok s → Refers mark Breaks s (g a)) :
    Refers mark Breaks (", ".intercalate ss) (as.flatMap g) :=
  .intercalate (by decide) (h.imp hf)

theorem refers_operands {os : List Operand} {s : String} (hs : Operand.listText os = .ok s) :
    Refers mark Breaks s (os.flatMap (Operand.refs mark)) := by
  simp only [Operand.listText, bind_eq_ok_iff, pure_eq_ok_iff, mapM_eq_ok_iff] at hs
  obtain ⟨ss, hss, rfl⟩ := hs
  exact refers_list hss fun _ _ => refers_operand

theorem refers_source {source : StringSource} {s : String} (hs : source.text = .ok s) :
    Refers mark Breaks s (source.operand?.toList.flatMap (Operand.refs mark)) := by
  cases source with
  | compileTime bs =>
    simp only [StringSource.text, Except.ok.injEq] at hs
    subst hs
    refine .plain (plain_bracketed (by decide) (plain_intercalate (by decide) fun r hr => ?_)
      (by decide))
    obtain ⟨b, -, rfl⟩ := List.mem_map.1 hr
    exact plain_byte b
  | runTime o => simpa [StringSource.operand?] using refers_operand hs
  | unknown kind => cases hs

theorem refers_formatArg {arg : FormatSpec × Operand} {s : String}
    (hs : Expr.formatArgText arg = .ok s) : Refers mark Breaks s (arg.2.refs mark) := by
  obtain ⟨spec, o⟩ := arg
  simp only [Expr.formatArgText, bind_eq_ok_iff] at hs
  obtain ⟨r, hr, hs⟩ := hs
  have ho : Refers mark Breaks r (o.refs mark) := refers_operand hr
  cases spec with
  | default =>
    simp only [FormatSpec.apply, Except.ok.injEq] at hs
    subst hs
    exact ho
  | binary | hex =>
    simp only [FormatSpec.apply, Except.ok.injEq] at hs
    subst hs
    exact (Refers.word (by decide)).append ho
  | unknown name => cases hs

/-! ### Expressions -/

theorem separator_of_binaryOp {op : BinaryOp} {s : String} (hs : op.text = .ok s) :
    isSeparator (" " ++ s ++ " ") = true := by
  cases op with
  | add overflowing | sub overflowing | mul overflowing | pow overflowing =>
    simp only [BinaryOp.text, Except.ok.injEq] at hs
    subst hs
    cases overflowing <;> decide
  | unknown kind => cases hs
  | _ =>
    simp only [BinaryOp.text, Except.ok.injEq] at hs
    subst hs
    decide

theorem word_of_unaryOp {op : UnaryOp} {s : String} (hs : op.text = .ok s) : isWord s = true := by
  cases op with
  | neg overflowing =>
    simp only [UnaryOp.text, Except.ok.injEq] at hs
    subst hs
    cases overflowing <;> decide
  | unknown kind => cases hs
  | _ =>
    simp only [UnaryOp.text, Except.ok.injEq] at hs
    subst hs
    decide

/-- The text of an expression refers to the variables that the operands read. -/
theorem refers_expr {e : Expr} {location : Location} {s : String} (hs : e.text location = .ok s) :
    Refers mark Breaks s (e.operands.flatMap (Operand.refs mark)) := by
  cases e with
  | binary op left right =>
    simp only [Expr.text, bind_eq_ok_iff, pure_eq_ok_iff] at hs
    obtain ⟨l, hl, o, ho, r, hr, rfl⟩ := hs
    -- the sign of a remainder would be a mark if the blank behind it were not part of the word
    have htext : l ++ " " ++ o ++ " " ++ r = l ++ (" " ++ o ++ " ") ++ r := by
      simp only [String.append_assoc]
    rw [htext]
    exact (refers_operand hl).close (separator_of_binaryOp ho) |>.append (refers_operand hr)
      |>.of_eq (by simp [Expr.operands])
  | unary op operand =>
    simp only [Expr.text, bind_eq_ok_iff, pure_eq_ok_iff] at hs
    obtain ⟨o, ho, r, hr, rfl⟩ := hs
    exact (Refers.word (word_of_unaryOp ho)).append (refers_operand hr)
      |>.of_eq (by simp [Expr.operands])
  | literal value => exact .plain (plain_literal hs)
  | var id =>
    exact (refers_operand (o := .var id) hs).of_eq (by simp [Expr.operands])
  | bytes type value =>
    simp only [Expr.text, bind_eq_ok_iff, pure_eq_ok_iff] at hs
    obtain ⟨t, ht, rfl⟩ := hs
    exact .plain (plain_bracketed (plain_append.2 ⟨plain_ty type ht, by decide⟩)
      (plain_hexBytes (by decide) value) (by decide))
  | array type values =>
    simp only [Expr.text, bind_eq_ok_iff, pure_eq_ok_iff] at hs
    obtain ⟨t, ht, r, hr, rfl⟩ := hs
    exact (Refers.plain (plain_ty type ht)).close (by decide) |>.append (refers_operands hr)
      |>.close (by decide) |>.weaken
  | constArray type values =>
    simp only [Expr.text, bind_eq_ok_iff, pure_eq_ok_iff] at hs
    obtain ⟨t, ht, r, hr, rfl⟩ := hs
    exact (Refers.word (by decide)).append (.plain (plain_ty type ht)) |>.close (by decide)
      |>.append (refers_operands hr) |>.close (by decide) |>.weaken
  | struct values | keccak256 values =>
    simp only [Expr.text, bind_eq_ok_iff, pure_eq_ok_iff] at hs
    obtain ⟨r, hr, rfl⟩ := hs
    exact (Refers.word (by decide)).append (refers_operands hr) |>.close (by decide) |>.weaken
  | getRef operand | load operand =>
    simp only [Expr.text, bind_eq_ok_iff, pure_eq_ok_iff] at hs
    obtain ⟨r, hr, rfl⟩ := hs
    exact (Refers.word (by decide)).append (refers_operand hr)
      |>.of_eq (by simp [Expr.operands])
  | storageArrayLength operand =>
    simp only [Expr.text, bind_eq_ok_iff, pure_eq_ok_iff] at hs
    obtain ⟨r, hr, rfl⟩ := hs
    exact (Refers.word (by decide)).append (refers_operand hr) |>.close (by decide) |>.weaken
      |>.of_eq (by simp [Expr.operands])
  | structMember operand member =>
    simp only [Expr.text, bind_eq_ok_iff, pure_eq_ok_iff] at hs
    obtain ⟨r, hr, rfl⟩ := hs
    exact (refers_operand hr).close (by decide) |>.append (.plain (plain_intText member))
      |>.of_eq (by simp [Expr.operands])
  | subscript base index =>
    simp only [Expr.text, bind_eq_ok_iff, pure_eq_ok_iff] at hs
    obtain ⟨r, hr, i, hi, rfl⟩ := hs
    exact (refers_operand hr).close (by decide) |>.append (refers_operand hi)
      |>.close (by decide) |>.weaken |>.of_eq (by simp [Expr.operands])
  | advancePointer pointer offset =>
    simp only [Expr.text, bind_eq_ok_iff, pure_eq_ok_iff] at hs
    obtain ⟨p, hp, o, ho, rfl⟩ := hs
    exact (Refers.word (by decide)).append (refers_operand hp) |>.close (by decide)
      |>.append (refers_operand ho) |>.close (by decide) |>.weaken
      |>.of_eq (by simp [Expr.operands])
  | cast operand type | bytesCast operand type =>
    simp only [Expr.text, bind_eq_ok_iff, pure_eq_ok_iff] at hs
    obtain ⟨r, hr, t, ht, rfl⟩ := hs
    exact (Refers.word (by decide)).append (refers_operand hr) |>.close (by decide)
      |>.append (.plain (plain_ty type ht)) |>.close (by decide) |>.weaken
      |>.of_eq (by simp [Expr.operands])
  | widthChange change operand type =>
    simp only [Expr.text, bind_eq_ok_iff, pure_eq_ok_iff] at hs
    obtain ⟨r, hr, t, ht, rfl⟩ := hs
    have hopening : isWord ("(" ++ change.text ++ " ") = true := by cases change <;> decide
    exact (Refers.word hopening).append (refers_operand hr) |>.close (by decide)
      |>.append (.plain (plain_ty type ht)) |>.close (by decide) |>.weaken
      |>.of_eq (by simp [Expr.operands])
  | allocDynamicBytes type size contents =>
    obtain ⟨t, rfl⟩ := exists_ptr_of_allocText hs
    simp only [Expr.text, Expr.allocText, bind_eq_ok_iff] at hs
    obtain ⟨r, hr, n, hn, hs⟩ := hs
    have hbuffer : RefersAlways mark ("alloc " ++ r ++ "[" ++ n ++ "]") (size.refs mark) :=
      (Refers.word (by decide)).append (.plain (plain_ty t hr)) |>.close (by decide)
        |>.append (refers_operand hn) |>.close (by decide) |>.of_eq (by simp)
    cases contents with
    | none =>
      simp only [pure_eq_ok_iff] at hs
      subst hs
      exact hbuffer.weaken.of_eq (by simp [Expr.operands])
    | some bs =>
      simp only [pure_eq_ok_iff] at hs
      subst hs
      exact hbuffer.append (.word (by decide)) |>.append (.plain (plain_hexBytes (by decide) bs))
        |>.close (by decide) |>.weaken |>.of_eq (by simp [Expr.operands])
  | stringCompare left right | stringConcat left right =>
    simp only [Expr.text, bind_eq_ok_iff, pure_eq_ok_iff] at hs
    obtain ⟨l, hl, r, hr, rfl⟩ := hs
    exact (Refers.word (by decide)).append (refers_source hl) |>.close (by decide)
      |>.append (refers_source hr) |>.close (by decide) |>.weaken
      |>.of_eq (by simp [Expr.operands])
  | formatString args =>
    simp only [Expr.text, bind_eq_ok_iff, pure_eq_ok_iff, mapM_eq_ok_iff] at hs
    obtain ⟨rs, hrs, rfl⟩ := hs
    have hargs : Refers mark Breaks (", ".intercalate rs)
        (args.flatMap fun arg => arg.2.refs mark) := refers_list hrs fun _ _ => refers_formatArg
    exact (Refers.word (by decide)).append hargs |>.close (by decide) |>.weaken
      |>.of_eq (by simp [Expr.operands, List.flatMap_map])
  | functionArg index =>
    simp only [Expr.text, Except.ok.injEq] at hs
    subst hs
    exact (Refers.word (by decide)).append (.plain (plain_intText index))
  | internalFunction function =>
    simp only [Expr.text, Except.ok.injEq] at hs
    subst hs
    exact (Refers.word (by decide)).append (.plain (plain_intText function))
  | returnData =>
    simp only [Expr.text, Except.ok.injEq] at hs
    subst hs
    exact .plain (by decide)
  | unknown kind => cases hs

/-! ### Parts of instructions -/

theorem refers_results (xs : List VarId) :
    RefersAlways mark (resultsText xs) (xs.flatMap (mark.pick .var)) := by
  cases xs with
  | nil => exact .word (by decide)
  | cons x xs =>
    have hvars : List.Forall₂ (fun x s => Refers mark Breaks s (mark.pick .var x)) (x :: xs)
        ((x :: xs).map varText) := by
      rw [List.forall₂_map_right_iff, List.forall₂_same]
      exact fun y _ => refers_varText y
    exact (Refers.intercalate (by decide) hvars).close (by decide)

theorem refers_labelled {label s : String} {o : Option Operand} (hlabel : isWord (label ++ ":"))
    (hs : labelledText label o = .ok s) :
    Refers mark Breaks s (o.toList.flatMap (Operand.refs mark)) := by
  cases o with
  | none =>
    simp only [labelledText, Except.ok.injEq] at hs
    subst hs
    exact .plain (by decide)
  | some o =>
    simp only [labelledText, bind_eq_ok_iff, pure_eq_ok_iff] at hs
    obtain ⟨r, hr, rfl⟩ := hs
    have ho : Refers mark Breaks r (o.refs mark) := refers_operand hr
    simpa using (Refers.word hlabel).append ho

theorem refers_optional {s : String} {o : Option Operand} (hs : optionalText o = .ok s) :
    Refers mark Breaks s (o.toList.flatMap (Operand.refs mark)) := by
  cases o with
  | none =>
    simp only [optionalText, Except.ok.injEq] at hs
    subst hs
    exact .plain (by decide)
  | some o =>
    have ho : Refers mark Breaks s (o.refs mark) := refers_operand hs
    simpa using ho

theorem plain_contractFunction (f : Option ContractFunction) :
    Plain (ContractFunction.optionalText f) := by
  cases f with
  | none => decide
  | some f =>
    exact plain_bracketed (plain_bracketed (by decide) (plain_intText _) (by decide))
      (plain_intText _) (by decide)

theorem plain_optionalNumber (n : Option Int) : Plain ((n.map intText).getD "_") := by
  cases n with
  | none => decide
  | some n => exact plain_intText n

theorem refers_callee {callee : CallTarget} {s : String} (hs : callee.text = .ok s)
    (xs : List VarId) (args : List Operand) :
    ∃ ids, Refers mark Breaks s ids ∧ (Instr.call xs callee args).printed.flatMap
      (Operand.refs mark) = ids ++ args.flatMap (Operand.refs mark) := by
  cases callee with
  | static n =>
    simp only [CallTarget.text, Except.ok.injEq] at hs
    subst hs
    exact ⟨[], (Refers.word (by decide)).append (.plain (plain_intText n)), rfl⟩
  | builtin n =>
    simp only [CallTarget.text, Except.ok.injEq] at hs
    subst hs
    exact ⟨[], (Refers.word (by decide)).append (.plain (plain_intText n)), rfl⟩
  | dynamic o => exact ⟨_, refers_operand hs, rfl⟩
  | unknown kind => cases hs

theorem refers_case {c : Operand × BlockId} {s : String} (hs : Terminator.caseText c = .ok s) :
    Refers mark Breaks s (c.1.refs mark ++ mark.pick .block c.2) := by
  simp only [Terminator.caseText, bind_eq_ok_iff, pure_eq_ok_iff] at hs
  obtain ⟨r, hr, rfl⟩ := hs
  exact ((refers_operand hr).close (by decide)).append (refers_blockText c.2)

theorem refers_phiInput {i : PhiInput} {s : String} (hs : i.text = .ok s) :
    Refers mark Breaks s (i.operand.refs mark ++ mark.pick .block i.block) := by
  simp only [PhiInput.text, bind_eq_ok_iff, pure_eq_ok_iff] at hs
  obtain ⟨r, hr, rfl⟩ := hs
  exact (Refers.word (by decide)).append (refers_operand hr) |>.close (by decide)
    |>.append (refers_blockText i.block) |>.close (by decide) |>.weaken

/-! ### Terminators and instructions -/

theorem refers_terminator {t : Terminator} {s : String} (hs : t.text = .ok s) :
    RefersAlways mark s (t.refs mark) := by
  cases t with
  | branch block =>
    simp only [Terminator.text, Except.ok.injEq] at hs
    subst hs
    refine (Refers.word (by decide)).append (refers_blockText block) |>.close (by decide)
      |>.of_eq ?_
    cases mark <;> simp [Terminator.refs, Terminator.operands, Terminator.successors]
  | branchCond condition trueBlock falseBlock =>
    simp only [Terminator.text, bind_eq_ok_iff, pure_eq_ok_iff] at hs
    obtain ⟨c, hc, rfl⟩ := hs
    refine (Refers.word (by decide)).append (refers_operand hc) |>.close (by decide)
      |>.append (refers_blockText trueBlock) |>.close (by decide)
      |>.append (refers_blockText falseBlock) |>.close (by decide) |>.of_eq ?_
    cases mark <;> simp [Terminator.refs, Terminator.operands, Terminator.successors]
  | switch condition cases defaultBlock =>
    simp only [Terminator.text, bind_eq_ok_iff, pure_eq_ok_iff, mapM_eq_ok_iff] at hs
    obtain ⟨cs, hcs, c, hc, rfl⟩ := hs
    refine (Refers.word (by decide)).append (refers_operand hc) |>.close (by decide)
      |>.append (refers_list hcs fun _ _ => refers_case) |>.close (by decide)
      |>.append (refers_blockText defaultBlock) |>.close (by decide) |>.of_eq ?_
    cases mark with
    | var => simp [Terminator.refs, Terminator.operands, List.flatMap_map]
    | block => simp [Terminator.refs, Terminator.successors, List.map_eq_flatMap]
  | ret values =>
    cases values with
    | nil =>
      simp only [Terminator.text, List.isEmpty_nil, if_true, Except.ok.injEq] at hs
      subst hs
      refine Refers.of_eq (.word (by decide)) ?_
      cases mark <;> rfl
    | cons o os =>
      simp only [Terminator.text, List.isEmpty_cons, Bool.false_eq_true, if_false, bind_eq_ok_iff,
        pure_eq_ok_iff] at hs
      obtain ⟨r, hr, rfl⟩ := hs
      refine (Refers.word (by decide)).append (refers_operands hr) |>.close (by decide)
        |>.of_eq ?_
      cases mark <;> simp [Terminator.refs, Terminator.operands, Terminator.successors]
  | returnData data length =>
    simp only [Terminator.text, bind_eq_ok_iff, pure_eq_ok_iff] at hs
    obtain ⟨d, hd, l, hl, rfl⟩ := hs
    refine (Refers.word (by decide)).append (refers_operand hd) |>.close (by decide)
      |>.append (refers_operand hl) |>.close (by decide) |>.of_eq ?_
    cases mark <;> simp [Terminator.refs, Terminator.operands, Terminator.successors]
  | returnCode code =>
    simp only [Terminator.text, Except.ok.injEq] at hs
    subst hs
    refine Refers.of_eq (.word (by cases code <;> decide)) ?_
    cases mark <;> rfl
  | assertFailure encodedArgs =>
    cases encodedArgs with
    | none =>
      simp only [Terminator.text, Except.ok.injEq] at hs
      subst hs
      refine Refers.of_eq (.word (by decide)) ?_
      cases mark <;> rfl
    | some o =>
      simp only [Terminator.text, bind_eq_ok_iff, pure_eq_ok_iff] at hs
      obtain ⟨r, hr, rfl⟩ := hs
      refine (Refers.word (by decide)).append (refers_operand hr) |>.close (by decide) |>.of_eq ?_
      cases mark <;> simp [Terminator.refs, Terminator.operands, Terminator.successors]
  | unimplemented reachable =>
    simp only [Terminator.text, Except.ok.injEq] at hs
    subst hs
    refine Refers.of_eq (.word (by cases reachable <;> decide)) ?_
    cases mark <;> rfl

/-- The text of an instruction refers to the variables that it defines and reads, and to its
blocks. -/
theorem refers_instr {i : Instr} {location : Location} {s : String}
    (hs : i.text location = .ok s) : RefersAlways mark s (i.refs mark) := by
  cases i with
  | nop =>
    simp only [Instr.text, Except.ok.injEq] at hs
    subst hs
    rw [Instr.refs_eq rfl]
    exact .word (by decide)
  | set x e =>
    simp only [Instr.text, bind_eq_ok_iff, pure_eq_ok_iff] at hs
    obtain ⟨r, hr, rfl⟩ := hs
    rw [Instr.refs_eq rfl]
    exact (refers_varText x).close (by decide) |>.append (refers_expr hr) |>.close (by decide)
      |>.of_eq (by simp [Instr.definitions, Instr.printed, Instr.operands])
  | store dest data =>
    simp only [Instr.text, bind_eq_ok_iff, pure_eq_ok_iff] at hs
    obtain ⟨d, hd, p, hp, rfl⟩ := hs
    rw [Instr.refs_eq rfl]
    exact (Refers.word (by decide)).append (refers_operand hd) |>.close (by decide)
      |>.append (refers_operand hp) |>.close (by decide)
      |>.of_eq (by simp [Instr.definitions, Instr.printed])
  | loadStorage x storage =>
    simp only [Instr.text, bind_eq_ok_iff, pure_eq_ok_iff] at hs
    obtain ⟨r, hr, rfl⟩ := hs
    rw [Instr.refs_eq rfl]
    exact (refers_varText x).close (by decide) |>.append (refers_operand hr) |>.close (by decide)
      |>.of_eq (by simp [Instr.definitions, Instr.printed, Instr.operands])
  | clearStorage o | print o | selfDestruct o =>
    simp only [Instr.text, bind_eq_ok_iff, pure_eq_ok_iff] at hs
    obtain ⟨r, hr, rfl⟩ := hs
    rw [Instr.refs_eq rfl]
    exact (Refers.word (by decide)).append (refers_operand hr) |>.close (by decide)
      |>.of_eq (by simp [Instr.definitions, Instr.printed, Instr.operands])
  | setStorage storage value =>
    simp only [Instr.text, bind_eq_ok_iff, pure_eq_ok_iff] at hs
    obtain ⟨r, hr, v, hv, rfl⟩ := hs
    rw [Instr.refs_eq rfl]
    exact (Refers.word (by decide)).append (refers_operand hr) |>.close (by decide)
      |>.append (refers_operand hv) |>.close (by decide)
      |>.of_eq (by simp [Instr.definitions, Instr.printed, Instr.operands])
  | setStorageBytes a b c | memCopy a b c | writeBuffer a b c =>
    simp only [Instr.text, bind_eq_ok_iff, pure_eq_ok_iff] at hs
    obtain ⟨r, hr, i, hi, v, hv, rfl⟩ := hs
    rw [Instr.refs_eq rfl]
    exact (Refers.word (by decide)).append (refers_operand hr) |>.close (by decide)
      |>.append (refers_operand hi) |>.close (by decide)
      |>.append (refers_operand hv) |>.close (by decide)
      |>.of_eq (by simp [Instr.definitions, Instr.printed, Instr.operands])
  | pushStorage x storage value =>
    simp only [Instr.text, bind_eq_ok_iff, pure_eq_ok_iff] at hs
    obtain ⟨r, hr, v, hv, rfl⟩ := hs
    rw [Instr.refs_eq rfl]
    exact (refers_varText x).close (by decide) |>.append (refers_operand hr) |>.close (by decide)
      |>.append (refers_optional hv) |>.close (by decide)
      |>.of_eq (by simp [Instr.definitions, Instr.printed, Instr.operands])
  | popStorage x storage =>
    simp only [Instr.text, bind_eq_ok_iff, pure_eq_ok_iff] at hs
    obtain ⟨r, hr, rfl⟩ := hs
    rw [Instr.refs_eq rfl]
    exact (refers_results x.toList).append (.word (by decide)) |>.append (refers_operand hr)
      |>.close (by decide) |>.of_eq (by simp [Instr.definitions, Instr.printed, Instr.operands])
  | pushMemory x y value =>
    simp only [Instr.text, bind_eq_ok_iff, pure_eq_ok_iff] at hs
    obtain ⟨r, hr, rfl⟩ := hs
    rw [Instr.refs_eq rfl]
    exact (refers_varText x).close (by decide) |>.append (refers_varText y) |>.close (by decide)
      |>.append (refers_operand hr) |>.close (by decide)
      |>.of_eq (by
        simp [Instr.definitions, Instr.printed, Instr.operands, Operand.refs, Operand.var?])
  | popMemory x y =>
    simp only [Instr.text, Except.ok.injEq] at hs
    subst hs
    rw [Instr.refs_eq rfl]
    exact (refers_varText x).close (by decide) |>.append (refers_varText y) |>.close (by decide)
      |>.of_eq (by
        simp [Instr.definitions, Instr.printed, Instr.operands, Operand.refs, Operand.var?])
  | emitEvent event topics data =>
    simp only [Instr.text, bind_eq_ok_iff, pure_eq_ok_iff] at hs
    obtain ⟨ts, hts, d, hd, rfl⟩ := hs
    rw [Instr.refs_eq rfl]
    exact (Refers.word (by decide)).append (.plain (plain_intText event)) |>.close (by decide)
      |>.append (refers_operands hts) |>.close (by decide)
      |>.append (refers_operand hd) |>.close (by decide)
      |>.of_eq (by simp [Instr.definitions, Instr.printed, Instr.operands])
  | call xs callee args =>
    simp only [Instr.text, bind_eq_ok_iff, pure_eq_ok_iff] at hs
    obtain ⟨c, hc, r, hr, rfl⟩ := hs
    obtain ⟨ids, hids, hops⟩ := @refers_callee mark callee c hc xs args
    rw [Instr.refs_eq rfl, hops]
    exact (refers_results xs).append (.word (by decide)) |>.append hids |>.close (by decide)
      |>.append (refers_operands hr) |>.close (by decide) |>.of_eq (by simp [Instr.definitions])
  | valueTransfer x address value =>
    simp only [Instr.text, bind_eq_ok_iff, pure_eq_ok_iff] at hs
    obtain ⟨v, hv, a, ha, rfl⟩ := hs
    rw [Instr.refs_eq rfl]
    exact (refers_results x.toList).append (.word (by decide)) |>.append (refers_operand hv)
      |>.close (by decide) |>.append (refers_operand ha) |>.close (by decide)
      |>.of_eq (by simp [Instr.definitions, Instr.printed, Instr.operands])
  | terminate t =>
    refine (refers_terminator hs).of_eq ?_
    cases mark with
    | var => exact Operand.flatMap_refs_var t.operands
    | block => rfl
  | phi x inputs =>
    simp only [Instr.text, bind_eq_ok_iff, pure_eq_ok_iff, mapM_eq_ok_iff] at hs
    obtain ⟨rs, hrs, rfl⟩ := hs
    refine (refers_varText x).close (by decide)
      |>.append (refers_list hrs fun _ _ => refers_phiInput) |>.close (by decide) |>.of_eq ?_
    cases mark with
    | var =>
      rw [Instr.refs, ← Operand.flatMap_refs_var]
      simp [Instr.definitions, Instr.printed, Instr.operands, List.flatMap_map]
    | block => simp [Instr.refs, Instr.targets, List.map_eq_flatMap]
  | externalCall c =>
    simp only [Instr.text, ExternalCall.text, bind_eq_ok_iff, pure_eq_ok_iff] at hs
    obtain ⟨a, ha, p, hp, v, hv, g, hg, ac, hac, sd, hsd, fl, hfl, rfl⟩ := hs
    have htype : Plain ("[" ++ c.callType.text ++ "]") := by cases c.callType <;> decide
    have hslots : Refers mark Breaks _ _ := .intercalate (w := " ") (f := fun xs => xs) (by decide)
      (.cons (.plain htype)
      (.cons (refers_labelled (by decide) ha)
      (.cons ((Refers.word (w := "payload:") (by decide)).append (refers_operand hp))
      (.cons ((Refers.word (w := "value:") (by decide)).append (refers_operand hv))
      (.cons ((Refers.word (w := "gas:") (by decide)).append (refers_operand hg))
      (.cons (refers_labelled (by decide) hac)
      (.cons (refers_labelled (by decide) hsd)
      (.cons (.plain (plain_contractFunction c.contractFunction))
      (.cons (refers_labelled (by decide) hfl) .nil)))))))))
    rw [Instr.refs_eq rfl]
    exact (refers_results c.success.toList).append (.word (by decide)) |>.append hslots
      |>.close (by decide) |>.of_eq (by simp [Instr.definitions, Instr.printed, Instr.operands])
  | create c =>
    simp only [Instr.text, Creation.text, bind_eq_ok_iff, pure_eq_ok_iff] at hs
    obtain ⟨sa, hsa, v, hv, g, hg, a, ha, sd, hsd, r, hr, ac, hac, rfl⟩ := hs
    have hopening : Plain ("constructor(no: " ++ (c.constructorId.map intText).getD "_" ++
        ", contract_no:" ++ intText c.contractId ++ ")") :=
      plain_bracketed (plain_bracketed (by decide) (plain_optionalNumber _) (by decide))
        (plain_intText _) (by decide)
    have hslots : Refers mark Breaks _ _ := .intercalate (w := " ") (f := fun xs => xs) (by decide)
      (.cons (.plain hopening)
      (.cons (refers_labelled (by decide) hsa)
      (.cons (refers_labelled (by decide) hv)
      (.cons ((Refers.word (w := "gas:") (by decide)).append (refers_operand hg))
      (.cons (refers_labelled (by decide) ha)
      (.cons (refers_labelled (by decide) hsd)
      (.cons ((Refers.word (w := "encoded-buffer:") (by decide)).append (refers_operand hr))
      (.cons (refers_labelled (by decide) hac) .nil))))))))
    rw [Instr.refs_eq rfl]
    exact (refers_results (c.result :: c.success.toList)).append hslots |>.close (by decide)
      |>.of_eq (by simp [Instr.definitions, Instr.printed, Instr.operands])
  | unknown kind => cases hs

end Text

/-- The variables that are found in the text of an instruction are those that it defines and those
that its operands read, each as often as there; the blocks that are found in it are its targets, in
their order. -/
theorem Instr.names_text {i : Instr} {location : Location} {s : String}
    (hs : i.text location = .ok s) (hvars : ∀ x ∈ i.definitions ++ i.uses, IsFloat x)
    (hblocks : ∀ b ∈ i.targets, IsFloat b) :
    (∃ vars, vars.Perm (i.definitions ++ i.uses) ∧ ∀ xs, Names .var s xs ↔ xs = vars) ∧
      ∀ bs, Names .block s bs ↔ bs = i.targets := by
  have hprinted : ∀ x ∈ i.refs .var, IsFloat x := fun x hx =>
    hvars x (i.refs_var_perm.mem_iff.1 hx)
  have hvar : Names .var s (i.refs .var) := (refers_instr hs).names hprinted
  have hblock : Names .block s (i.refs .block) := (refers_instr hs).names hblocks
  refine ⟨⟨i.refs .var, i.refs_var_perm, fun xs => ⟨fun h => h.eq hvar, ?_⟩⟩,
    fun bs => ⟨fun h => h.eq hblock, ?_⟩⟩
  · rintro rfl
    exact hvar
  · rintro rfl
    exact hblock

/-- A switch with two ways to the same block and one to a block with a negative number. -/
def dispatch : Instr :=
  .terminate (.switch (.var 0) [(.var 7, 4), (.number (.uint 8) 3, -1)] 4)

theorem Instr.names_text_dispatch :
    let s := "switch %0 cases: [%7 => block#4, uint8(3) => block#-1] default: block#4;"
    dispatch.text {} = .ok s ∧
      (∃ vars, vars.Perm [0, 7] ∧ ∀ xs, Names .var s xs ↔ xs = vars) ∧
      ∀ bs, Names .block s bs ↔ bs = [4, -1, 4] := by
  intro s
  have htext : dispatch.text {} = .ok s := rfl
  have hsmall : ∀ n ∈ [0, 7, 4, -1], IsFloat n := by
    intro n hn
    have hle : ∀ n ∈ [(0 : Int), 7, 4, -1], n.natAbs ≤ 2 ^ 53 := by decide
    exact isFloat_of_le (hle n hn)
  exact ⟨htext, Instr.names_text htext
    (fun x hx => hsmall x (List.mem_of_mem_take (i := 2) hx))
    (fun b hb => hsmall b (by revert b; decide))⟩

/-- The sign of a remainder is no reference. -/
example : (Instr.set 2 (.binary .umod (.var 0) (.var 1))).text {} = .ok "%2 = %0 (u)% %1;" ∧
    references .var "%2 = %0 (u)% %1;".toList = [['2'], ['0'], ['1']] := ⟨rfl, by decide⟩

end ContractIR
