import ContractIR.Proofs.Text.Line

/-!
# ContractIR.Proofs.Text.Expr — the lines that set a variable to an expression

The text of an expression that can be printed fills the layout of its form (`exists_exprParts`), and
no two expressions fill a layout with the same parts (`ExprParts.inj`).
-/

namespace ContractIR

open Decimal

/-! ### Regular expressions -/

namespace Expr

/-- The numbers that stand in the expression itself. -/
def numbers : Expr → List Int
  | structMember _ member => [member]
  | functionArg index => [index]
  | internalFunction function => [function]
  | _ => []

/-- The types that stand in the expression itself. -/
def types : Expr → List Ty
  | literal (.number type _) | bytes type _ | array type _ | constArray type _ | cast _ type
  | bytesCast _ type | widthChange _ _ type | allocDynamicBytes type _ _ => [type]
  | _ => []

/-- Operands and types are regular, and numbers are whole floats. -/
structure Regular (e : Expr) : Prop where
  operands : ∀ o ∈ e.operands, o.Regular
  numbers : ∀ n ∈ e.numbers, IsFloat n
  types : ∀ t ∈ e.types, t.Regular

end Expr

namespace Text

/-! ### Expressions as lines -/

/-- The head, the form and the parts of an expression. -/
inductive ExprParts : Expr → Option Head → ExprForm → List Field → Prop
  | unary {op : UnaryOp} {o : Operand} :
      ExprParts (.unary op o) none (.unary op) [⟨.operand, o⟩]
  | constArray {t : Ty} {os : List Operand} :
      ExprParts (.constArray t os) none .constArray [⟨.type, t⟩, ⟨.operands, os⟩]
  | struct {os : List Operand} : ExprParts (.struct os) none .struct [⟨.operands, os⟩]
  | getRef {o : Operand} : ExprParts (.getRef o) none .getRef [⟨.operand, o⟩]
  | load {o : Operand} : ExprParts (.load o) none .load [⟨.operand, o⟩]
  | advancePointer {p o : Operand} :
      ExprParts (.advancePointer p o) none .advancePointer [⟨.operand, p⟩, ⟨.operand, o⟩]
  | cast {o : Operand} {t : Ty} :
      ExprParts (.cast o t) none .cast [⟨.operand, o⟩, ⟨.type, t⟩]
  | bytesCast {o : Operand} {t : Ty} :
      ExprParts (.bytesCast o t) none .bytesCast [⟨.operand, o⟩, ⟨.type, t⟩]
  | widthChange {change : WidthChange} {o : Operand} {t : Ty} :
      ExprParts (.widthChange change o t) none (.widthChange change) [⟨.operand, o⟩, ⟨.type, t⟩]
  | allocDynamicBytes {t : Ty} {o : Operand} {contents : Option Bytes} :
      ExprParts (.allocDynamicBytes (.ptr t) o contents) none .allocDynamicBytes
        [⟨.buffer, (t, o)⟩, ⟨.contents, contents⟩]
  | keccak256 {os : List Operand} : ExprParts (.keccak256 os) none .keccak256 [⟨.operands, os⟩]
  | stringCompare {a b : StringSource} :
      ExprParts (.stringCompare a b) none .stringCompare [⟨.source, a⟩, ⟨.source, b⟩]
  | stringConcat {a b : StringSource} :
      ExprParts (.stringConcat a b) none .stringConcat [⟨.source, a⟩, ⟨.source, b⟩]
  | storageArrayLength {o : Operand} :
      ExprParts (.storageArrayLength o) none .storageArrayLength [⟨.operand, o⟩]
  | formatString {args : List (FormatSpec × Operand)} :
      ExprParts (.formatString args) none .formatString [⟨.formatArgs, args⟩]
  | functionArg {n : Int} : ExprParts (.functionArg n) none .functionArg [⟨.number, n⟩]
  | internalFunction {n : FuncId} :
      ExprParts (.internalFunction n) none .internalFunction [⟨.number, n⟩]
  | returnData : ExprParts .returnData none .returnData []
  | binary {op : BinaryOp} {o o' : Operand} :
      ExprParts (.binary op o o') (some (.operand o)) (.binary op) [⟨.operand, o'⟩]
  | literal {l : Literal} : ExprParts (.literal l) (some (.operand (.literal l))) .value []
  | var {x : VarId} : ExprParts (.var x) (some (.operand (.var x))) .value []
  | structMember {o : Operand} {n : Int} :
      ExprParts (.structMember o n) (some (.operand o)) .structMember [⟨.number, n⟩]
  | subscript {o o' : Operand} :
      ExprParts (.subscript o o') (some (.operand o)) .subscript [⟨.operand, o'⟩]
  | bytes {t : Ty} {bs : Bytes} : ExprParts (.bytes t bs) (some (.type t)) .bytes [⟨.hexBytes, bs⟩]
  | array {t : Ty} {os : List Operand} :
      ExprParts (.array t os) (some (.type t)) .array [⟨.operands, os⟩]

/-- The parts tell the expression. -/
theorem ExprParts.inj {a b : Expr} {head : Option Head} {form : ExprForm} {fields : List Field}
    (ha : ExprParts a head form fields) (hb : ExprParts b head form fields) : a = b := by
  cases ha <;> cases hb <;> rfl

/-- Head, form and parts have the text `s`. -/
structure ExprWritten (head : Option Head) (form : ExprForm) (fields : List Field)
    (s : List Char) : Prop where
  mem_all : form ∈ ExprForm.all
  head_eq : form.head? = head.map Head.kind
  text : ∃ h b, HeadText head h ∧ Fills form.layout.holes fields b ∧
    s = h ++ (form.layout.opening.toList ++ b)

theorem operandsText_of_text {os : List Operand} {s : String} (h : ∀ o ∈ os, o.Regular)
    (hs : Operand.listText os = .ok s) : Joined ", ".toList OperandText os s.toList := by
  simp only [Operand.listText, bind_eq_ok_iff, pure_eq_ok_iff, mapM_eq_ok_iff] at hs
  obtain ⟨ss, hss, rfl⟩ := hs
  exact joined_of_forall₂ hss (fun o ho s hs => operandText_of_text (h o ho) hs) ", "

end Text

namespace Expr.Regular

open Text

variable {e : Expr} (h : e.Regular)

include h

theorem operandText {o : Operand} {s : String} (ho : o ∈ e.operands) (hs : o.text = .ok s) :
    OperandText o s.toList :=
  operandText_of_text (h.operands o ho) hs

theorem operandsText {os : List Operand} {s : String} (hos : os ⊆ e.operands)
    (hs : Operand.listText os = .ok s) : Joined ", ".toList OperandText os s.toList :=
  operandsText_of_text (fun o ho => h.operands o (hos ho)) hs

theorem tyText {t : Ty} {s : String} (ht : t ∈ e.types) (hs : t.text = .ok s) :
    TyText t s.toList :=
  ⟨h.types t ht, s, hs, rfl⟩

end Expr.Regular

namespace Text

theorem ExprForm.unary_mem_all {op : UnaryOp} {s : String} (h : op.text = .ok s) :
    unary op ∈ all := by
  cases op with
  | neg overflowing => cases overflowing <;> decide
  | unknown kind => cases h
  | _ => decide

theorem ExprForm.binary_mem_all {op : BinaryOp} {s : String} (h : op.text = .ok s) :
    binary op ∈ all := by
  cases op with
  | add overflowing | sub overflowing | mul overflowing | pow overflowing =>
    cases overflowing <;> decide
  | unknown kind => cases h
  | _ => decide

theorem joined_map {α : Type} {P : α → List Char → Prop} {f : α → String} {as : List α}
    (hf : ∀ a ∈ as, P a (f a).toList) (sep : String) :
    Joined sep.toList P as (sep.intercalate (as.map f)).toList := by
  refine ⟨as.map fun a => (f a).toList, ?_, by simp [Function.comp_def]⟩
  rwa [List.forall₂_map_right_iff, List.forall₂_same]

theorem sourceText_of_text {e : Expr} (h : e.Regular) {source : StringSource} {s : String}
    (ho : ∀ o ∈ source.operand?, o ∈ e.operands) (hs : source.text = .ok s) :
    SourceText source s.toList := by
  cases source with
  | compileTime bs =>
    simp only [StringSource.text, Except.ok.injEq] at hs
    subst hs
    simpa using SourceText.compileTime (joined_map (f := toString) (fun _ _ => rfl) ", ")
  | runTime o => exact .runTime (h.operandText (ho o rfl) hs)
  | unknown kind => cases hs

theorem formatArgText_of_text {arg : FormatSpec × Operand} {s : String} (h : arg.2.Regular)
    (hs : Expr.formatArgText arg = .ok s) : FormatArgText arg s.toList := by
  obtain ⟨spec, o⟩ := arg
  simp only [Expr.formatArgText, bind_eq_ok_iff] at hs
  obtain ⟨r, hr, hs⟩ := hs
  have ho := operandText_of_text h hr
  cases spec with
  | default =>
    simp only [FormatSpec.apply, Except.ok.injEq] at hs
    subst hs
    exact .default ho
  | binary =>
    simp only [FormatSpec.apply, Except.ok.injEq] at hs
    subst hs
    simpa using FormatArgText.binary ho
  | hex =>
    simp only [FormatSpec.apply, Except.ok.injEq] at hs
    subst hs
    simpa using FormatArgText.hex ho
  | unknown name => cases hs

/-- A buffer can be printed only if its type is a pointer. -/
theorem exists_ptr_of_allocText {location : Location} {type : Ty} {size : Operand}
    {contents : Option Bytes} {s : String}
    (hs : Expr.allocText location type size contents = .ok s) : ∃ t, type = .ptr t := by
  unfold Expr.allocText at hs
  split at hs
  · exact ⟨_, rfl⟩
  · simp [bind_eq_ok_iff, throw, throwThe, MonadExceptOf.throw] at hs

/-- The text of an expression fills the layout of its form. -/
theorem exists_exprParts {e : Expr} {location : Location} {s : String} (h : e.Regular)
    (hs : e.text location = .ok s) :
    ∃ head form fields, ExprParts e head form fields ∧
      ExprWritten head form fields (s.toList ++ [';']) := by
  cases e with
  | binary op left right =>
    simp only [Expr.text, bind_eq_ok_iff, pure_eq_ok_iff] at hs
    obtain ⟨l, hl, o, ho, r, hr, rfl⟩ := hs
    refine ⟨_, _, _, .binary, ExprForm.binary_mem_all ho, rfl, _, _,
      .operand (h.operandText (by simp [Expr.operands]) hl),
      .cons (h.operandText (by simp [Expr.operands]) hr) .nil, ?_⟩
    simp [ExprForm.layout, ho, Except.toOption]
  | unary op operand =>
    simp only [Expr.text, bind_eq_ok_iff, pure_eq_ok_iff] at hs
    obtain ⟨o, ho, r, hr, rfl⟩ := hs
    refine ⟨_, _, _, .unary, ExprForm.unary_mem_all ho, rfl, _, _, .none,
      .cons (h.operandText (by simp [Expr.operands]) hr) .nil, ?_⟩
    simp [ExprForm.layout, ho, Except.toOption]
  | literal value =>
    have hvalue : (Operand.literal value).Regular := by
      cases value with
      | number t n => exact h.types t (by simp [Expr.types])
      | bool b => trivial
    exact ⟨_, _, _, .literal, by decide, rfl, _, _, .operand (operandText_of_text hvalue hs), .nil,
      by simp [ExprForm.layout]⟩
  | var id =>
    exact ⟨_, _, _, .var, by decide, rfl, _, _,
      .operand (h.operandText (by simp [Expr.operands]) hs), .nil, by simp [ExprForm.layout]⟩
  | bytes type value =>
    simp only [Expr.text, bind_eq_ok_iff, pure_eq_ok_iff] at hs
    obtain ⟨t, ht, rfl⟩ := hs
    refine ⟨_, _, _, .bytes, by decide, rfl, _, _, .type (h.tyText (by simp [Expr.types]) ht),
      .cons (joined_map (fun _ _ => rfl) "_") .nil, ?_⟩
    simp [ExprForm.layout]
  | array type values =>
    simp only [Expr.text, bind_eq_ok_iff, pure_eq_ok_iff] at hs
    obtain ⟨t, ht, r, hr, rfl⟩ := hs
    refine ⟨_, _, _, .array, by decide, rfl, _, _, .type (h.tyText (by simp [Expr.types]) ht),
      .cons (h.operandsText (by simp [Expr.operands]) hr) .nil, ?_⟩
    simp [ExprForm.layout]
  | constArray type values =>
    simp only [Expr.text, bind_eq_ok_iff, pure_eq_ok_iff] at hs
    obtain ⟨t, ht, r, hr, rfl⟩ := hs
    refine ⟨_, _, _, .constArray, by decide, rfl, _, _, .none,
      .cons (h.tyText (by simp [Expr.types]) ht)
        (.cons (h.operandsText (by simp [Expr.operands]) hr) .nil), ?_⟩
    simp [ExprForm.layout]
  | struct values =>
    simp only [Expr.text, bind_eq_ok_iff, pure_eq_ok_iff] at hs
    obtain ⟨r, hr, rfl⟩ := hs
    refine ⟨_, _, _, .struct, by decide, rfl, _, _, .none,
      .cons (h.operandsText (by simp [Expr.operands]) hr) .nil, ?_⟩
    simp [ExprForm.layout]
  | getRef operand =>
    simp only [Expr.text, bind_eq_ok_iff, pure_eq_ok_iff] at hs
    obtain ⟨r, hr, rfl⟩ := hs
    refine ⟨_, _, _, .getRef, by decide, rfl, _, _, .none,
      .cons (h.operandText (by simp [Expr.operands]) hr) .nil, ?_⟩
    simp [ExprForm.layout]
  | load operand =>
    simp only [Expr.text, bind_eq_ok_iff, pure_eq_ok_iff] at hs
    obtain ⟨r, hr, rfl⟩ := hs
    refine ⟨_, _, _, .load, by decide, rfl, _, _, .none,
      .cons (h.operandText (by simp [Expr.operands]) hr) .nil, ?_⟩
    simp [ExprForm.layout]
  | storageArrayLength operand =>
    simp only [Expr.text, bind_eq_ok_iff, pure_eq_ok_iff] at hs
    obtain ⟨r, hr, rfl⟩ := hs
    refine ⟨_, _, _, .storageArrayLength, by decide, rfl, _, _, .none,
      .cons (h.operandText (by simp [Expr.operands]) hr) .nil, ?_⟩
    simp [ExprForm.layout]
  | structMember operand member =>
    simp only [Expr.text, bind_eq_ok_iff, pure_eq_ok_iff] at hs
    obtain ⟨r, hr, rfl⟩ := hs
    refine ⟨_, _, _, .structMember, by decide, rfl, _, _,
      .operand (h.operandText (by simp [Expr.operands]) hr),
      .cons ⟨h.numbers member (by simp [Expr.numbers]), rfl⟩ .nil, ?_⟩
    simp [ExprForm.layout]
  | subscript base index =>
    simp only [Expr.text, bind_eq_ok_iff, pure_eq_ok_iff] at hs
    obtain ⟨r, hr, i, hi, rfl⟩ := hs
    refine ⟨_, _, _, .subscript, by decide, rfl, _, _,
      .operand (h.operandText (by simp [Expr.operands]) hr),
      .cons (h.operandText (by simp [Expr.operands]) hi) .nil, ?_⟩
    simp [ExprForm.layout]
  | advancePointer pointer offset =>
    simp only [Expr.text, bind_eq_ok_iff, pure_eq_ok_iff] at hs
    obtain ⟨p, hp, o, ho, rfl⟩ := hs
    refine ⟨_, _, _, .advancePointer, by decide, rfl, _, _, .none,
      .cons (h.operandText (by simp [Expr.operands]) hp)
        (.cons (h.operandText (by simp [Expr.operands]) ho) .nil), ?_⟩
    simp [ExprForm.layout]
  | cast operand type =>
    simp only [Expr.text, bind_eq_ok_iff, pure_eq_ok_iff] at hs
    obtain ⟨r, hr, t, ht, rfl⟩ := hs
    refine ⟨_, _, _, .cast, by decide, rfl, _, _, .none,
      .cons (h.operandText (by simp [Expr.operands]) hr)
        (.cons (h.tyText (by simp [Expr.types]) ht) .nil), ?_⟩
    simp [ExprForm.layout]
  | bytesCast operand type =>
    simp only [Expr.text, bind_eq_ok_iff, pure_eq_ok_iff] at hs
    obtain ⟨r, hr, t, ht, rfl⟩ := hs
    refine ⟨_, _, _, .bytesCast, by decide, rfl, _, _, .none,
      .cons (h.operandText (by simp [Expr.operands]) hr)
        (.cons (h.tyText (by simp [Expr.types]) ht) .nil), ?_⟩
    simp [ExprForm.layout]
  | widthChange change operand type =>
    simp only [Expr.text, bind_eq_ok_iff, pure_eq_ok_iff] at hs
    obtain ⟨r, hr, t, ht, rfl⟩ := hs
    refine ⟨_, _, _, .widthChange, by cases change <;> decide, rfl, _, _, .none,
      .cons (h.operandText (by simp [Expr.operands]) hr)
        (.cons (h.tyText (by simp [Expr.types]) ht) .nil), ?_⟩
    simp [ExprForm.layout]
  | keccak256 args =>
    simp only [Expr.text, bind_eq_ok_iff, pure_eq_ok_iff] at hs
    obtain ⟨r, hr, rfl⟩ := hs
    refine ⟨_, _, _, .keccak256, by decide, rfl, _, _, .none,
      .cons (h.operandsText (by simp [Expr.operands]) hr) .nil, ?_⟩
    simp [ExprForm.layout]
  | stringCompare left right =>
    simp only [Expr.text, bind_eq_ok_iff, pure_eq_ok_iff] at hs
    obtain ⟨l, hl, r, hr, rfl⟩ := hs
    refine ⟨_, _, _, .stringCompare, by decide, rfl, _, _, .none,
      .cons (sourceText_of_text h (by simp_all [Expr.operands]) hl)
        (.cons (sourceText_of_text h (by simp_all [Expr.operands]) hr) .nil), ?_⟩
    simp [ExprForm.layout]
  | stringConcat left right =>
    simp only [Expr.text, bind_eq_ok_iff, pure_eq_ok_iff] at hs
    obtain ⟨l, hl, r, hr, rfl⟩ := hs
    refine ⟨_, _, _, .stringConcat, by decide, rfl, _, _, .none,
      .cons (sourceText_of_text h (by simp_all [Expr.operands]) hl)
        (.cons (sourceText_of_text h (by simp_all [Expr.operands]) hr) .nil), ?_⟩
    simp [ExprForm.layout]
  | formatString args =>
    simp only [Expr.text, bind_eq_ok_iff, pure_eq_ok_iff, mapM_eq_ok_iff] at hs
    obtain ⟨rs, hrs, rfl⟩ := hs
    have hargs : ∀ arg ∈ args, ∀ s, Expr.formatArgText arg = .ok s → FormatArgText arg s.toList :=
      fun arg harg s hs => formatArgText_of_text
        (h.operands arg.2 (List.mem_map_of_mem harg)) hs
    refine ⟨_, _, _, .formatString, by decide, rfl, _, _, .none,
      .cons (joined_of_forall₂ hrs hargs ", ") .nil, ?_⟩
    simp [ExprForm.layout]
  | functionArg index =>
    simp only [Expr.text, Except.ok.injEq] at hs
    subst hs
    refine ⟨_, _, _, .functionArg, by decide, rfl, _, _, .none,
      .cons ⟨h.numbers index (by simp [Expr.numbers]), rfl⟩ .nil, ?_⟩
    simp [ExprForm.layout]
  | internalFunction function =>
    simp only [Expr.text, Except.ok.injEq] at hs
    subst hs
    refine ⟨_, _, _, .internalFunction, by decide, rfl, _, _, .none,
      .cons ⟨h.numbers function (by simp [Expr.numbers]), rfl⟩ .nil, ?_⟩
    simp [ExprForm.layout, funcText]
  | returnData =>
    simp only [Expr.text, Except.ok.injEq] at hs
    subst hs
    exact ⟨_, _, _, .returnData, by decide, rfl, _, _, .none, .nil, by simp [ExprForm.layout]⟩
  | allocDynamicBytes type size contents =>
    obtain ⟨t, rfl⟩ := exists_ptr_of_allocText hs
    have ht : t.Regular := by
      cases h.types (.ptr t) (by simp [Expr.types]) with
      | ptr ht => exact ht
    simp only [Expr.text, Expr.allocText, bind_eq_ok_iff] at hs
    obtain ⟨r, hr, n, hn, hs⟩ := hs
    have hbuffer := BufferText.mk ⟨ht, r, hr, rfl⟩ (h.operandText (by simp [Expr.operands]) hn)
    cases contents with
    | none =>
      simp only [pure_eq_ok_iff] at hs
      subst hs
      refine ⟨_, _, _, .allocDynamicBytes, by decide, rfl, _, _, .none,
        .cons hbuffer (.cons .none .nil), ?_⟩
      simp [ExprForm.layout]
    | some bs =>
      simp only [pure_eq_ok_iff] at hs
      subst hs
      refine ⟨_, _, _, .allocDynamicBytes, by decide, rfl, _, _, .none,
        .cons hbuffer (.cons (.some (joined_map (fun _ _ => rfl) ", ")) .nil), ?_⟩
      simp [ExprForm.layout]
  | unknown kind => cases hs

end Text

end ContractIR
