import ContractIR.Func
import ContractIR.Proofs.Text.Operands

/-!
# ContractIR.Proofs.Text.Printable — which nodes have a text, and that it is one line

A node that is built from known kinds has a text, with one exception: a buffer whose type is no
pointer (`Instr.misallocates`).  Every text is a single line that is not empty.  Both are shown in
one pass over the printer, with the rules of `Gives`.

* `Text.gives_expr`, `Text.gives_instr`: when there is a text, and that it is one line.
* `Instr.text_of_misallocates`: the failure of the exception.
* `Instr.text_eq_ok_of_location`: a text does not depend on the location.
-/

namespace ContractIR

open Decimal Text

/-! ### Known kinds -/

/-- The type of the literal, if it has one, is of a known kind. -/
def Literal.isKnown : Literal → Bool
  | number type _ => type.isKnown
  | bool _ => true

/-- The operand is a variable or a literal of a known type. -/
def Operand.isKnown : Operand → Bool
  | var _ => true
  | literal value => value.isKnown
  | unknown _ => false

/-- The source is of a known kind; its operand is not looked at. -/
def StringSource.isKnown : StringSource → Bool
  | unknown _ => false
  | _ => true

/-- The operator is of a known kind. -/
def BinaryOp.isKnown : BinaryOp → Bool
  | unknown _ => false
  | _ => true

/-- The operator is of a known kind. -/
def UnaryOp.isKnown : UnaryOp → Bool
  | unknown _ => false
  | _ => true

/-- The format is a known one. -/
def FormatSpec.isKnown : FormatSpec → Bool
  | unknown _ => false
  | _ => true

/-- The target is of a known kind; its operand is not looked at. -/
def CallTarget.isKnown : CallTarget → Bool
  | unknown _ => false
  | _ => true

namespace Expr

/-- The expression and what it holds beside its operands are of known kinds. -/
def hasKnownForm : Expr → Bool
  | binary op _ _ => op.isKnown
  | unary op _ => op.isKnown
  | literal value => value.isKnown
  | bytes type _ | array type _ | constArray type _ | cast _ type | bytesCast _ type
  | widthChange _ _ type | allocDynamicBytes type _ _ => type.isKnown
  | stringCompare left right | stringConcat left right => left.isKnown && right.isKnown
  | formatString args => args.all fun arg => arg.1.isKnown
  | unknown _ => false
  | _ => true

/-- The expression is a new buffer whose type is no pointer. -/
def misallocates : Expr → Bool
  | allocDynamicBytes (.ptr _) _ _ => false
  | allocDynamicBytes _ _ _ => true
  | _ => false

end Expr

namespace Instr

/-- The instruction and what it holds beside its operands are of known kinds. -/
def hasKnownForm : Instr → Bool
  | set _ expr => expr.hasKnownForm
  | call _ callee _ => callee.isKnown
  | unknown _ => false
  | _ => true

/-- The instruction and all that it is built from are of known kinds. -/
def isKnown (i : Instr) : Bool := i.hasKnownForm && i.operands.all Operand.isKnown

/-- The instruction sets a variable to a new buffer whose type is no pointer. -/
def misallocates : Instr → Bool
  | set _ expr => expr.misallocates
  | _ => false

end Instr

/-- All instructions are built from known kinds. -/
def Block.isKnown (b : Block) : Bool := b.instructions.all Instr.isKnown

/-- All types and blocks are built from known kinds. -/
def Func.isKnown (f : Func) : Bool :=
  Ty.allKnown f.params && Ty.allKnown f.returns && f.table.vars.all (·.type.isKnown) &&
    f.blocks.values.all Block.isKnown

namespace Text

/-! ### Single lines -/

/-- No line ends within the text. -/
def OneLine (s : String) : Prop := '\n' ∉ s.toList

instance (s : String) : Decidable (OneLine s) := inferInstanceAs (Decidable ('\n' ∉ s.toList))

@[simp] theorem oneLine_append {s t : String} : OneLine (s ++ t) ↔ OneLine s ∧ OneLine t := by
  simp [OneLine]

theorem Plain.oneLine {s : String} (h : Plain s) : OneLine s := by
  intro hmem
  cases h _ hmem

theorem oneLine_intercalate {w : String} {ss : List String} (hw : OneLine w)
    (h : ∀ s ∈ ss, OneLine s) : OneLine (w.intercalate ss) := by
  have hchars : ∀ c ∈ (w.intercalate ss).toList, c ≠ '\n' := by
    rw [String.toList_intercalate]
    exact forall_mem_intercalate (fun c hc => ne_of_mem_of_not_mem hc hw)
      (List.forall_mem_map.2 fun s hs c hc => ne_of_mem_of_not_mem hc (h s hs))
  exact fun hmem => hchars _ hmem rfl

@[simp] theorem oneLine_intText (n : Int) : OneLine (intText n) := (plain_intText n).oneLine

@[simp] theorem oneLine_varText (x : VarId) : OneLine (varText x) := by simp +decide [varText]

@[simp] theorem oneLine_blockText (b : BlockId) : OneLine (blockText b) := by
  simp +decide [blockText]

@[simp] theorem oneLine_funcText (f : FuncId) : OneLine (funcText f) := by simp +decide [funcText]

@[simp] theorem oneLine_resultsText (xs : List VarId) : OneLine (resultsText xs) := by
  unfold resultsText
  split
  · decide
  · refine oneLine_append.2 ⟨oneLine_intercalate (by decide) fun s hs => ?_, by decide⟩
    obtain ⟨x, -, rfl⟩ := List.mem_map.1 hs
    exact oneLine_varText x

/-! ### Parts -/

theorem gives_ty (t : Ty) : Gives (t.isKnown = true) OneLine t.text :=
  ⟨t.exists_text, fun _ hs => (plain_ty t hs).oneLine⟩

theorem gives_tys (ts : List Ty) :
    Gives (Ty.allKnown ts = true) (fun ss => ∀ s ∈ ss, OneLine s) (Ty.texts ts) :=
  ⟨Ty.exists_texts ts, fun _ hss s hs => (plain_tys ts hss s hs).oneLine⟩

theorem gives_literal (l : Literal) : Gives (l.isKnown = true) OneLine l.text := by
  refine ⟨fun h => ?_, fun _ hs => (plain_literal hs).oneLine⟩
  cases l with
  | number type value =>
    obtain ⟨t, ht⟩ := type.exists_text h
    exact ⟨_, by rw [Literal.text, ht]; rfl⟩
  | bool value => exact ⟨_, rfl⟩

theorem gives_operand (o : Operand) : Gives (o.isKnown = true) OneLine o.text := by
  cases o with
  | var x => exact .ok (oneLine_varText x)
  | literal l => exact gives_literal l
  | unknown kind => exact .error (by simp [Operand.isKnown])

theorem gives_binaryOp (op : BinaryOp) : Gives (op.isKnown = true) OneLine op.text := by
  cases op with
  | add overflowing | sub overflowing | mul overflowing | pow overflowing =>
    exact .ok (by cases overflowing <;> decide)
  | unknown kind => exact .error (by simp [BinaryOp.isKnown])
  | _ => exact .ok (by decide)

theorem gives_unaryOp (op : UnaryOp) : Gives (op.isKnown = true) OneLine op.text := by
  cases op with
  | neg overflowing => exact .ok (by cases overflowing <;> decide)
  | unknown kind => exact .error (by simp [UnaryOp.isKnown])
  | _ => exact .ok (by decide)

theorem gives_formatSpec (spec : FormatSpec) {s : String} (hs : OneLine s) :
    Gives (spec.isKnown = true) OneLine (spec.apply s) := by
  cases spec with
  | default => exact .ok hs
  | binary | hex => exact .ok (by simp +decide [hs])
  | unknown name => exact .error (by simp [FormatSpec.isKnown])

section Parts

/-! What is put together from operands has a text under the condition `K` if the operands do. -/

variable {K : Prop}

theorem gives_list {α : Type} {f : α → Except Diagnostic String} {as : List α}
    (h : ∀ a ∈ as, Gives K OneLine (f a)) :
    Gives K (fun ss => OneLine (", ".intercalate ss)) (as.mapM f) :=
  (Gives.mapM h).imp fun _ hss => oneLine_intercalate (by decide) hss

theorem gives_operands {os : List Operand} (ho : ∀ o ∈ os, Gives K OneLine o.text) :
    Gives K OneLine (Operand.listText os) :=
  (gives_list ho).bind fun _ hs => .ok hs

theorem gives_source {source : StringSource} (hform : K → source.isKnown = true)
    (ho : ∀ o ∈ source.operand?.toList, Gives K OneLine o.text) : Gives K OneLine source.text := by
  cases source with
  | compileTime bs =>
    refine .ok (Plain.oneLine (plain_bracketed (by decide) (plain_intercalate (by decide) ?_)
      (by decide)))
    intro s hs
    obtain ⟨b, -, rfl⟩ := List.mem_map.1 hs
    exact plain_byte b
  | runTime o => exact ho o (by simp [StringSource.operand?])
  | unknown kind => exact .error fun hk => by cases hform hk

theorem gives_formatArg {arg : FormatSpec × Operand} (hform : K → arg.1.isKnown = true)
    (ho : Gives K OneLine arg.2.text) : Gives K OneLine (Expr.formatArgText arg) :=
  ho.bind fun _ hs => (gives_formatSpec arg.1 hs).mono hform

theorem gives_callee {callee : CallTarget} (hform : K → callee.isKnown = true)
    {xs : List VarId} {args : List Operand}
    (ho : ∀ o ∈ (Instr.call xs callee args).operands, Gives K OneLine o.text) :
    Gives K OneLine callee.text ∧ ∀ o ∈ args, Gives K OneLine o.text := by
  cases callee with
  | static n => exact ⟨.ok (by simp), ho⟩
  | builtin n => exact ⟨.ok (by simp +decide), ho⟩
  | dynamic o => exact List.forall_mem_cons.1 ho
  | unknown kind => exact ⟨.error (fun hk => by cases hform hk), ho⟩

theorem gives_optional {o : Option Operand} (ho : ∀ x ∈ o.toList, Gives K OneLine x.text) :
    Gives K OneLine (optionalText o) := by
  cases o with
  | none => exact .ok (by decide)
  | some o => exact ho o (by simp)

theorem gives_labelled {label : String} (hlabel : OneLine label) {o : Option Operand}
    (ho : ∀ x ∈ o.toList, Gives K OneLine x.text) : Gives K OneLine (labelledText label o) := by
  cases o with
  | none => exact .ok (by decide)
  | some o => exact (ho o (by simp)).bind fun s hs => .ok (by simp +decide [hlabel, hs])

/-! ### Expressions -/

/-- An expression of known kinds has a text, unless it is a buffer whose type is no pointer. -/
theorem gives_expr {e : Expr} (location : Location) (hform : K → e.hasKnownForm = true)
    (halloc : K → e.misallocates = false) (ho : ∀ o ∈ e.operands, Gives K OneLine o.text) :
    Gives K OneLine (e.text location) := by
  cases e with
  | binary op left right =>
    refine (ho left (by simp [Expr.operands])).bind fun l hl => ?_
    refine ((gives_binaryOp op).mono hform).bind fun o hop => ?_
    refine (ho right (by simp [Expr.operands])).bind fun r hr => .ok ?_
    simp +decide [hl, hop, hr]
  | unary op operand =>
    refine ((gives_unaryOp op).mono hform).bind fun o hop => ?_
    refine (ho operand (by simp [Expr.operands])).bind fun s hs => .ok ?_
    simp [hop, hs]
  | literal value => exact (gives_literal value).mono hform
  | bytes type value =>
    refine ((gives_ty type).mono hform).bind fun t ht => .ok ?_
    have hbytes : OneLine ("_".intercalate (value.map Bytes.hexByte)) :=
      (plain_hexBytes (by decide) value).oneLine
    simp +decide [ht, hbytes]
  | array type values | constArray type values =>
    refine ((gives_ty type).mono hform).bind fun t ht => ?_
    refine (gives_operands ho).bind fun s hs => .ok ?_
    simp +decide [ht, hs]
  | struct values | keccak256 values =>
    refine (gives_operands ho).bind fun s hs => .ok ?_
    simp +decide [hs]
  | var x => exact .ok (oneLine_varText x)
  | getRef o | load o | structMember o _ | storageArrayLength o =>
    refine (ho o (by simp [Expr.operands])).bind fun s hs => .ok ?_
    simp +decide [hs]
  | subscript a b | advancePointer a b =>
    refine (ho a (by simp [Expr.operands])).bind fun s hs => ?_
    refine (ho b (by simp [Expr.operands])).bind fun r hr => .ok ?_
    simp +decide [hs, hr]
  | cast operand type | bytesCast operand type =>
    refine (ho operand (by simp [Expr.operands])).bind fun s hs => ?_
    refine ((gives_ty type).mono hform).bind fun t ht => .ok ?_
    simp +decide [hs, ht]
  | widthChange change operand type =>
    refine (ho operand (by simp [Expr.operands])).bind fun s hs => ?_
    refine ((gives_ty type).mono hform).bind fun t ht => .ok ?_
    have hchange : OneLine change.text := by cases change <;> decide
    simp +decide [hchange, hs, ht]
  | allocDynamicBytes type size contents =>
    cases type with
    | ptr pointee =>
      refine ((gives_ty pointee).mono hform).bind fun t ht => ?_
      refine (ho size (by simp [Expr.operands])).bind fun s hs => ?_
      cases contents with
      | none => exact .ok (by simp +decide [ht, hs])
      | some bs =>
        have hbytes : OneLine (", ".intercalate (bs.map Bytes.hexByte)) :=
          (plain_hexBytes (by decide) bs).oneLine
        exact .ok (by simp +decide [ht, hs, hbytes])
    | _ => exact ((gives_ty _).mono hform).bind fun t _ => .error fun hk => by cases halloc hk
  | stringCompare left right | stringConcat left right =>
    have hforms : K → left.isKnown = true ∧ right.isKnown = true :=
      fun hk => Bool.and_eq_true_iff.1 (hform hk)
    obtain ⟨hleft, hright⟩ := List.forall_mem_append.1 ho
    refine (gives_source (fun hk => (hforms hk).1) hleft).bind fun l hl => ?_
    refine (gives_source (fun hk => (hforms hk).2) hright).bind fun r hr => .ok ?_
    simp +decide [hl, hr]
  | formatString args =>
    have hargs : ∀ arg ∈ args, Gives K OneLine (Expr.formatArgText arg) := by
      intro arg harg
      exact gives_formatArg (fun hk => List.all_eq_true.1 (hform hk) arg harg)
        (ho arg.2 (List.mem_map_of_mem harg))
    refine (gives_list hargs).bind fun ss hss => .ok ?_
    simp +decide [hss]
  | functionArg index => exact .ok (by simp +decide)
  | internalFunction function => exact .ok (oneLine_funcText function)
  | returnData => exact .ok (by decide)
  | unknown kind => exact .error fun hk => by cases hform hk

/-! ### Instructions -/

/-- A single line that is not empty. -/
def IsLine (s : String) : Prop := OneLine s ∧ s ≠ ""

theorem isLine_slots {opening : String} {slots : List String} (hopening : OneLine opening)
    (h : ∀ s ∈ slots, OneLine s) : IsLine (opening ++ " ".intercalate slots ++ ";") := by
  have hslots : OneLine (" ".intercalate slots) := oneLine_intercalate (by decide) h
  simp +decide [IsLine, hopening, hslots]

theorem gives_externalCall {c : ExternalCall}
    (ho : ∀ o ∈ (Instr.externalCall c).operands, Gives K OneLine o.text) :
    Gives K IsLine c.text := by
  simp only [Instr.operands, List.forall_mem_append, List.forall_mem_cons] at ho
  obtain ⟨⟨⟨⟨haddress, hpayload, hvalue, hgas, -⟩, haccounts⟩, hseeds⟩, hflags⟩ := ho
  refine (gives_labelled (by decide) haddress).bind fun address haddress => ?_
  refine hpayload.bind fun payload hpayload => ?_
  refine hvalue.bind fun value hvalue => ?_
  refine hgas.bind fun gas hgas => ?_
  refine (gives_labelled (by decide) haccounts).bind fun accounts haccounts => ?_
  refine (gives_labelled (by decide) hseeds).bind fun seeds hseeds => ?_
  refine (gives_labelled (by decide) hflags).bind fun flags hflags => .ok ?_
  have htype : OneLine c.callType.text := by cases c.callType <;> decide
  have hfunction := (plain_contractFunction c.contractFunction).oneLine
  refine isLine_slots (by simp +decide) ?_
  simp +decide [htype, haddress, hpayload, hvalue, hgas, haccounts, hseeds, hfunction, hflags]

theorem gives_creation {c : Creation}
    (ho : ∀ o ∈ (Instr.create c).operands, Gives K OneLine o.text) : Gives K IsLine c.text := by
  simp only [Instr.operands, List.forall_mem_append, List.forall_mem_singleton] at ho
  obtain ⟨⟨⟨⟨⟨⟨hsalt, hvalue⟩, hgas⟩, haddress⟩, hseeds⟩, hargs⟩, haccounts⟩ := ho
  refine (gives_labelled (by decide) hsalt).bind fun salt hsalt => ?_
  refine (gives_labelled (by decide) hvalue).bind fun value hvalue => ?_
  refine hgas.bind fun gas hgas => ?_
  refine (gives_labelled (by decide) haddress).bind fun address haddress => ?_
  refine (gives_labelled (by decide) hseeds).bind fun seeds hseeds => ?_
  refine hargs.bind fun args hargs => ?_
  refine (gives_labelled (by decide) haccounts).bind fun accounts haccounts => .ok ?_
  have hnumber := (plain_optionalNumber c.constructorId).oneLine
  refine isLine_slots (by simp) ?_
  simp +decide [hnumber, hsalt, hvalue, hgas, haddress, hseeds, hargs, haccounts]

theorem gives_terminator {t : Terminator} (ho : ∀ o ∈ t.operands, Gives K OneLine o.text) :
    Gives K IsLine t.text := by
  cases t with
  | branch block => exact .ok (by simp +decide [IsLine])
  | branchCond condition trueBlock falseBlock =>
    refine (ho condition (by simp [Terminator.operands])).bind fun s hs => .ok ?_
    simp +decide [IsLine, hs]
  | switch condition cases defaultBlock =>
    obtain ⟨hcondition, hcases⟩ := List.forall_mem_cons.1 ho
    have htexts : ∀ c ∈ cases, Gives K OneLine (Terminator.caseText c) := by
      intro c hc
      exact (hcases c.1 (List.mem_map_of_mem hc)).bind fun s hs => .ok (by simp +decide [hs])
    refine (gives_list htexts).bind fun cs hcs => ?_
    refine hcondition.bind fun s hs => .ok ?_
    simp +decide [IsLine, hcs, hs]
  | ret values =>
    cases values with
    | nil => exact .ok (by simp +decide [IsLine])
    | cons o os => exact (gives_operands ho).bind fun s hs => .ok (by simp +decide [IsLine, hs])
  | returnData data length =>
    refine (ho data (by simp [Terminator.operands])).bind fun d hd => ?_
    refine (ho length (by simp [Terminator.operands])).bind fun l hl => .ok ?_
    simp +decide [IsLine, hd, hl]
  | returnCode code =>
    have hcode : OneLine code.text := by cases code <;> decide
    exact .ok (by simp +decide [IsLine, hcode])
  | assertFailure encodedArgs =>
    cases encodedArgs with
    | none => exact .ok (by simp +decide [IsLine])
    | some o =>
      refine (ho o (by simp [Terminator.operands])).bind fun s hs => .ok ?_
      simp +decide [IsLine, hs]
  | unimplemented reachable => exact .ok (by cases reachable <;> simp +decide [IsLine])

/-- An instruction of known kinds has a text, unless it sets a variable to a buffer whose type is no
pointer. -/
theorem gives_instr {i : Instr} (location : Location) (hform : K → i.hasKnownForm = true)
    (halloc : K → i.misallocates = false) (ho : ∀ o ∈ i.operands, Gives K OneLine o.text) :
    Gives K IsLine (i.text location) := by
  cases i with
  | nop => exact .ok (by simp +decide [IsLine])
  | set x e =>
    refine (gives_expr location hform halloc ho).bind fun s hs => .ok ?_
    simp +decide [IsLine, hs]
  | store dest data =>
    refine (ho data (by simp [Instr.operands])).bind fun d hd => ?_
    refine (ho dest (by simp [Instr.operands])).bind fun p hp => .ok ?_
    simp +decide [IsLine, hd, hp]
  | loadStorage _ o | clearStorage o | popStorage _ o | pushMemory _ _ o | print o
  | selfDestruct o =>
    refine (ho o (by simp [Instr.operands])).bind fun s hs => .ok ?_
    simp +decide [IsLine, hs]
  | setStorage storage value =>
    refine (ho storage (by simp [Instr.operands])).bind fun s hs => ?_
    refine (ho value (by simp [Instr.operands])).bind fun v hv => .ok ?_
    simp +decide [IsLine, hs, hv]
  | setStorageBytes a b c | memCopy a b c | writeBuffer a b c =>
    refine (ho a (by simp [Instr.operands])).bind fun r hr => ?_
    refine (ho b (by simp [Instr.operands])).bind fun s hs => ?_
    refine (ho c (by simp [Instr.operands])).bind fun t ht => .ok ?_
    simp +decide [IsLine, hr, hs, ht]
  | pushStorage x storage value =>
    obtain ⟨hstorage, hvalue⟩ := List.forall_mem_cons.1 ho
    refine hstorage.bind fun s hs => ?_
    refine (gives_optional hvalue).bind fun v hv => .ok ?_
    simp +decide [IsLine, hs, hv]
  | popMemory x y => exact .ok (by simp +decide [IsLine])
  | emitEvent event topics data =>
    obtain ⟨htopics, hdata⟩ := List.forall_mem_append.1 ho
    refine (gives_operands htopics).bind fun ts hts => ?_
    refine (hdata data (by simp)).bind fun d hd => .ok ?_
    simp +decide [IsLine, hts, hd]
  | call xs callee args =>
    obtain ⟨hcallee, hargs⟩ := gives_callee hform ho
    refine hcallee.bind fun c hc => ?_
    refine (gives_operands hargs).bind fun s hs => .ok ?_
    simp +decide [IsLine, hc, hs]
  | externalCall c => exact gives_externalCall ho
  | create c => exact gives_creation ho
  | valueTransfer x address value =>
    refine (ho value (by simp [Instr.operands])).bind fun v hv => ?_
    refine (ho address (by simp [Instr.operands])).bind fun a ha => .ok ?_
    simp +decide [IsLine, hv, ha]
  | terminate t => exact gives_terminator ho
  | phi x inputs =>
    have htexts : ∀ input ∈ inputs, Gives K OneLine (PhiInput.text input) := by
      intro input hinput
      exact (ho input.operand (List.mem_map_of_mem hinput)).bind fun s hs =>
        .ok (by simp +decide [hs])
    refine (gives_list htexts).bind fun ss hss => .ok ?_
    simp +decide [IsLine, hss]
  | unknown kind => exact .error fun hk => by cases hform hk

end Parts

end Text

theorem Expr.allocText_of_ne_ptr {type : Ty} (h : ∀ pointee, type ≠ .ptr pointee)
    (location : Location) (size : Operand) (contents : Option Bytes) :
    allocText location type size contents =
      type.text >>= fun t => .error (allocFailure t location) := by
  unfold allocText
  split
  · exact absurd rfl (h _)
  · rfl

namespace Instr

theorem gives_text (i : Instr) (location : Location) :
    Gives (i.isKnown = true ∧ i.misallocates = false) IsLine (i.text location) := by
  have hknown : ∀ h : i.isKnown = true ∧ i.misallocates = false,
      i.hasKnownForm = true ∧ ∀ o ∈ i.operands, o.isKnown = true := by
    rintro ⟨h, -⟩
    rwa [isKnown, Bool.and_eq_true, List.all_eq_true] at h
  exact gives_instr location (fun h => (hknown h).1) (fun h => h.2)
    fun o ho => (gives_operand o).mono fun h => (hknown h).2 o ho

/-- Of the known instructions, one fails to print: at the location where the printer stands. -/
theorem text_of_misallocates {i : Instr} (hknown : i.isKnown = true) (h : i.misallocates = true)
    (location : Location) : ∃ type, i.text location = .error (Expr.allocFailure type location) := by
  have hform : i.hasKnownForm = true := (Bool.and_eq_true_iff.1 hknown).1
  cases i with
  | set x e =>
    cases e with
    | allocDynamicBytes type size contents =>
      obtain ⟨t, ht⟩ := type.exists_text hform
      have hptr : ∀ pointee, type ≠ .ptr pointee := by
        rintro pointee rfl
        cases h
      exact ⟨t, by rw [text, Expr.text, Expr.allocText_of_ne_ptr hptr, ht]; rfl⟩
    | _ => cases h
  | _ => cases h

/-- A text does not depend on the location. -/
theorem text_eq_ok_of_location {i : Instr} {l : Location} {s : String} (h : i.text l = .ok s)
    (l' : Location) : i.text l' = .ok s := by
  cases i with
  | set x e =>
    cases e with
    | allocDynamicBytes type size contents =>
      obtain ⟨r, hr, -⟩ := bind_eq_ok_iff.1 h
      obtain ⟨pointee, rfl⟩ := exists_ptr_of_allocText hr
      exact h
    | _ => exact h
  | _ => exact h

end Instr

end ContractIR
