import ContractIR.Proofs.Text.Field
import Mathlib.Data.List.Pairwise

/-!
# ContractIR.Proofs.Text.Line — the layouts of lines

A line begins with the variables that it sets.  An opening then tells the form of the line, and the
form tells which parts follow and what stands behind each of them.  Expressions that begin with an
operand or a type have their opening behind that head.  No opening begins another one, so a line can
be read from its text (`Line.eq_of_written`).
-/

namespace ContractIR.Text

open Decimal

/-! ### Forms -/

/-- The forms of expressions. -/
inductive ExprForm
  | unary (op : UnaryOp)
  | constArray
  | struct
  | getRef
  | load
  | advancePointer
  | cast
  | bytesCast
  | widthChange (change : WidthChange)
  | allocDynamicBytes
  | keccak256
  | stringCompare
  | stringConcat
  | storageArrayLength
  | formatString
  | functionArg
  | internalFunction
  | returnData
  | binary (op : BinaryOp)
  /-- a variable or a literal -/
  | value
  | structMember
  | subscript
  | bytes
  | array
deriving DecidableEq

/-- The forms of terminators. -/
inductive TerminatorForm
  | branch
  | branchCond
  | switch
  | retNone
  | ret
  | returnData
  | returnCode (code : ReturnCode)
  | assertFailure
  | assertFailureWith
  | unimplemented (reachable : Bool)
deriving DecidableEq

/-- The forms of instructions. -/
inductive Form
  | nop
  | set (expr : ExprForm)
  | store
  | loadStorage
  | clearStorage
  | setStorage
  | setStorageBytes
  | pushStorage
  | popStorage
  | pushMemory
  | popMemory
  | memCopy
  | writeBuffer
  | print
  | emitEvent
  | call
  | externalCall (callType : CallType)
  | create
  | valueTransfer
  | selfDestruct
  | terminate (terminator : TerminatorForm)
  | phi
deriving DecidableEq

/-- How a line goes on from its opening: parts of given kinds, each with what stands behind it. -/
structure Layout where
  opening : String
  holes : List (Kind × String) := []

/-- What stands in front of the opening of an expression. -/
inductive HeadKind
  | operand
  | type
deriving DecidableEq

/-- What stands in front of the opening, if something does. -/
def ExprForm.head? : ExprForm → Option HeadKind
  | binary _ | value | structMember | subscript => some .operand
  | bytes | array => some .type
  | _ => none

/-- The layout of an expression, with the end of the line. -/
def ExprForm.layout : ExprForm → Layout
  | unary op => ⟨op.text.toOption.getD "", [(.operand, ";")]⟩
  | constArray => ⟨"const ", [(.type, " ["), (.operands, "];")]⟩
  | struct => ⟨"struct \x7b ", [(.operands, " \x7d;")]⟩
  | getRef => ⟨"&", [(.operand, ";")]⟩
  | load => ⟨"*", [(.operand, ";")]⟩
  | advancePointer => ⟨"ptr_add(", [(.operand, ", "), (.operand, ");")]⟩
  | cast => ⟨"(cast ", [(.operand, " as "), (.type, ");")]⟩
  | bytesCast => ⟨"(cast_bytes ", [(.operand, " as "), (.type, ");")]⟩
  | widthChange change => ⟨"(" ++ change.text ++ " ", [(.operand, " to "), (.type, ");")]⟩
  | allocDynamicBytes => ⟨"alloc ", [(.buffer, "]"), (.contents, ";")]⟩
  | keccak256 => ⟨"keccak256(", [(.operands, ");")]⟩
  | stringCompare => ⟨"strcmp(", [(.source, ", "), (.source, ");")]⟩
  | stringConcat => ⟨"strcat(", [(.source, ", "), (.source, ");")]⟩
  | storageArrayLength => ⟨"storage_arr_len(", [(.operand, ");")]⟩
  | formatString => ⟨"fmt_str(", [(.formatArgs, ");")]⟩
  | functionArg => ⟨"arg#", [(.number, ";")]⟩
  | internalFunction => ⟨"function#", [(.number, ";")]⟩
  | returnData => ⟨"(extern_call_ret_data);", []⟩
  | binary op => ⟨" " ++ op.text.toOption.getD "" ++ " ", [(.operand, ";")]⟩
  | value => ⟨";", []⟩
  | structMember => ⟨"->", [(.number, ";")]⟩
  | subscript => ⟨"[", [(.operand, "];")]⟩
  | bytes => ⟨" hex\"", [(.hexBytes, "\";")]⟩
  | array => ⟨" [", [(.operands, "];")]⟩

/-- The layout of a terminator. -/
def TerminatorForm.layout : TerminatorForm → Layout
  | branch => ⟨"br block#", [(.number, ";")]⟩
  | branchCond => ⟨"cbr ", [(.operand, " block#"), (.number, " else block#"), (.number, ";")]⟩
  | switch => ⟨"switch ",
      [(.operand, " cases: ["), (.cases, "] default: block#"), (.number, ";")]⟩
  | retNone => ⟨"return;", []⟩
  | ret => ⟨"return ", [(.operands, ";")]⟩
  | returnData => ⟨"return_data ", [(.operand, " of length "), (.operand, ";")]⟩
  | returnCode code => ⟨"return_code \"" ++ code.text ++ "\";", []⟩
  | assertFailure => ⟨"assert_failure;", []⟩
  | assertFailureWith => ⟨"assert_failure ", [(.operand, ";")]⟩
  | unimplemented reachable =>
    ⟨if reachable then "unimplemented: reachable;" else "unimplemented: unreachable;", []⟩

/-- The layout of an instruction behind the variables that it sets. -/
def Form.layout : Form → Layout
  | nop => ⟨"nop;", []⟩
  | set expr => expr.layout
  | store => ⟨"store ", [(.operand, " to "), (.operand, ";")]⟩
  | loadStorage => ⟨"load_storage ", [(.operand, ";")]⟩
  | clearStorage => ⟨"clear_storage ", [(.operand, ";")]⟩
  | setStorage => ⟨"set_storage ", [(.operand, " "), (.operand, ";")]⟩
  | setStorageBytes => ⟨"set_storage_bytes ",
      [(.operand, " offset:"), (.operand, " value:"), (.operand, ";")]⟩
  | pushStorage => ⟨"push_storage ", [(.operand, " "), (.optional .bare, ";")]⟩
  | popStorage => ⟨"pop_storage ", [(.operand, ";")]⟩
  | pushMemory => ⟨"push_mem %", [(.number, " "), (.operand, ";")]⟩
  | popMemory => ⟨"pop_mem %", [(.number, ";")]⟩
  | memCopy => ⟨"memcopy ", [(.operand, " to "), (.operand, " for "), (.operand, " bytes;")]⟩
  | writeBuffer => ⟨"write_buf ",
      [(.operand, " offset:"), (.operand, " value:"), (.operand, ";")]⟩
  | print => ⟨"print ", [(.operand, ";")]⟩
  | emitEvent => ⟨"emit event#",
      [(.number, " to topics["), (.operands, "], data: "), (.operand, ";")]⟩
  | call => ⟨"call ", [(.callee, "("), (.operands, ");")]⟩
  | externalCall callType => ⟨"call_ext [" ++ callType.text ++ "] ",
      [(.optional .address, " payload:"), (.operand, " value:"), (.operand, " gas:"),
        (.operand, " "), (.optional .accounts, " "), (.optional .seeds, " "),
        (.contractFunction, " "), (.optional .flags, ";")]⟩
  | create => ⟨"constructor(no: ",
      [(.optionalNumber, ", contract_no:"), (.number, ") "), (.optional .salt, " "),
        (.optional .value, " gas:"), (.operand, " "), (.optional .address, " "),
        (.optional .seeds, " encoded-buffer:"), (.operand, " "), (.optional .accounts, ";")]⟩
  | valueTransfer => ⟨"transfer ", [(.operand, " to "), (.operand, ";")]⟩
  | selfDestruct => ⟨"self_destruct ", [(.operand, ";")]⟩
  | terminate terminator => terminator.layout
  | phi => ⟨"phi ", [(.phiInputs, ";")]⟩

/-- What stands in front of the opening, if something does. -/
def Form.head? : Form → Option HeadKind
  | set expr => expr.head?
  | _ => none

/-! ### No opening begins another one -/

/-- The forms of expressions that can be printed. -/
def ExprForm.all : List ExprForm :=
  [.not, .neg true, .neg false, .bitNot].map unary ++
  [.add true, .add false, .sub true, .sub false, .mul true, .mul false, .pow true, .pow false,
    .udiv, .sdiv, .umod, .smod, .eq, .neq, .slt, .ult, .slte, .ulte, .sgt, .ugt, .sgte, .ugte,
    .bitAnd, .bitOr, .bitXor, .shl, .sshr, .ushr].map binary ++
  [.signExt, .zeroExt, .trunc].map widthChange ++
  [constArray, struct, getRef, load, advancePointer, cast, bytesCast, allocDynamicBytes, keccak256,
    stringCompare, stringConcat, storageArrayLength, formatString, functionArg, internalFunction,
    returnData, value, structMember, subscript, bytes, array]

/-- The forms of terminators. -/
def TerminatorForm.all : List TerminatorForm :=
  [.success, .functionSelectorInvalid, .abiEncodingInvalid, .invalidDataError, .accountDataTooSmall,
    .invalidProgramId].map returnCode ++
  [branch, branchCond, switch, retNone, ret, returnData, assertFailure, assertFailureWith,
    unimplemented true, unimplemented false]

/-- The forms of instructions that can be printed. -/
def Form.all : List Form :=
  ExprForm.all.map set ++ TerminatorForm.all.map terminate ++
  [.regular, .delegate, .static].map externalCall ++
  [nop, store, loadStorage, clearStorage, setStorage, setStorageBytes, pushStorage, popStorage,
    pushMemory, popMemory, memCopy, writeBuffer, print, emitEvent, call, create, valueTransfer,
    selfDestruct, phi]

/-- Where both forms have a head, or neither has one, no opening begins the other. -/
def Form.Distinct (f g : Form) : Prop :=
  f.head?.isSome = g.head?.isSome → Apart [f.layout.opening] [g.layout.opening]

instance (f g : Form) : Decidable (f.Distinct g) :=
  inferInstanceAs (Decidable (f.head?.isSome = g.head?.isSome →
    Apart [f.layout.opening] [g.layout.opening]))

theorem Form.pairwise_distinct : all.Pairwise Distinct := by decide +kernel

/-- Among the forms with a head, and among those without one, the opening tells the form. -/
theorem Form.eq_of_opens {f g : Form} {s : List Char} (hf : f ∈ all) (hg : g ∈ all)
    (hsome : f.head?.isSome = g.head?.isSome) (hsf : Opens [f.layout.opening] s)
    (hsg : Opens [g.layout.opening] s) : f = g := by
  by_contra hne
  have hsymm : Std.Symm Distinct := ⟨fun f g h heq => (h heq.symm).symm⟩
  exact (pairwise_distinct.forall hf hg hne hsome).not_opens hsf hsg

/-- The opening of a form without a head begins no operand and no type. -/
theorem Form.apart_operand : ∀ f ∈ all, f.head? = none →
    Apart [f.layout.opening] operandOpenings := by
  decide +kernel

/-- An operand that stands as a head ends at the opening. -/
theorem Form.stops_opening : ∀ f ∈ all, f.head? = some .operand →
    f.layout.opening.toList.head?.any (fun c => !isNumeric c) = true := by
  decide +kernel

/-- A type that stands as a head ends at the opening. -/
theorem Form.blank_opening : ∀ f ∈ all, f.head? = some .type →
    f.layout.opening.toList.head? = some ' ' := by
  decide +kernel

/-- No part of a line is followed by what could belong to it. -/
theorem Form.next_holes : ∀ f ∈ all, ∀ hole ∈ f.layout.holes,
    hole.2.toList.head?.any (fun c => hole.1.ends.contains c) = true := by
  decide +kernel

/-! ### Parts -/

/-- A part of a line. -/
abbrev Field : Type := (k : Kind) × k.Value

/-- The text of parts, each with what stands behind it. -/
inductive Fills : List (Kind × String) → List Field → List Char → Prop
  | nil : Fills [] [] []
  | cons {k : Kind} {a : k.Value} {sep : String} {holes : List (Kind × String)} {fs : List Field}
      {r t : List Char} : k.Written a r → Fills holes fs t →
      Fills ((k, sep) :: holes) (⟨k, a⟩ :: fs) (r ++ sep.toList ++ t)

/-- The parts can be told from their texts. -/
theorem Fills.inj {holes : List (Kind × String)} {fs gs : List Field} {s : List Char}
    (hs : Fills holes fs s) (hholes : ∀ hole ∈ holes,
      hole.2.toList.head?.any (fun c => hole.1.ends.contains c) = true)
    (ht : Fills holes gs s) : fs = gs := by
  generalize heq : s = t at ht
  induction hs generalizing gs t with
  | nil =>
    cases ht
    rfl
  | @cons k a sep _ _ r _ ha _ ih =>
    cases ht with
    | @cons _ b _ _ _ r' _ hb hrest =>
      have hnext : ∀ w, Next k.ends (sep.toList ++ w) := by
        intro w
        obtain ⟨c, hc, hmem⟩ := (Option.any_eq_true ..).1 (hholes (k, sep) (by simp))
        obtain ⟨l, hl⟩ := List.head?_eq_some_iff.1 hc
        exact ⟨c, l ++ w, by rw [hl]; rfl, List.contains_iff_mem.1 hmem⟩
      rw [List.append_assoc, List.append_assoc] at heq
      obtain ⟨rfl, htail⟩ := k.reads a ha hb (hnext _) (hnext _) heq
      rw [ih (fun hole hmem => hholes hole (List.mem_cons_of_mem _ hmem)) _
        (List.append_cancel_left htail) hrest]

/-! ### Heads -/

/-- What stands in front of an opening. -/
inductive Head
  | operand (o : Operand)
  | type (t : Ty)

/-- Whether the head is an operand or a type. -/
def Head.kind : Head → HeadKind
  | operand _ => .operand
  | type _ => .type

/-- The text of a head, if there is one. -/
inductive HeadText : Option Head → List Char → Prop
  | none : HeadText none []
  | operand {o : Operand} {s : List Char} : OperandText o s → HeadText (some (.operand o)) s
  | type {t : Ty} {s : List Char} : TyText t s → HeadText (some (.type t)) s

/-- What may follow a head: an opening of a form that has such a head. -/
def Head.Ends : Option Head → List Char → Prop
  | none, u => ¬ Opens operandOpenings u
  | some (.operand _), u => Stops isNumeric u
  | some (.type _), u => ∃ w, u = ' ' :: w

theorem TyText.ne_operandText {t : Ty} {o : Operand} {r s u v : List Char} (ht : TyText t r)
    (ho : OperandText o s) : r ++ ' ' :: u ≠ s ++ v := by
  intro h
  have hvar : Apart tyOpenings ["%"] := by decide
  have hbool : Apart tyOpenings ["true", "false"] := by decide
  cases ho with
  | var hn => exact hvar.append_ne ht.opens (OperandText.var hn).opens_var h
  | number ht' =>
    simp only [List.append_assoc, List.cons_append] at h
    obtain ⟨-, hrest⟩ := reads_ty _ ht ht' (endsType_cons rfl (by decide))
      (endsType_cons rfl (by decide)) h
    simp at hrest
  | bool => exact hbool.append_ne ht.opens OperandText.bool.opens_bool h

theorem HeadText.opens {h : Head} {s : List Char} (hs : HeadText (some h) s) :
    Opens operandOpenings s := by
  cases hs with
  | operand ho => exact ho.opens
  | type ht =>
    obtain ⟨o, ho, hs⟩ := ht.opens
    exact ⟨o, List.mem_append_right _ ho, hs⟩

/-- A head can be told from its text, and a line without a head from one with a head. -/
theorem HeadText.inj {a b : Option Head} {s t u v : List Char} (hs : HeadText a s)
    (ht : HeadText b t) (hu : Head.Ends a u) (hv : Head.Ends b v) (h : s ++ u = t ++ v) :
    a = b ∧ u = v := by
  cases hs with
  | none =>
    cases b with
    | none =>
      cases ht
      exact ⟨rfl, h⟩
    | some b =>
      rw [List.nil_append] at h
      exact absurd (h ▸ ht.opens.append v) hu
  | operand hs =>
    cases ht with
    | none =>
      rw [List.nil_append] at h
      exact absurd (h ▸ hs.opens.append u) hv
    | operand ht =>
      obtain ⟨rfl, rfl⟩ := reads_operand _ hs ht hu hv h
      exact ⟨rfl, rfl⟩
    | type ht =>
      obtain ⟨w, rfl⟩ := hv
      exact absurd h.symm (ht.ne_operandText hs)
  | type hs =>
    obtain ⟨w, rfl⟩ := hu
    cases ht with
    | none =>
      rw [List.nil_append] at h
      exact absurd (h ▸ (HeadText.type hs).opens.append _) hv
    | operand ht => exact absurd h (hs.ne_operandText ht)
    | type ht =>
      obtain ⟨w', rfl⟩ := hv
      obtain ⟨rfl, hrest⟩ := reads_ty _ hs ht (endsType_cons rfl (by decide))
        (endsType_cons rfl (by decide)) h
      exact ⟨rfl, hrest⟩

/-! ### Lines -/

/-- The text of the variables that a line sets. -/
inductive ResultsText : List VarId → List Char → Prop
  | nil : ResultsText [] []
  | cons {x : VarId} {xs : List VarId} {s : List Char} :
      Joined ", ".toList (fun x => OperandText (.var x)) (x :: xs) s →
      ResultsText (x :: xs) (s ++ " = ".toList)

theorem ResultsText.opens {x : VarId} {xs : List VarId} {s : List Char}
    (h : ResultsText (x :: xs) s) : Opens ["%"] s := by
  cases h with
  | cons hs =>
    obtain ⟨r, w, hr, hw, -⟩ := joined_cons_append (u := " = ".toList) hs
    rw [hw]
    exact hr.opens_var.append w

/-- The variables that a line sets can be told from their text, if no variable follows where there
are none. -/
theorem ResultsText.inj {xs ys : List VarId} {s t u v : List Char} (hs : ResultsText xs s)
    (ht : ResultsText ys t) (hu : xs = [] → ¬ Opens ["%"] u) (hv : ys = [] → ¬ Opens ["%"] v)
    (h : s ++ u = t ++ v) : xs = ys ∧ u = v := by
  cases hs with
  | nil =>
    cases ys with
    | nil =>
      cases ht
      exact ⟨rfl, h⟩
    | cons y ys =>
      rw [List.nil_append] at h
      exact absurd (h ▸ ht.opens.append v) (hu rfl)
  | cons hs =>
    cases ht with
    | nil =>
      rw [List.nil_append] at h
      exact absurd (h ▸ (ResultsText.cons hs).opens.append u) (hv rfl)
    | cons ht =>
      have hreads : Reads (fun x => OperandText (.var x)) (Stops isNumeric) := by
        intro x y s t u v hs ht hu hv h
        obtain ⟨heq, rfl⟩ := reads_operand _ hs ht hu hv h
        exact ⟨Operand.var.inj heq, rfl⟩
      have hnext : ∀ w, Next listEnds (" = ".toList ++ w) :=
        fun w => ⟨' ', '=' :: ' ' :: w, by simp, by decide⟩
      rw [List.append_assoc, List.append_assoc] at h
      obtain ⟨heq, hrest⟩ := reads_list hreads (fun hs => hs.opens_var.not_next (by decide)) _ hs ht
        (hnext u) (hnext v) h
      exact ⟨heq, List.append_cancel_left hrest⟩

/-- A line, taken apart. -/
structure Line where
  results : List VarId
  head : Option Head
  form : Form
  fields : List Field

/-- The text of a line: what it sets, its head, the opening of its form and its parts. -/
structure Line.Written (l : Line) (s : List Char) : Prop where
  mem_all : l.form ∈ Form.all
  head_eq : l.form.head? = l.head.map Head.kind
  head_eq_none : l.results = [] → l.head = none
  text : ∃ r h b, ResultsText l.results r ∧ HeadText l.head h ∧
    Fills l.form.layout.holes l.fields b ∧ s = r ++ (h ++ (l.form.layout.opening.toList ++ b))

/-- The opening of a form may follow a head of its kind. -/
theorem Line.Written.ends {l : Line} {s : List Char} (h : l.Written s) (b : List Char) :
    Head.Ends l.head (l.form.layout.opening.toList ++ b) := by
  have hhead := h.head_eq
  cases hl : l.head with
  | none =>
    rw [hl] at hhead
    exact (Form.apart_operand _ h.mem_all hhead).not_opens (opens_append _ b)
  | some head =>
    rw [hl] at hhead
    cases head with
    | operand o =>
      obtain ⟨c, hc, hnumeric⟩ := (Option.any_eq_true ..).1 (Form.stops_opening _ h.mem_all hhead)
      obtain ⟨w, hw⟩ := List.head?_eq_some_iff.1 hc
      rw [hw]
      exact stops_cons.2 (by simpa using hnumeric)
    | type t =>
      obtain ⟨w, hw⟩ := List.head?_eq_some_iff.1 (Form.blank_opening _ h.mem_all hhead)
      rw [hw]
      exact ⟨w ++ b, rfl⟩

/-- What follows the variables of a line is no variable, if there are none. -/
theorem Line.Written.not_opens {l : Line} {s h b : List Char} (hl : l.Written s)
    (hh : HeadText l.head h) (hnil : l.results = []) :
    ¬ Opens ["%"] (h ++ (l.form.layout.opening.toList ++ b)) := by
  have hnone := hl.head_eq_none hnil
  have hends := hl.ends b
  rw [hnone] at hh hends
  cases hh
  rintro ⟨o, ho, hs⟩
  refine hends ⟨o, ?_, hs⟩
  rw [List.mem_singleton.1 ho]
  decide

/-- A line can be told from its text. -/
theorem Line.eq_of_written {l l' : Line} {s : List Char} (hl : l.Written s) (hl' : l'.Written s) :
    l = l' := by
  obtain ⟨r, h, b, hr, hh, hb, hs⟩ := hl.text
  obtain ⟨r', h', b', hr', hh', hb', hs'⟩ := hl'.text
  obtain ⟨hresults, hrest⟩ := hr.inj hr' (hl.not_opens hh) (hl'.not_opens hh') (hs.symm.trans hs')
  obtain ⟨hhead, hrest⟩ := hh.inj hh' (hl.ends b) (hl'.ends b') hrest
  have hsome : l.form.head?.isSome = l'.form.head?.isSome := by
    rw [hl.head_eq, hl'.head_eq, hhead]
  have hform : l.form = l'.form := Form.eq_of_opens hl.mem_all hl'.mem_all hsome
    (opens_append _ b) (hrest ▸ opens_append _ b')
  rw [hform] at hb hrest
  rw [List.append_cancel_left hrest] at hb
  have hfields := hb.inj (Form.next_holes _ hl'.mem_all) hb'
  cases l
  cases l'
  exact Line.mk.injEq .. ▸ ⟨hresults, hhead, hform, hfields⟩

end ContractIR.Text
