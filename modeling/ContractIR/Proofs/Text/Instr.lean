import ContractIR.Proofs.Text.Expr

/-!
# ContractIR.Proofs.Text.Instr — instructions can be told from their texts

The text of an instruction that can be printed is a line (`exists_instrLine`), a line can be read
from its text, and its parts tell the instruction (`InstrLine.inj`).  So no two instructions share a
text.
-/

namespace ContractIR

open Decimal

/-! ### Regular instructions -/

namespace Instr

/-- The numbers of the instruction that are neither variables nor blocks to go to. -/
def numbers : Instr → List Int
  | set _ expr => expr.numbers
  | emitEvent event _ _ => [event]
  | call _ (.static function) _ => [function]
  | call _ (.builtin number) _ => [number]
  | externalCall c => c.contractFunction.toList.flatMap fun f => [f.contract, f.function]
  | create c => c.contractId :: c.constructorId.toList
  | phi _ inputs => inputs.map PhiInput.block
  | _ => []

/-- The types that stand in the instruction other than in its operands. -/
def types : Instr → List Ty
  | set _ expr => expr.types
  | _ => []

/-- Variables, blocks and other numbers are whole floats, and operands and types are regular. -/
structure Regular (i : Instr) : Prop where
  definitions : ∀ x ∈ i.definitions, IsFloat x
  operands : ∀ o ∈ i.operands, o.Regular
  blocks : ∀ b ∈ i.successors, IsFloat b
  numbers : ∀ n ∈ i.numbers, IsFloat n
  types : ∀ t ∈ i.types, t.Regular

theorem Regular.operandText {i : Instr} {o : Operand} {s : String} (h : i.Regular)
    (ho : o ∈ i.operands) (hs : o.text = .ok s) : Text.OperandText o s.toList :=
  Text.operandText_of_text (h.operands o ho) hs

end Instr

namespace Text

/-! ### Terminators as lines -/

/-- The form and the parts of a terminator. -/
inductive TerminatorParts : Terminator → TerminatorForm → List Field → Prop
  | branch {b : BlockId} : TerminatorParts (.branch b) .branch [⟨.number, b⟩]
  | branchCond {o : Operand} {b b' : BlockId} :
      TerminatorParts (.branchCond o b b') .branchCond [⟨.operand, o⟩, ⟨.number, b⟩, ⟨.number, b'⟩]
  | switch {o : Operand} {cases : List (Operand × BlockId)} {b : BlockId} :
      TerminatorParts (.switch o cases b) .switch [⟨.operand, o⟩, ⟨.cases, cases⟩, ⟨.number, b⟩]
  | retNone : TerminatorParts (.ret []) .retNone []
  | ret {o : Operand} {os : List Operand} :
      TerminatorParts (.ret (o :: os)) .ret [⟨.operands, (o :: os : List Operand)⟩]
  | returnData {o o' : Operand} :
      TerminatorParts (.returnData o o') .returnData [⟨.operand, o⟩, ⟨.operand, o'⟩]
  | returnCode {code : ReturnCode} : TerminatorParts (.returnCode code) (.returnCode code) []
  | assertFailure : TerminatorParts (.assertFailure none) .assertFailure []
  | assertFailureWith {o : Operand} :
      TerminatorParts (.assertFailure (some o)) .assertFailureWith [⟨.operand, o⟩]
  | unimplemented {reachable : Bool} :
      TerminatorParts (.unimplemented reachable) (.unimplemented reachable) []

/-- The parts tell the terminator. -/
theorem TerminatorParts.inj {a b : Terminator} {form : TerminatorForm} {fields : List Field}
    (ha : TerminatorParts a form fields) (hb : TerminatorParts b form fields) : a = b := by
  cases ha <;> cases hb <;> rfl

/-! ### Instructions as lines -/

/-- The line of an instruction. -/
inductive InstrLine : Instr → Line → Prop
  | nop : InstrLine .nop ⟨[], none, .nop, []⟩
  | set {x : VarId} {e : Expr} {head : Option Head} {form : ExprForm} {fields : List Field} :
      ExprParts e head form fields → InstrLine (.set x e) ⟨[x], head, .set form, fields⟩
  | store {dest data : Operand} :
      InstrLine (.store dest data) ⟨[], none, .store, [⟨.operand, data⟩, ⟨.operand, dest⟩]⟩
  | loadStorage {x : VarId} {o : Operand} :
      InstrLine (.loadStorage x o) ⟨[x], none, .loadStorage, [⟨.operand, o⟩]⟩
  | clearStorage {o : Operand} :
      InstrLine (.clearStorage o) ⟨[], none, .clearStorage, [⟨.operand, o⟩]⟩
  | setStorage {o o' : Operand} :
      InstrLine (.setStorage o o') ⟨[], none, .setStorage, [⟨.operand, o⟩, ⟨.operand, o'⟩]⟩
  | setStorageBytes {storage offset value : Operand} :
      InstrLine (.setStorageBytes storage offset value)
        ⟨[], none, .setStorageBytes, [⟨.operand, storage⟩, ⟨.operand, offset⟩, ⟨.operand, value⟩]⟩
  | pushStorage {x : VarId} {o : Operand} {value : Option Operand} :
      InstrLine (.pushStorage x o value)
        ⟨[x], none, .pushStorage, [⟨.operand, o⟩, ⟨.optional .bare, value⟩]⟩
  | popStorage {x : Option VarId} {xs : List VarId} {o : Operand} : x.toList = xs →
      InstrLine (.popStorage x o) ⟨xs, none, .popStorage, [⟨.operand, o⟩]⟩
  | pushMemory {x y : VarId} {o : Operand} :
      InstrLine (.pushMemory x y o) ⟨[x], none, .pushMemory, [⟨.number, y⟩, ⟨.operand, o⟩]⟩
  | popMemory {x y : VarId} : InstrLine (.popMemory x y) ⟨[x], none, .popMemory, [⟨.number, y⟩]⟩
  | memCopy {source dest bytes : Operand} :
      InstrLine (.memCopy source dest bytes)
        ⟨[], none, .memCopy, [⟨.operand, source⟩, ⟨.operand, dest⟩, ⟨.operand, bytes⟩]⟩
  | writeBuffer {buffer offset value : Operand} :
      InstrLine (.writeBuffer buffer offset value)
        ⟨[], none, .writeBuffer, [⟨.operand, buffer⟩, ⟨.operand, offset⟩, ⟨.operand, value⟩]⟩
  | print {o : Operand} : InstrLine (.print o) ⟨[], none, .print, [⟨.operand, o⟩]⟩
  | emitEvent {event : Int} {topics : List Operand} {data : Operand} :
      InstrLine (.emitEvent event topics data)
        ⟨[], none, .emitEvent, [⟨.number, event⟩, ⟨.operands, topics⟩, ⟨.operand, data⟩]⟩
  | call {xs : List VarId} {callee : CallTarget} {args : List Operand} :
      InstrLine (.call xs callee args) ⟨xs, none, .call, [⟨.callee, callee⟩, ⟨.operands, args⟩]⟩
  | externalCall {x : Option VarId} {xs : List VarId}
      {address accounts seeds flags : Option Operand} {payload value gas : Operand}
      {callType : CallType} {f : Option ContractFunction} : x.toList = xs →
      InstrLine
        (.externalCall ⟨x, address, accounts, seeds, payload, value, gas, callType, f, flags⟩)
        ⟨xs, none, .externalCall callType,
          [⟨.optional .address, address⟩, ⟨.operand, payload⟩, ⟨.operand, value⟩, ⟨.operand, gas⟩,
            ⟨.optional .accounts, accounts⟩, ⟨.optional .seeds, seeds⟩, ⟨.contractFunction, f⟩,
            ⟨.optional .flags, flags⟩]⟩
  | create {x : Option VarId} {xs : List VarId} {y : VarId} {contract : Int} {number : Option Int}
      {args gas : Operand} {value salt address seeds accounts : Option Operand} : x.toList = xs →
      InstrLine (.create ⟨x, y, contract, number, args, value, gas, salt, address, seeds, accounts⟩)
        ⟨y :: xs, none, .create,
          [⟨.optionalNumber, number⟩, ⟨.number, contract⟩, ⟨.optional .salt, salt⟩,
            ⟨.optional .value, value⟩, ⟨.operand, gas⟩, ⟨.optional .address, address⟩,
            ⟨.optional .seeds, seeds⟩, ⟨.operand, args⟩, ⟨.optional .accounts, accounts⟩]⟩
  | valueTransfer {x : Option VarId} {xs : List VarId} {address value : Operand} : x.toList = xs →
      InstrLine (.valueTransfer x address value)
        ⟨xs, none, .valueTransfer, [⟨.operand, value⟩, ⟨.operand, address⟩]⟩
  | selfDestruct {o : Operand} :
      InstrLine (.selfDestruct o) ⟨[], none, .selfDestruct, [⟨.operand, o⟩]⟩
  | terminate {t : Terminator} {form : TerminatorForm} {fields : List Field} :
      TerminatorParts t form fields → InstrLine (.terminate t) ⟨[], none, .terminate form, fields⟩
  | phi {x : VarId} {inputs : List PhiInput} :
      InstrLine (.phi x inputs) ⟨[x], none, .phi, [⟨.phiInputs, inputs⟩]⟩

theorem eq_of_toList_eq {x y : Option VarId} {xs : List VarId} (hx : x.toList = xs)
    (hy : y.toList = xs) : x = y := by
  rw [← x.head?_toList, ← y.head?_toList, hx, hy]

/-- The parts tell the instruction. -/
theorem InstrLine.inj {a b : Instr} {l : Line} (ha : InstrLine a l) (hb : InstrLine b l) :
    a = b := by
  cases ha with
  | set he =>
    cases hb with
    | set he' => rw [he.inj he']
  | terminate ht =>
    cases hb with
    | terminate ht' => rw [ht.inj ht']
  | popStorage hx | externalCall hx | create hx | valueTransfer hx =>
    cases hb
    next hx' => rw [eq_of_toList_eq hx hx']
  | _ =>
    cases hb
    rfl

/-! ### Texts as lines -/

theorem resultsText_of_isFloat {xs : List VarId} (h : ∀ x ∈ xs, IsFloat x) :
    ResultsText xs (resultsText xs).toList := by
  cases xs with
  | nil => simpa [resultsText] using ResultsText.nil
  | cons x xs =>
    have hvars : Joined ", ".toList (fun x => OperandText (.var x)) (x :: xs)
        (", ".intercalate ((x :: xs).map varText)).toList :=
      joined_map (fun y hy => operandText_of_text (o := .var y) (h y hy) rfl) ", "
    simpa [resultsText] using ResultsText.cons hvars

theorem resultsText_singleton (x : VarId) : resultsText [x] = varText x ++ " = " := by
  rfl

theorem optional_of_labelledText {label : Label} {name s : String} {o : Option Operand}
    (h : ∀ x ∈ o.toList, x.Regular) (hname : label.text = name ++ ":")
    (hs : labelledText name o = .ok s) : OptionText (LabelledText label) o s.toList := by
  cases o with
  | none =>
    simp only [labelledText, Except.ok.injEq] at hs
    subst hs
    simpa using OptionText.none
  | some o =>
    simp only [labelledText, bind_eq_ok_iff, pure_eq_ok_iff] at hs
    obtain ⟨r, hr, rfl⟩ := hs
    exact .some ⟨r.toList, operandText_of_text (h o (by simp)) hr, by simp [hname]⟩

theorem optional_of_optionalText {s : String} {o : Option Operand} (h : ∀ x ∈ o.toList, x.Regular)
    (hs : optionalText o = .ok s) : OptionText (LabelledText .bare) o s.toList := by
  cases o with
  | none =>
    simp only [optionalText, Except.ok.injEq] at hs
    subst hs
    simpa using OptionText.none
  | some o => exact .some ⟨s.toList, operandText_of_text (h o (by simp)) hs, by simp [Label.text]⟩

theorem optionText_number {n : Option Int} (h : ∀ x ∈ n.toList, IsFloat x) :
    OptionText NumberText n ((n.map intText).getD "_").toList := by
  cases n with
  | none => simpa using OptionText.none
  | some n => exact .some ⟨h n (by simp), rfl⟩

theorem optionText_contractFunction {f : Option ContractFunction}
    (h : ∀ n ∈ f.toList.flatMap fun f => [f.contract, f.function], IsFloat n) :
    OptionText ContractFunctionText f (ContractFunction.optionalText f).toList := by
  cases f with
  | none =>
    have htext : ContractFunction.optionalText none = "_" := rfl
    simpa [htext] using OptionText.none
  | some f =>
    obtain ⟨m, n⟩ := f
    have htext : ContractFunction.optionalText (some ⟨m, n⟩) =
        "contract_function:(" ++ intText m ++ ", " ++ intText n ++ ")" := rfl
    have hf := ContractFunctionText.mk (h m (by simp)) (h n (by simp))
    refine .some ?_
    simpa [htext] using hf

theorem caseText_of_text {c : Operand × BlockId} {s : String} (ho : c.1.Regular) (hn : IsFloat c.2)
    (hs : Terminator.caseText c = .ok s) : CaseText c s.toList := by
  obtain ⟨o, n⟩ := c
  simp only [Terminator.caseText, blockText, bind_eq_ok_iff, pure_eq_ok_iff] at hs
  obtain ⟨r, hr, rfl⟩ := hs
  simpa using CaseText.mk (operandText_of_text ho hr) hn

theorem phiInputText_of_text {i : PhiInput} {s : String} (ho : i.operand.Regular)
    (hn : IsFloat i.block) (hs : i.text = .ok s) : PhiInputText i s.toList := by
  obtain ⟨o, n⟩ := i
  simp only [PhiInput.text, blockText, bind_eq_ok_iff, pure_eq_ok_iff] at hs
  obtain ⟨r, hr, rfl⟩ := hs
  simpa using PhiInputText.mk (operandText_of_text ho hr) hn

theorem calleeText_of_text {xs : List VarId} {callee : CallTarget} {args : List Operand}
    {s : String} (h : (Instr.call xs callee args).Regular) (hs : callee.text = .ok s) :
    CalleeText callee s.toList := by
  cases callee with
  | static n =>
    simp only [CallTarget.text, funcText, Except.ok.injEq] at hs
    subst hs
    simpa using CalleeText.static (h.numbers n (by simp [Instr.numbers]))
  | builtin n =>
    simp only [CallTarget.text, Except.ok.injEq] at hs
    subst hs
    simpa using CalleeText.builtin (h.numbers n (by simp [Instr.numbers]))
  | dynamic o => exact .dynamic (h.operandText (by simp [Instr.operands]) hs)
  | unknown kind => cases hs

/-- The text of a terminator fills the layout of its form. -/
theorem exists_terminatorParts {t : Terminator} {s : String} (hops : ∀ o ∈ t.operands, o.Regular)
    (hblocks : ∀ b ∈ t.successors, IsFloat b) (hs : t.text = .ok s) :
    ∃ form fields b, TerminatorParts t form fields ∧ form ∈ TerminatorForm.all ∧
      Fills form.layout.holes fields b ∧ s.toList = form.layout.opening.toList ++ b := by
  cases t with
  | branch block =>
    simp only [Terminator.text, Except.ok.injEq] at hs
    subst hs
    refine ⟨_, _, _, .branch, by decide,
      .cons ⟨hblocks _ (by simp [Terminator.successors]), rfl⟩ .nil, ?_⟩
    simp [TerminatorForm.layout, blockText]
  | branchCond condition trueBlock falseBlock =>
    simp only [Terminator.text, bind_eq_ok_iff, pure_eq_ok_iff] at hs
    obtain ⟨c, hc, rfl⟩ := hs
    refine ⟨_, _, _, .branchCond, by decide,
      .cons (operandText_of_text (hops _ (by simp [Terminator.operands])) hc)
        (.cons ⟨hblocks _ (by simp [Terminator.successors]), rfl⟩
          (.cons ⟨hblocks _ (by simp [Terminator.successors]), rfl⟩ .nil)), ?_⟩
    simp [TerminatorForm.layout, blockText]
  | switch condition cases defaultBlock =>
    simp only [Terminator.text, bind_eq_ok_iff, pure_eq_ok_iff, mapM_eq_ok_iff] at hs
    obtain ⟨cs, hcs, c, hc, rfl⟩ := hs
    have hcases : ∀ x ∈ cases, ∀ s, Terminator.caseText x = .ok s → CaseText x s.toList := by
      intro x hx s hs
      refine caseText_of_text (hops x.1 ?_) (hblocks x.2 ?_) hs
      · exact List.mem_cons_of_mem _ (List.mem_map_of_mem hx)
      · exact List.mem_append_left _ (List.mem_map_of_mem hx)
    refine ⟨_, _, _, .switch, by decide,
      .cons (operandText_of_text (hops _ (by simp [Terminator.operands])) hc)
        (.cons (joined_of_forall₂ hcs hcases ", ")
          (.cons ⟨hblocks _ (by simp [Terminator.successors]), rfl⟩ .nil)), ?_⟩
    simp [TerminatorForm.layout, blockText]
  | ret values =>
    cases values with
    | nil =>
      simp only [Terminator.text, List.isEmpty_nil, if_true, Except.ok.injEq] at hs
      subst hs
      exact ⟨_, _, _, .retNone, by decide, .nil, by simp [TerminatorForm.layout]⟩
    | cons o os =>
      simp only [Terminator.text, List.isEmpty_cons, Bool.false_eq_true, if_false, bind_eq_ok_iff,
        pure_eq_ok_iff] at hs
      obtain ⟨r, hr, rfl⟩ := hs
      refine ⟨_, _, _, .ret, by decide, .cons (operandsText_of_text hops hr) .nil, ?_⟩
      simp [TerminatorForm.layout]
  | returnData data length =>
    simp only [Terminator.text, bind_eq_ok_iff, pure_eq_ok_iff] at hs
    obtain ⟨d, hd, l, hl, rfl⟩ := hs
    refine ⟨_, _, _, .returnData, by decide,
      .cons (operandText_of_text (hops _ (by simp [Terminator.operands])) hd)
        (.cons (operandText_of_text (hops _ (by simp [Terminator.operands])) hl) .nil), ?_⟩
    simp [TerminatorForm.layout]
  | returnCode code =>
    simp only [Terminator.text, Except.ok.injEq] at hs
    subst hs
    refine ⟨_, _, _, .returnCode, by cases code <;> decide, .nil, ?_⟩
    simp [TerminatorForm.layout]
  | assertFailure encodedArgs =>
    cases encodedArgs with
    | none =>
      simp only [Terminator.text, Except.ok.injEq] at hs
      subst hs
      exact ⟨_, _, _, .assertFailure, by decide, .nil, by simp [TerminatorForm.layout]⟩
    | some o =>
      simp only [Terminator.text, bind_eq_ok_iff, pure_eq_ok_iff] at hs
      obtain ⟨r, hr, rfl⟩ := hs
      refine ⟨_, _, _, .assertFailureWith, by decide,
        .cons (operandText_of_text (hops _ (by simp [Terminator.operands])) hr) .nil, ?_⟩
      simp [TerminatorForm.layout]
  | unimplemented reachable =>
    simp only [Terminator.text, Except.ok.injEq] at hs
    subst hs
    refine ⟨_, _, _, .unimplemented, by cases reachable <;> decide, .nil, ?_⟩
    simp [TerminatorForm.layout]

/-- A line without a head. -/
theorem written_of_fills {xs : List VarId} {form : Form} {fields : List Field} {b s : List Char}
    (hxs : ∀ x ∈ xs, IsFloat x) (hmem : form ∈ Form.all) (hhead : form.head? = none)
    (hb : Fills form.layout.holes fields b)
    (hs : s = (resultsText xs).toList ++ (form.layout.opening.toList ++ b)) :
    Line.Written ⟨xs, none, form, fields⟩ s :=
  ⟨hmem, hhead, fun _ => rfl, _, [], b, resultsText_of_isFloat hxs, .none, hb, hs⟩

/-- The text of an instruction is a line. -/
theorem exists_instrLine {i : Instr} {location : Location} {s : String} (h : i.Regular)
    (hs : i.text location = .ok s) : ∃ l, InstrLine i l ∧ l.Written s.toList := by
  cases i with
  | nop =>
    simp only [Instr.text, Except.ok.injEq] at hs
    subst hs
    exact ⟨_, .nop, written_of_fills h.definitions (by decide) rfl .nil
      (by simp [Form.layout, resultsText])⟩
  | set x e =>
    simp only [Instr.text, bind_eq_ok_iff, pure_eq_ok_iff] at hs
    obtain ⟨r, hr, rfl⟩ := hs
    obtain ⟨head, form, fields, hparts, hmem, hhead, t, b, ht, hb, heq⟩ :=
      exists_exprParts ⟨h.operands, h.numbers, h.types⟩ hr
    refine ⟨_, .set hparts, ?_, hhead, by simp, _, t, b, resultsText_of_isFloat h.definitions, ht,
      hb, ?_⟩
    · exact List.mem_append_left _ (List.mem_append_left _ (List.mem_append_left _
        (List.mem_map_of_mem hmem)))
    · show _ = (resultsText [x]).toList ++ (t ++ (form.layout.opening.toList ++ b))
      rw [← heq, resultsText_singleton]
      simp
  | store dest data =>
    simp only [Instr.text, bind_eq_ok_iff, pure_eq_ok_iff] at hs
    obtain ⟨d, hd, p, hp, rfl⟩ := hs
    refine ⟨_, .store, written_of_fills h.definitions (by decide) rfl
      (.cons (h.operandText (by simp [Instr.operands]) hd)
        (.cons (h.operandText (by simp [Instr.operands]) hp) .nil)) ?_⟩
    simp [Form.layout, resultsText]
  | loadStorage x storage =>
    simp only [Instr.text, bind_eq_ok_iff, pure_eq_ok_iff] at hs
    obtain ⟨r, hr, rfl⟩ := hs
    refine ⟨_, .loadStorage, written_of_fills h.definitions (by decide) rfl
      (.cons (h.operandText (by simp [Instr.operands]) hr) .nil) ?_⟩
    simp [Form.layout, resultsText_singleton]
  | clearStorage storage =>
    simp only [Instr.text, bind_eq_ok_iff, pure_eq_ok_iff] at hs
    obtain ⟨r, hr, rfl⟩ := hs
    refine ⟨_, .clearStorage, written_of_fills h.definitions (by decide) rfl
      (.cons (h.operandText (by simp [Instr.operands]) hr) .nil) ?_⟩
    simp [Form.layout, resultsText]
  | setStorage storage value =>
    simp only [Instr.text, bind_eq_ok_iff, pure_eq_ok_iff] at hs
    obtain ⟨r, hr, v, hv, rfl⟩ := hs
    refine ⟨_, .setStorage, written_of_fills h.definitions (by decide) rfl
      (.cons (h.operandText (by simp [Instr.operands]) hr)
        (.cons (h.operandText (by simp [Instr.operands]) hv) .nil)) ?_⟩
    simp [Form.layout, resultsText]
  | setStorageBytes storage offset value =>
    simp only [Instr.text, bind_eq_ok_iff, pure_eq_ok_iff] at hs
    obtain ⟨r, hr, i, hi, v, hv, rfl⟩ := hs
    refine ⟨_, .setStorageBytes, written_of_fills h.definitions (by decide) rfl
      (.cons (h.operandText (by simp [Instr.operands]) hr)
        (.cons (h.operandText (by simp [Instr.operands]) hi)
          (.cons (h.operandText (by simp [Instr.operands]) hv) .nil))) ?_⟩
    simp [Form.layout, resultsText]
  | pushStorage x storage value =>
    simp only [Instr.text, bind_eq_ok_iff, pure_eq_ok_iff] at hs
    obtain ⟨r, hr, v, hv, rfl⟩ := hs
    refine ⟨_, .pushStorage, written_of_fills h.definitions (by decide) rfl
      (.cons (h.operandText (by simp [Instr.operands]) hr)
        (.cons (optional_of_optionalText (fun o ho => h.operands o (List.mem_cons_of_mem _ ho)) hv)
          .nil)) ?_⟩
    simp [Form.layout, resultsText_singleton]
  | popStorage x storage =>
    simp only [Instr.text, bind_eq_ok_iff, pure_eq_ok_iff] at hs
    obtain ⟨r, hr, rfl⟩ := hs
    refine ⟨_, .popStorage rfl, written_of_fills h.definitions (by decide) rfl
      (.cons (h.operandText (by simp [Instr.operands]) hr) .nil) ?_⟩
    simp [Form.layout]
  | pushMemory x y value =>
    simp only [Instr.text, varText, bind_eq_ok_iff, pure_eq_ok_iff] at hs
    obtain ⟨r, hr, rfl⟩ := hs
    have hy : IsFloat y := h.operands (.var y) (by simp [Instr.operands])
    refine ⟨_, .pushMemory, written_of_fills h.definitions (by decide) rfl
      (.cons ⟨hy, rfl⟩
        (.cons (h.operandText (by simp [Instr.operands]) hr) .nil)) ?_⟩
    simp [Form.layout, resultsText_singleton, varText]
  | popMemory x y =>
    simp only [Instr.text, varText, Except.ok.injEq] at hs
    subst hs
    have hy : IsFloat y := h.operands (.var y) (by simp [Instr.operands])
    refine ⟨_, .popMemory, written_of_fills h.definitions (by decide) rfl
      (.cons ⟨hy, rfl⟩ .nil) ?_⟩
    simp [Form.layout, resultsText_singleton, varText]
  | memCopy source dest bytes =>
    simp only [Instr.text, bind_eq_ok_iff, pure_eq_ok_iff] at hs
    obtain ⟨r, hr, d, hd, n, hn, rfl⟩ := hs
    refine ⟨_, .memCopy, written_of_fills h.definitions (by decide) rfl
      (.cons (h.operandText (by simp [Instr.operands]) hr)
        (.cons (h.operandText (by simp [Instr.operands]) hd)
          (.cons (h.operandText (by simp [Instr.operands]) hn) .nil))) ?_⟩
    simp [Form.layout, resultsText]
  | writeBuffer buffer offset value =>
    simp only [Instr.text, bind_eq_ok_iff, pure_eq_ok_iff] at hs
    obtain ⟨r, hr, i, hi, v, hv, rfl⟩ := hs
    refine ⟨_, .writeBuffer, written_of_fills h.definitions (by decide) rfl
      (.cons (h.operandText (by simp [Instr.operands]) hr)
        (.cons (h.operandText (by simp [Instr.operands]) hi)
          (.cons (h.operandText (by simp [Instr.operands]) hv) .nil))) ?_⟩
    simp [Form.layout, resultsText]
  | print operand =>
    simp only [Instr.text, bind_eq_ok_iff, pure_eq_ok_iff] at hs
    obtain ⟨r, hr, rfl⟩ := hs
    refine ⟨_, .print, written_of_fills h.definitions (by decide) rfl
      (.cons (h.operandText (by simp [Instr.operands]) hr) .nil) ?_⟩
    simp [Form.layout, resultsText]
  | emitEvent event topics data =>
    simp only [Instr.text, bind_eq_ok_iff, pure_eq_ok_iff] at hs
    obtain ⟨ts, hts, d, hd, rfl⟩ := hs
    refine ⟨_, .emitEvent, written_of_fills h.definitions (by decide) rfl
      (.cons ⟨h.numbers event (by simp [Instr.numbers]), rfl⟩
        (.cons (operandsText_of_text (fun o ho => h.operands o (by simp [Instr.operands, ho])) hts)
          (.cons (h.operandText (by simp [Instr.operands]) hd) .nil))) ?_⟩
    simp [Form.layout, resultsText]
  | call xs callee args =>
    simp only [Instr.text, bind_eq_ok_iff, pure_eq_ok_iff] at hs
    obtain ⟨c, hc, r, hr, rfl⟩ := hs
    have hargs : ∀ o ∈ args, o.Regular := fun o ho => h.operands o (by
      cases callee <;> simp [Instr.operands, ho])
    refine ⟨_, .call, written_of_fills h.definitions (by decide) rfl
      (.cons (calleeText_of_text h hc) (.cons (operandsText_of_text hargs hr) .nil)) ?_⟩
    simp [Form.layout]
  | valueTransfer x address value =>
    simp only [Instr.text, bind_eq_ok_iff, pure_eq_ok_iff] at hs
    obtain ⟨v, hv, a, ha, rfl⟩ := hs
    refine ⟨_, .valueTransfer rfl, written_of_fills h.definitions (by decide) rfl
      (.cons (h.operandText (by simp [Instr.operands]) hv)
        (.cons (h.operandText (by simp [Instr.operands]) ha) .nil)) ?_⟩
    simp [Form.layout]
  | selfDestruct recipient =>
    simp only [Instr.text, bind_eq_ok_iff, pure_eq_ok_iff] at hs
    obtain ⟨r, hr, rfl⟩ := hs
    refine ⟨_, .selfDestruct, written_of_fills h.definitions (by decide) rfl
      (.cons (h.operandText (by simp [Instr.operands]) hr) .nil) ?_⟩
    simp [Form.layout, resultsText]
  | terminate t =>
    obtain ⟨form, fields, b, hparts, hmem, hb, heq⟩ :=
      exists_terminatorParts h.operands h.blocks hs
    refine ⟨_, .terminate hparts, written_of_fills h.definitions ?_ rfl hb ?_⟩
    · exact List.mem_append_left _ (List.mem_append_left _ (List.mem_append_right _
        (List.mem_map_of_mem hmem)))
    · simpa [resultsText, Instr.definitions, Form.layout] using heq
  | phi x inputs =>
    simp only [Instr.text, bind_eq_ok_iff, pure_eq_ok_iff, mapM_eq_ok_iff] at hs
    obtain ⟨rs, hrs, rfl⟩ := hs
    have hinputs : ∀ i ∈ inputs, ∀ s, i.text = .ok s → PhiInputText i s.toList :=
      fun i hi s hs => phiInputText_of_text (h.operands _ (List.mem_map_of_mem hi))
        (h.numbers _ (List.mem_map_of_mem hi)) hs
    refine ⟨_, .phi, written_of_fills h.definitions (by decide) rfl
      (.cons (joined_of_forall₂ hrs hinputs ", ") .nil) ?_⟩
    simp [Form.layout, resultsText_singleton]
  | externalCall c =>
    obtain ⟨x, address, accounts, seeds, payload, value, gas, callType, f, flags⟩ := c
    simp only [Instr.text, ExternalCall.text, bind_eq_ok_iff, pure_eq_ok_iff] at hs
    obtain ⟨a, ha, p, hp, v, hv, g, hg, ac, hac, sd, hsd, fl, hfl, rfl⟩ := hs
    have hops : ∀ o ∈ address.toList ++ [payload, value, gas] ++ accounts.toList ++ seeds.toList ++
        flags.toList, o.Regular := h.operands
    refine ⟨_, .externalCall rfl,
      written_of_fills h.definitions (by cases callType <;> decide) rfl
      (.cons (optional_of_labelledText (fun o ho => hops o (by simp [ho])) rfl ha)
      (.cons (operandText_of_text (hops _ (by simp)) hp)
      (.cons (operandText_of_text (hops _ (by simp)) hv)
      (.cons (operandText_of_text (hops _ (by simp)) hg)
      (.cons (optional_of_labelledText (fun o ho => hops o (by simp [ho])) rfl hac)
      (.cons (optional_of_labelledText (fun o ho => hops o (by simp [ho])) rfl hsd)
      (.cons (optionText_contractFunction h.numbers)
      (.cons (optional_of_labelledText (fun o ho => hops o (by simp [ho])) rfl hfl) .nil)))))))) ?_⟩
    simp [Form.layout]
  | create c =>
    obtain ⟨x, y, contract, number, args, value, gas, salt, address, seeds, accounts⟩ := c
    simp only [Instr.text, Creation.text, bind_eq_ok_iff, pure_eq_ok_iff] at hs
    obtain ⟨sa, hsa, v, hv, g, hg, a, ha, sd, hsd, r, hr, ac, hac, rfl⟩ := hs
    have hops : ∀ o ∈ salt.toList ++ value.toList ++ [gas] ++ address.toList ++ seeds.toList ++
        [args] ++ accounts.toList, o.Regular := h.operands
    have hnumbers : ∀ n ∈ contract :: number.toList, IsFloat n := h.numbers
    refine ⟨_, .create rfl, written_of_fills h.definitions (by decide) rfl
      (.cons (optionText_number fun n hn => hnumbers n (List.mem_cons_of_mem _ hn))
      (.cons ⟨hnumbers contract (by simp), rfl⟩
      (.cons (optional_of_labelledText (fun o ho => hops o (by simp [ho])) rfl hsa)
      (.cons (optional_of_labelledText (fun o ho => hops o (by simp [ho])) rfl hv)
      (.cons (operandText_of_text (hops _ (by simp)) hg)
      (.cons (optional_of_labelledText (fun o ho => hops o (by simp [ho])) rfl ha)
      (.cons (optional_of_labelledText (fun o ho => hops o (by simp [ho])) rfl hsd)
      (.cons (operandText_of_text (hops _ (by simp)) hr)
      (.cons (optional_of_labelledText (fun o ho => hops o (by simp [ho])) rfl hac)
        .nil))))))))) ?_⟩
    simp [Form.layout]
  | unknown kind => cases hs

end Text

/-- Regular instructions that have the same text are the same instruction, wherever they stand. -/
theorem Instr.eq_of_text_eq {a b : Instr} {locA locB : Location} {s : String} (ha : a.Regular)
    (hb : b.Regular) (hsa : a.text locA = .ok s) (hsb : b.text locB = .ok s) : a = b := by
  obtain ⟨l, hal, hls⟩ := Text.exists_instrLine ha hsa
  obtain ⟨l', hbl, hls'⟩ := Text.exists_instrLine hb hsb
  obtain rfl := Text.Line.eq_of_written hls hls'
  exact hal.inj hbl

/-- A new buffer of arrays: the brackets of the dimensions and of the size stand side by side. -/
def arrayBuffer (element : Ty) : Instr :=
  .set 1 (.allocDynamicBytes (.ptr (.array element [.fixed 3, .dynamic])) (.var 7) (some [1, 171]))

theorem arrayBuffer_regular {t : Ty} (h : t.Regular) (hne : ∀ e ds, t ≠ .array e ds) :
    (arrayBuffer t).Regular where
  definitions x hx := by
    rw [List.mem_singleton.1 hx]
    exact isFloat_of_le (by decide)
  operands o ho := by
    rw [List.mem_singleton.1 ho]
    exact isFloat_of_le (by decide)
  blocks b hb := absurd hb List.not_mem_nil
  numbers n hn := absurd hn List.not_mem_nil
  types t' ht' := by
    rw [List.mem_singleton.1 ht']
    refine .ptr (.array h hne (by simp) fun d hd => ?_)
    rcases List.mem_pair.1 hd with rfl | rfl
    · exact isFloat_of_le (by decide)
    · trivial

theorem arrayBuffer_text : (arrayBuffer (.bytes 32)).text {} =
    .ok "%1 = alloc bytes4[3][][%7] \x7b01, ab\x7d;" := by
  rfl

theorem Instr.eq_of_text_eq_arrayBuffer :
    (arrayBuffer (.bytes 32)).text {} = .ok "%1 = alloc bytes4[3][][%7] \x7b01, ab\x7d;" ∧
      arrayBuffer (.bytes 32) = arrayBuffer (.byteArray 4) := by
  have hregular : (arrayBuffer (.byteArray 4)).Regular :=
    arrayBuffer_regular (.byteArray (isFloat_of_le (by decide))) nofun
  exact ⟨arrayBuffer_text,
    Instr.eq_of_text_eq hregular hregular arrayBuffer_text arrayBuffer_text⟩

end ContractIR
