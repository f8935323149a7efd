import ContractIR.Printer
import ContractIR.Proofs.Validator

/-!
# ContractIR.Proofs.Reuse — printers and validators that are used again

A call on a printer may fail midway, and then lines, indentation and everything else stay as they
are.  What later calls depend on is the location alone: between calls a printer stands nowhere
(`Printer.Ready`), however the calls end, and a printer that stands nowhere answers like a new one.
A validator depends on nothing that calls leave behind.
-/

namespace ContractIR

/-! ### Sequences of calls -/

section Answers

variable {σ κ α : Type} {call : κ → σ → α × σ} {alone : κ → α} {Ready : σ → Prop} {s : σ}

/-- The answers to calls that are made one after the other, each on what the last one leaves. -/
def answers (call : κ → σ → α × σ) (s : σ) : List κ → List α
  | [] => []
  | c :: cs => (call c s).1 :: answers call (call c s).2 cs

/-- If a call leaves what is ready as ready as before, no call notices the calls before it. -/
theorem answers_eq_map
    (hcall : ∀ c s, Ready s → (call c s).1 = alone c ∧ Ready (call c s).2) (hs : Ready s)
    (calls : List κ) : answers call s calls = calls.map alone := by
  induction calls generalizing s with
  | nil => rfl
  | cons c calls ih =>
    obtain ⟨hanswer, hready⟩ := hcall c s hs
    rw [answers, List.map_cons, hanswer, ih hready]

end Answers

/-! ### Printers -/

namespace Printer

/-- A call on a printer. -/
inductive Call
  | module (m : Module)
  | func (f : Func)
  | block (b : Block)
  | instr (i : Instr)
  | expr (e : Expr)
  | operand (o : Operand)
  | type (t : Ty)

/-- The piece of printing that a call asks for. -/
def Call.perform : Call → PrintM String
  | module m => printModule m
  | func f => printFunc f
  | block b => printBlock b
  | instr i => printInstr i
  | expr e => printExpr e
  | operand o => printOperand o
  | type t => printType t

/-- The printer stands nowhere.  Nothing is said about its lines and its indentation. -/
def Ready (p : Printer) : Prop := p.location = {}

/-- A text that is begun on a clean sheet. -/
theorem use_render_fresh (write : PrintM Unit) (p : Printer) :
    (use (render write) p).1 = fresh (render write) ∧ Ready (use (render write) p).2 := by
  rw [fresh, use_render, use_render]
  exact ⟨rfl, rfl⟩

/-- A text that depends on the location of the printer. -/
theorem use_get_lift (text : Location → Except Diagnostic String) (p : Printer) :
    use (get >>= fun p => lift (text p.location)) p = (text p.location, p) := by
  have hget : use get p = (.ok p, p) := rfl
  rw [use_bind, hget]
  rfl

/-- A printer that stands nowhere answers like a new one, and again stands nowhere. -/
theorem use_perform (c : Call) (p : Printer) (hp : Ready p) :
    (use c.perform p).1 = fresh c.perform ∧ Ready (use c.perform p).2 := by
  have htext (text : Location → Except Diagnostic String) :
      (use (get >>= fun p => lift (text p.location)) p).1 =
          fresh (get >>= fun p => lift (text p.location)) ∧
        Ready (use (get >>= fun p => lift (text p.location)) p).2 := by
    rw [fresh, use_get_lift, use_get_lift, hp]
    exact ⟨rfl, hp⟩
  cases c with
  | module m => exact use_render_fresh (writeModule m) p
  | func f => exact use_render_fresh (writeFunc f) p
  | block b => exact use_render_fresh (writeBlock b) p
  | instr i => exact htext i.text
  | expr e => exact htext e.text
  | operand o => exact ⟨rfl, hp⟩
  | type t => exact ⟨rfl, hp⟩

end Printer

/-! ### Validators -/

namespace Validator

theorem fresh_eq (s : Subject) : fresh s = .ofDiagnostics s.diagnostics := use_eq s {}

theorem errors_fresh_module (m : Module) :
    (fresh (.module m)).errors =
      m.functions.values.flatMap fun f => (fresh (.func f)).errors := by
  simp only [fresh_eq, Report.errors_ofDiagnostics, Subject.diagnostics, Module.diagnostics,
    List.filter_flatMap]

theorem warnings_fresh_module (m : Module) :
    (fresh (.module m)).warnings =
      m.functions.values.flatMap fun f => (fresh (.func f)).warnings := by
  simp only [fresh_eq, Report.warnings_ofDiagnostics, Subject.diagnostics, Module.diagnostics,
    List.filter_flatMap]

end Validator

/-- However often a printer or a validator is used, each call is answered as by a new one, also
after calls that failed.  The report on a module has the errors and the warnings of its functions,
one function after the other. -/
theorem answers_eq_fresh :
    (∀ calls : List Printer.Call, answers (fun c => Printer.use c.perform) {} calls =
        calls.map fun c => Printer.fresh c.perform) ∧
      (∀ subjects : List Subject, answers Validator.use {} subjects =
        subjects.map Validator.fresh) ∧
      (∀ f : Func, Validator.fresh (.func f) = f.validate) ∧
      ∀ m : Module, Validator.fresh (.module m) = m.validate ∧
        (Validator.fresh (.module m)).errors =
          m.functions.values.flatMap (fun f => (Validator.fresh (.func f)).errors) ∧
        (Validator.fresh (.module m)).warnings =
          m.functions.values.flatMap fun f => (Validator.fresh (.func f)).warnings := by
  have hvalidator : ∀ s v, True → (Validator.use s v).1 = Validator.fresh s ∧ True := by
    intro s v _
    exact ⟨by rw [Validator.fresh_eq, Validator.use_eq], trivial⟩
  refine ⟨answers_eq_map Printer.use_perform rfl, answers_eq_map hvalidator trivial,
    fun f => Validator.fresh_eq (.func f), fun m => ⟨Validator.fresh_eq (.module m), ?_, ?_⟩⟩
  · exact Validator.errors_fresh_module m
  · exact Validator.warnings_fresh_module m

end ContractIR
