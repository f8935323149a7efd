import ContractIR.Proofs.Flow.Order
import ContractIR.Proofs.Validator

/-!
# ContractIR.Proofs.Flow.Warnings — what validation warns about

Of all checks, only two have warnings: a phi at the start of a block may lack an input from a
predecessor, and a block may be out of reach.  `Func.incompletePhis` and `Func.unreachedBlocks` list
these warnings in terms of edges and paths.  All other checks have nothing but errors (`Fatal`).

* `Validation.filter_warning_phis`: the warnings about the phis of a block.
* `Func.filter_warning_diagnostics`: the warnings about a function.
-/

namespace ContractIR

/-! ### The warnings of a function -/

namespace Func

instance (f : Func) (source target : BlockId) : Decidable (f.Edge source target) :=
  decidable_of_iff _ mem_predecessors_iff

instance (f : Func) (id : BlockId) : Decidable (f.Reached id) :=
  decidable_of_iff _ mem_reachable_iff

/-- The blocks from which control may go to `target` and which none of the inputs names, in the
order in which they were added. -/
def uncovered (f : Func) (target : BlockId) (inputs : List PhiInput) : List BlockId :=
  f.blocks.keys.filter fun p => f.Edge p target ∧ p ∉ inputs.map PhiInput.block

/-- A warning for each predecessor of a block that a phi of the block lacks an input from. -/
def lackingInputs (f : Func) (key : BlockId) (index : Nat) : Instr → List Diagnostic
  | .phi result inputs =>
    (f.uncovered key inputs).map fun p =>
      .irWarning .incompletePhi (some (varText result ++ " has no input from " ++ blockText p))
        (some { function := some f.name, block := some key, instruction := some index })
  | _ => []

/-- The warnings about the phis at the starts of blocks. -/
def incompletePhis (f : Func) : List Diagnostic :=
  f.blocks.entries.flatMap fun e =>
    (e.2.instructions.takeWhile Instr.isPhi).zipIdx.flatMap fun p => f.lackingInputs e.1 p.2 p.1

/-- The warnings about the blocks to which there is no path from the entry. -/
def unreachedBlocks (f : Func) : List Diagnostic :=
  (f.blocks.keys.filter fun key => ¬ f.Reached key).map fun key =>
    .irWarning .unreachableBlock (some (blockText key))
      (some { function := some f.name, block := some key })

end Func

/-! ### The two checks with warnings -/

namespace Validation

variable {place : Location}

theorem filter_warning_phis (preds : List BlockId) (b : Block) :
    (phis place preds b).filter (fun d => d.severity = .warning) =
      b.phis.zipIdx.flatMap fun p => missingInputs (atInstr place p.2) preds p.1.1 p.1.2 := by
  rw [phis, List.filter_flatMap]
  refine List.flatMap_congr fun p _ => ?_
  rw [List.filter_append, (fatal_phiInputs _ _ _ _ _).filter_warning,
    (clean_missingInputs _ _ _ _).filter_warning, List.nil_append]

theorem filter_warning_blocksDiagnostics (f : Func) (defined : List VarId)
    (es : List (BlockId × Block)) :
    (blocksDiagnostics f defined es).filter (fun d => d.severity = .warning) =
      es.flatMap fun e => e.2.phis.zipIdx.flatMap fun p =>
        missingInputs (atInstr (atBlock f e.1) p.2) (f.predecessors e.1) p.1.1 p.1.2 := by
  induction es generalizing defined with
  | nil => rfl
  | cons e es ih =>
    rw [blocksDiagnostics, blockDiagnostics, List.filter_append, List.filter_append,
      List.filter_append, List.filter_append, (fatal_storedKey _ _).filter_warning,
      (fatal_layout _).filter_warning, (fatal_definitions _ _ _).filter_warning,
      filter_warning_phis, ih, List.flatMap_cons]
    rfl

end Validation

/-- The phis at the start of a block stand at the same index among the phis and among the
instructions. -/
theorem Block.flatMap_zipIdx_phis {α : Type} (F : (VarId × List PhiInput) × Nat → List α)
    (G : Instr × Nat → List α) (h : ∀ result inputs index,
      G (.phi result inputs, index) = F ((result, inputs), index)) (b : Block) :
    b.phis.zipIdx.flatMap F = (b.instructions.takeWhile Instr.isPhi).zipIdx.flatMap G := by
  unfold phis
  generalize 0 = index
  induction b.instructions generalizing index with
  | nil => rfl
  | cons i is ih =>
    cases i with
    | phi result inputs =>
      simp [List.takeWhile_cons, Instr.isPhi, List.zipIdx_cons, h, ih]
    | _ => rfl

namespace Func

open Validation

variable {f : Func}

theorem predecessors_eq_filter (f : Func) (target : BlockId) :
    f.predecessors target = f.blocks.keys.filter fun p => f.Edge p target := by
  rw [predecessors, IdMap.keys, List.filter_map]
  congr 1
  refine List.filter_congr fun e he => ?_
  have hblock : f.blocks.get? e.1 = some e.2 := IdMap.get?_eq_some_iff.2 he
  simp [edge_iff, hblock]

theorem missingInputs_eq (f : Func) (key : BlockId) (index : Nat) (result : VarId)
    (inputs : List PhiInput) :
    missingInputs (atInstr (atBlock f key) index) (f.predecessors key) result inputs =
      f.lackingInputs key index (.phi result inputs) := by
  simp only [missingInputs, lackingInputs, uncovered, predecessors_eq_filter, List.filter_filter]
  congr 2
  funext p
  simp [Bool.and_comm]

theorem unreachableBlocks_eq (f : Func) : unreachableBlocks f = f.unreachedBlocks := by
  simp only [unreachableBlocks, unreachedBlocks, unreachable, unseen, mem_reachable_iff]
  rfl

/-- The warnings about a function that has its entry block. -/
theorem filter_warning_diagnostics (hentry : f.entry ∈ f.blocks.keys) :
    f.diagnostics.filter (fun d => d.severity = .warning) =
      f.incompletePhis ++ f.unreachedBlocks := by
  rw [diagnostics, if_pos (IdMap.contains_iff.2 hentry), List.filter_append, List.filter_append,
    filter_warning_blocksDiagnostics, (fatal_references f).filter_warning, List.append_nil,
    (clean_unreachableBlocks f).filter_warning, unreachableBlocks_eq, incompletePhis]
  congr 1
  refine List.flatMap_congr fun e _ => ?_
  exact Block.flatMap_zipIdx_phis _ _
    (fun result inputs index => (missingInputs_eq f e.1 index result inputs).symm) e.2

end Func

namespace Validator

/-- Whatever a validator was used for before, it warns about a function that has its entry block as
follows: block by block and phi by phi about the predecessors without an input, and then about the
blocks to which there is no path from the entry.  Whether the report succeeds depends on the errors
alone. -/
theorem warnings_use_func (f : Func) (v : Validator) :
    (f.entry ∈ f.blocks.keys →
      (use (.func f) v).1.warnings = f.incompletePhis ++ f.unreachedBlocks) ∧
    ((use (.func f) v).1.success = true ↔ (use (.func f) v).1.errors = []) := by
  rw [use_eq]
  constructor
  · intro hentry
    rw [Report.warnings_ofDiagnostics]
    exact Func.filter_warning_diagnostics hentry
  · exact Report.success_iff.trans Report.errors_eq_nil_iff.symm

/-- Control goes to block 2 from block 1, which names it twice, and from block 3, which is out of
reach.  The first phi takes an input from neither, the second from block 1. -/
def merging : Func where
  id := 0
  name := "merging"
  params := []
  returns := []
  entry := 1
  blocks := ⟨[
    (2, { id := 2, instructions :=
      [.phi 0 [⟨.bool true, 2⟩], .phi 1 [⟨.bool true, 1⟩], .terminate (.ret [])] }),
    (1, { id := 1, instructions := [.terminate (.branchCond (.bool true) 2 2)] }),
    (3, { id := 3, instructions := [.terminate (.branch 2)] })], by decide⟩
  table := ⟨#[]⟩

theorem warnings_use_func_merging :
    merging.entry ∈ merging.blocks.keys ∧
      (use (.func merging) {}).1.warnings = merging.incompletePhis ++ merging.unreachedBlocks ∧
      (merging.incompletePhis ++ merging.unreachedBlocks).map
          (fun d => (d.message, d.location.map Location.text)) =
        [("Phi has no input for a predecessor: %0 has no input from block#1",
            some "merging:block#2:0"),
          ("Phi has no input for a predecessor: %0 has no input from block#3",
            some "merging:block#2:0"),
          ("Phi has no input for a predecessor: %1 has no input from block#3",
            some "merging:block#2:1"),
          ("Block is unreachable from the entry block: block#3", some "merging:block#3")] := by
  have hsearch : merging.Search [] [1] _ _ :=
    .enter (by decide) rfl
      (.enter (by decide) rfl (.nil _) (.skip (.inl (by decide)) (.nil _))) (.nil _)
  have hunreachable : merging.unreachable = [3] := Func.unreachable_of_search hsearch
  refine ⟨by decide, (warnings_use_func merging {}).1 (by decide), ?_⟩
  rw [← Func.unreachableBlocks_eq, Validation.unreachableBlocks, hunreachable]
  rfl

end Validator

end ContractIR
