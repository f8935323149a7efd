import ContractIR.Proofs.Flow.Insertion
import Mathlib.Algebra.Order.Group.Multiset
import Mathlib.Tactic.Abel

/-!
# ContractIR.Proofs.Flow.Verdict — the verdict does not depend on the order of the blocks

Validation goes through the blocks in the order in which they were added, and remembers on the way
which variables are defined.  This shows in the second definition of a variable: which of two is the
second depends on the order.  How many there are does not, and neither does anything else that is
reported.

* `Validation.blur_blocksDiagnostics`: what is said about the blocks, with the second definitions
  apart from the rest.
* `Validation.repeats_perm`: the second definitions, in any order of the blocks.
* `Func.validate_reorders`: the reports on the same blocks in two orders.
-/

namespace ContractIR

namespace Diagnostic

/-- The diagnostic, without its location if it is about a second definition of a variable. -/
def blurred (d : Diagnostic) : Diagnostic :=
  if d.code = IRFault.duplicateDefinition.code then { d with location := none } else d

/-- What is said, and not where. -/
def gist (d : Diagnostic) : Severity × String × String := (d.severity, d.code, d.message)

theorem gist_blurred (d : Diagnostic) : d.blurred.gist = d.gist := by
  unfold blurred
  split <;> rfl

end Diagnostic

/-- The diagnostics in no order, with second definitions at no location. -/
def blur (ds : List Diagnostic) : Multiset Diagnostic := (ds : Multiset Diagnostic).map .blurred

@[simp] theorem blur_append (ds es : List Diagnostic) : blur (ds ++ es) = blur ds + blur es := by
  rw [blur, ← Multiset.coe_add, Multiset.map_add]
  rfl

theorem blur_eq_of_perm {ds es : List Diagnostic} (h : ds.Perm es) : blur ds = blur es :=
  congrArg (Multiset.map Diagnostic.blurred) (Multiset.coe_eq_coe.2 h)

namespace Validation

/-! ### Second definitions -/

/-- The variables that come up again, given those that came up before. -/
def repeats : (defined : List VarId) → List VarId → List VarId
  | _, [] => []
  | defined, id :: rest => (if id ∈ defined then [id] else []) ++ repeats (id :: defined) rest

/-- A variable comes up again as often as it is defined, except for the first time. -/
theorem count_repeats (defined ids : List VarId) (x : VarId) :
    (repeats defined ids).count x =
      if x ∈ defined then ids.count x else ids.count x - 1 := by
  induction ids generalizing defined with
  | nil => simp [repeats]
  | cons id rest ih =>
    rw [repeats, List.count_append, ih, List.count_cons]
    by_cases hx : id = x
    · subst hx
      by_cases hid : id ∈ defined
      · simp only [hid, if_true, List.count_singleton_self, List.mem_cons_self, beq_self_eq_true]
        omega
      · simp only [hid, if_false, List.count_nil, List.mem_cons_self, if_true, beq_self_eq_true]
        omega
    · have hcount : (if id ∈ defined then [id] else []).count x = 0 := by
        split
        · exact List.count_eq_zero.2 fun hmem => hx (List.mem_singleton.1 hmem).symm
        · rfl
      have hmem : x ∈ id :: defined ↔ x ∈ defined := by
        rw [List.mem_cons, or_iff_right (Ne.symm hx)]
      simp only [hcount, hmem, beq_iff_eq, hx, if_false, Nat.zero_add, Nat.add_zero]

theorem repeats_perm {ids ids' : List VarId} (h : ids.Perm ids') :
    (repeats [] ids).Perm (repeats [] ids') := by
  rw [List.perm_iff_count]
  intro x
  rw [count_repeats, count_repeats, h.count_eq]

theorem repeats_congr {defined defined' : List VarId} (h : ∀ x, x ∈ defined ↔ x ∈ defined')
    (ids : List VarId) : repeats defined ids = repeats defined' ids := by
  induction ids generalizing defined defined' with
  | nil => rfl
  | cons id rest ih =>
    have hcons : ∀ x, x ∈ id :: defined ↔ x ∈ id :: defined' := by
      intro x
      rw [List.mem_cons, List.mem_cons, h]
    simp only [repeats, h, ih hcons]

theorem repeats_append (defined xs ys : List VarId) :
    repeats defined (xs ++ ys) = repeats defined xs ++ repeats (defined ++ xs) ys := by
  induction xs generalizing defined with
  | nil => rw [List.nil_append, List.append_nil]; rfl
  | cons x xs ih =>
    have hmem : ∀ z, z ∈ x :: defined ++ xs ↔ z ∈ defined ++ x :: xs := by
      intro z
      simp only [List.cons_append, List.mem_cons, List.mem_append]
      exact or_left_comm
    rw [List.cons_append, repeats, repeats, ih, repeats_congr hmem, List.append_assoc]

/-- The error for a second definition, at no location. -/
def secondDefinition (id : VarId) : Diagnostic :=
  .irError .duplicateDefinition (some (varText id)) none

/-- What is wrong with a definition on its own. -/
def undeclared (table : VarTable) (place : Location) (site : VarId × Nat) : List Diagnostic :=
  if table.contains site.1 then []
  else [.irError .unknownVariable (some (varText site.1)) (atInstr place site.2)]

theorem blur_definitions (table : VarTable) (place : Location) (defined : List VarId)
    (sites : List (VarId × Nat)) :
    blur (definitions table place defined sites) =
      blur (sites.flatMap (undeclared table place)) +
        ((repeats defined (sites.map Prod.fst)).map secondDefinition : List Diagnostic) := by
  induction sites generalizing defined with
  | nil => rfl
  | cons site sites ih =>
    obtain ⟨id, index⟩ := site
    have hsecond : blur (if id ∈ defined then
          [.irError .duplicateDefinition (some (varText id)) (atInstr place index)] else []) =
        ((if id ∈ defined then [id] else []).map secondDefinition : List Diagnostic) := by
      split <;> rfl
    rw [definitions, blur_append, blur_append, ih, hsecond, List.flatMap_cons, blur_append,
      List.map_cons, repeats, List.map_append, ← Multiset.coe_add]
    exact add_add_add_comm _ _ _ _

/-! ### Blocks -/

/-- What is to be said about a block, apart from second definitions. -/
def ownDiagnostics (f : Func) (e : BlockId × Block) : List Diagnostic :=
  storedKey (atBlock f e.1) e.1 e.2 ++ layout (atBlock f e.1) e.2 ++
    (definitionSites e.2).flatMap (undeclared f.table (atBlock f e.1)) ++
      phis (atBlock f e.1) (f.predecessors e.1) e.2

theorem blur_blocksDiagnostics (f : Func) (defined : List VarId) (es : List (BlockId × Block)) :
    blur (blocksDiagnostics f defined es) =
      blur (es.flatMap (ownDiagnostics f)) +
        ((repeats defined (es.flatMap fun e => e.2.definitions)).map secondDefinition :
          List Diagnostic) := by
  induction es generalizing defined with
  | nil => rfl
  | cons e es ih =>
    obtain ⟨key, b⟩ := e
    have hblock : blur (blockDiagnostics f defined key b) =
        blur (ownDiagnostics f (key, b)) +
          ((repeats defined b.definitions).map secondDefinition : List Diagnostic) := by
      simp only [blockDiagnostics, ownDiagnostics, blur_append, blur_definitions,
        map_fst_definitionSites]
      abel
    rw [blocksDiagnostics, blur_append, hblock, ih, List.flatMap_cons, List.flatMap_cons,
      blur_append, repeats_append, List.map_append, ← Multiset.coe_add]
    exact add_add_add_comm _ _ _ _

/-! ### Predecessors in another order -/

theorem phiInputs_congr {preds preds' : List BlockId} (h : ∀ p, p ∈ preds ↔ p ∈ preds')
    (place : Option Location) (result : VarId) (covered : List BlockId) (inputs : List PhiInput) :
    phiInputs place preds result covered inputs = phiInputs place preds' result covered inputs := by
  induction inputs generalizing covered with
  | nil => rfl
  | cons input inputs ih => simp only [phiInputs, h, ih]

theorem phis_perm {preds preds' : List BlockId} (h : preds.Perm preds') (place : Location)
    (b : Block) : (phis place preds b).Perm (phis place preds' b) := by
  refine List.Perm.flatMap_left _ ?_
  rintro ⟨⟨result, inputs⟩, index⟩ -
  have hmissing : (missingInputs (atInstr place index) preds result inputs).Perm
      (missingInputs (atInstr place index) preds' result inputs) := (h.filter _).map _
  dsimp only
  rw [phiInputs_congr fun p => h.mem_iff]
  exact hmissing.append_left _

end Validation

namespace Func.Reorders

open Validation

variable {f g : Func} (h : f.Reorders g)

include h

theorem atBlock_eq (key : BlockId) : atBlock g key = atBlock f key := by
  rw [h.rest_eq]
  rfl

theorem table_eq : g.table = f.table := by rw [h.rest_eq]

theorem predecessors_perm (id : BlockId) : (g.predecessors id).Perm (f.predecessors id) :=
  (h.blocks_perm.symm.filter _).map _

theorem definitions_perm : g.definitions.Perm f.definitions :=
  (h.blocks_perm.symm.map Prod.snd).flatMap_right _

theorem contains_eq (id : BlockId) : g.blocks.contains id = f.blocks.contains id := by
  rw [IdMap.contains, IdMap.contains, h.get?_eq]

theorem ownDiagnostics_perm (e : BlockId × Block) :
    (ownDiagnostics g e).Perm (ownDiagnostics f e) := by
  rw [ownDiagnostics, ownDiagnostics, h.atBlock_eq, h.table_eq]
  exact (phis_perm (h.predecessors_perm e.1) _ e.2).append_left _

theorem blur_blocks :
    blur (blocksDiagnostics g [] g.blocks.entries) =
      blur (blocksDiagnostics f [] f.blocks.entries) := by
  have hown : (g.blocks.entries.flatMap (ownDiagnostics g)).Perm
      (f.blocks.entries.flatMap (ownDiagnostics f)) :=
    h.blocks_perm.symm.flatMap fun e _ => h.ownDiagnostics_perm e
  have hdefinitions : (g.blocks.entries.flatMap fun e => e.2.definitions).Perm
      (f.blocks.entries.flatMap fun e => e.2.definitions) :=
    h.blocks_perm.symm.flatMap_right _
  rw [blur_blocksDiagnostics, blur_blocksDiagnostics, blur_eq_of_perm hown,
    Multiset.coe_eq_coe.2 ((repeats_perm hdefinitions).map secondDefinition)]

theorem references_perm : (references g).Perm (references f) := by
  have huse : use g.table g.definitions = use f.table f.definitions := by
    funext place id
    simp only [use, h.table_eq, h.definitions_perm.mem_iff]
  have hjump : jump g = jump f := by
    funext place id
    rw [jump, jump, h.contains_eq]
  have huses : ∀ place b, uses g g.definitions place b = uses f f.definitions place b := by
    intro place b
    rw [uses, uses, huse, hjump]
  refine h.blocks_perm.symm.flatMap ?_
  rintro ⟨key, b⟩ -
  dsimp only
  rw [huses, h.atBlock_eq]

theorem unreachable_perm : g.unreachable.Perm f.unreachable := by
  have hmem : ∀ id, id ∈ g.reachable ↔ id ∈ f.reachable := by
    intro id
    rw [mem_reachable_iff, mem_reachable_iff, h.reached_iff]
  simp only [unreachable, unseen, hmem]
  exact (h.blocks_perm.symm.map Prod.fst).filter _

/-- Of the same blocks in two orders the same is said, except that second definitions may be found
at other places. -/
theorem blur_diagnostics : blur g.diagnostics = blur f.diagnostics := by
  have hname : g.name = f.name := by rw [h.rest_eq]
  unfold diagnostics
  rw [h.entry_eq, h.contains_eq]
  split
  · have hunreachable : (unreachableBlocks g).Perm (unreachableBlocks f) := by
      simp only [unreachableBlocks, h.atBlock_eq]
      exact h.unreachable_perm.map _
    simp only [blur_append, h.blur_blocks, blur_eq_of_perm h.references_perm,
      blur_eq_of_perm hunreachable]
  · rw [missingEntry, missingEntry, h.entry_eq, hname]

end Func.Reorders

/-! ### Reports -/

/-- A report on a check holds every diagnostic, as an error or as a warning. -/
theorem Report.perm_ofDiagnostics (ds : List Diagnostic) :
    ((ofDiagnostics ds).errors ++ (ofDiagnostics ds).warnings).Perm ds := by
  rw [errors_ofDiagnostics, warnings_ofDiagnostics]
  have hwarning : (fun d : Diagnostic => decide (d.severity = .warning)) =
      fun d => !decide (d.severity = .error) := by
    funext d
    cases d.severity <;> rfl
  rw [hwarning]
  exact List.filter_append_perm _ ds

theorem clean_iff_blur {ds : List Diagnostic} :
    Clean ds ↔ ∀ d ∈ blur ds, d.severity = .warning := by
  have hseverity : ∀ d : Diagnostic, d.blurred.severity = d.severity :=
    fun d => congrArg Prod.fst d.gist_blurred
  simp only [Clean, blur, Multiset.mem_map, Multiset.mem_coe, forall_exists_index, and_imp,
    forall_apply_eq_imp_iff₂, hseverity]

/-- Validation succeeds or fails alike on the same blocks in two orders, and says the same things
the same number of times.  Except for second definitions of variables, it says them of the same
places. -/
theorem Func.validate_reorders {f g : Func} (h : f.Reorders g) :
    g.validate.success = f.validate.success ∧
    ((g.validate.errors ++ g.validate.warnings).map Diagnostic.gist).Perm
      ((f.validate.errors ++ f.validate.warnings).map Diagnostic.gist) ∧
    ((g.validate.errors ++ g.validate.warnings).map Diagnostic.blurred).Perm
      ((f.validate.errors ++ f.validate.warnings).map Diagnostic.blurred) := by
  have hreport : ∀ k : Func, blur (k.validate.errors ++ k.validate.warnings) = blur k.diagnostics :=
    fun k => blur_eq_of_perm (Report.perm_ofDiagnostics k.diagnostics)
  have hblurred : ((g.validate.errors ++ g.validate.warnings).map Diagnostic.blurred).Perm
      ((f.validate.errors ++ f.validate.warnings).map Diagnostic.blurred) := by
    have hsame := (hreport g).trans (h.blur_diagnostics.trans (hreport f).symm)
    exact Multiset.coe_eq_coe.1 hsame
  have hgist : Diagnostic.gist ∘ Diagnostic.blurred = Diagnostic.gist :=
    funext Diagnostic.gist_blurred
  refine ⟨Bool.eq_iff_iff.2 ?_, ?_, hblurred⟩
  · rw [validate, validate, Report.success_iff, Report.success_iff, clean_iff_blur, clean_iff_blur,
      h.blur_diagnostics]
  · have hmap := hblurred.map Diagnostic.gist
    rwa [List.map_map, List.map_map, hgist] at hmap

/-- A block that defines the variable 0 and goes on to another. -/
def definer (id next : BlockId) : BlockId × Block :=
  (id, { id := id, instructions := [.set 0 (.literal (.bool true)), .terminate (.branch next)] })

/-- A loop over blocks that all define the same variable, from block 1. -/
def redefined (blocks : IdMap Block) : Func where
  id := 0
  name := "redefined"
  params := []
  returns := []
  entry := 1
  blocks := blocks
  table := ⟨#[⟨.bool, none⟩]⟩

/-- The second definition is the one in the block that was added later. -/
theorem Func.validate_reorders_redefined :
    let f := redefined ⟨[definer 1 2, definer 2 1], by decide⟩
    let g := redefined ⟨[definer 2 1, definer 1 2], by decide⟩
    f.Reorders g ∧ g.validate.success = f.validate.success ∧
      ((g.validate.errors ++ g.validate.warnings).map Diagnostic.gist).Perm
        ((f.validate.errors ++ f.validate.warnings).map Diagnostic.gist) ∧
      ((g.validate.errors ++ g.validate.warnings).map Diagnostic.blurred).Perm
        ((f.validate.errors ++ f.validate.warnings).map Diagnostic.blurred) ∧
      f.validate.errors.map Diagnostic.location =
        [some { function := some "redefined", block := some 2, instruction := some 0 }] ∧
      g.validate.errors.map Diagnostic.location =
        [some { function := some "redefined", block := some 1, instruction := some 0 }] := by
  intro f g
  have hreorders : f.Reorders g := ⟨rfl, by decide⟩
  obtain ⟨hsuccess, hgist, hblurred⟩ := Func.validate_reorders hreorders
  refine ⟨hreorders, hsuccess, hgist, hblurred, ?_, ?_⟩ <;> rw [Func.errors_validate rfl] <;> rfl

end ContractIR
