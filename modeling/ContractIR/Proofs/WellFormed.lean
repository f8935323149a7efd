import ContractIR.Validation
import Mathlib.Data.List.Nodup

/-!
# ContractIR.Proofs.WellFormed — validation decides well-formedness

`Func.WellFormed` says what a function in single assignment form is, without mention of the checks.
Every check is characterised on its own, as the condition under which it has nothing but warnings
(`Clean`), and the conditions add up to well-formedness.

* `Validation.clean_layout_iff`, `clean_definitions_iff`, `clean_phis_iff`, `clean_uses_iff`: one
  check each.
* `Func.clean_diagnostics_iff`: all checks of a function together.
* `validation_decides_wellFormed`: the reports on functions and modules, and the errors thrown.
-/

namespace ContractIR

/-! ### The notion -/

namespace Instr

/-- Neither a phi nor a terminator. -/
def IsPlain (i : Instr) : Prop := i.isPhi = false ∧ i.isTerminator = false

end Instr

namespace Block

/-- Phis, then plain instructions, then one terminator. -/
def LaidOut (b : Block) : Prop :=
  ∃ phis body t, b.instructions = phis ++ body ++ [.terminate t] ∧
    (∀ i ∈ phis, i.isPhi = true) ∧ ∀ i ∈ body, i.IsPlain

end Block

namespace Func

/-- Control may go from the block under `source` to the block under `target`. -/
def Edge (f : Func) (source target : BlockId) : Prop :=
  ∃ b t, f.blocks.get? source = some b ∧ b.terminator? = some t ∧ target ∈ t.successors

/-- A function in single assignment form, all of whose references can be followed. -/
structure WellFormed (f : Func) : Prop where
  entry_mem : f.entry ∈ f.blocks.keys
  stored : ∀ e ∈ f.blocks.entries, e.2.id = e.1
  laidOut : ∀ e ∈ f.blocks.entries, e.2.LaidOut
  assignedOnce : f.definitions.Nodup
  declared : ∀ id ∈ f.definitions, f.table.contains id = true
  readable : ∀ e ∈ f.blocks.entries, ∀ i ∈ e.2.instructions, ∀ id, .var id ∈ i.operands →
    f.table.contains id = true ∧ id ∈ f.definitions
  targets : ∀ e ∈ f.blocks.entries, ∀ t, .terminate t ∈ e.2.instructions →
    ∀ id ∈ t.successors, id ∈ f.blocks.keys
  merges : ∀ e ∈ f.blocks.entries, ∀ result inputs, .phi result inputs ∈ e.2.instructions →
    (inputs.map PhiInput.block).Nodup ∧ ∀ input ∈ inputs, f.Edge input.block e.1

theorem mem_predecessors_iff {f : Func} {source target : BlockId} :
    source ∈ f.predecessors target ↔ f.Edge source target := by
  simp only [predecessors, List.mem_map, List.mem_filter, Edge, Block.successors]
  constructor
  · rintro ⟨⟨k, b⟩, ⟨hb, ht⟩, rfl⟩
    cases h : b.terminator? with
    | none => simp [h] at ht
    | some t => exact ⟨b, t, IdMap.get?_eq_some_iff.2 hb, h, by simpa [h] using ht⟩
  · rintro ⟨b, t, hb, h, ht⟩
    exact ⟨(source, b), ⟨IdMap.get?_eq_some_iff.1 hb, by simpa [h] using ht⟩, rfl⟩

end Func

/-! ### Diagnostics without errors -/

/-- None of the diagnostics is an error. -/
def Clean (ds : List Diagnostic) : Prop := ∀ d ∈ ds, d.severity = .warning

@[simp] theorem clean_nil : Clean [] := by simp [Clean]

@[simp] theorem clean_append {ds es : List Diagnostic} :
    Clean (ds ++ es) ↔ Clean ds ∧ Clean es := by
  simp [Clean, or_imp, forall_and]

theorem forall_mem_zipIdx {α : Type} {l : List α} {P : α → Prop} :
    (∀ p ∈ l.zipIdx, P p.1) ↔ ∀ a ∈ l, P a := by
  constructor
  · intro h a ha
    obtain ⟨index, hindex⟩ := List.getElem?_of_mem ha
    exact h (a, index) (List.mk_mem_zipIdx_iff_getElem?.2 hindex)
  · exact fun h p hp => h p.1 (List.fst_mem_of_mem_zipIdx hp)

theorem clean_flatMap {α : Type} {l : List α} {f : α → List Diagnostic} :
    Clean (l.flatMap f) ↔ ∀ a ∈ l, Clean (f a) := by
  simp only [Clean, List.mem_flatMap]
  exact ⟨fun h a ha d hd => h d ⟨a, ha, hd⟩, fun h d ⟨a, ha, hd⟩ => h a ha d hd⟩

@[simp] theorem not_clean_irError (fault : IRFault) (detail : Option String)
    (place : Option Location) : ¬ Clean [.irError fault detail place] := by
  simp [Clean, Diagnostic.irError]

theorem filter_error_eq_nil_iff {ds : List Diagnostic} :
    (ds.filter fun d => d.severity = .error) = [] ↔ Clean ds := by
  rw [List.filter_eq_nil_iff]
  refine forall₂_congr fun d _ => ?_
  cases d.severity <;> simp

namespace Report

theorem errors_eq_nil_iff {ds : List Diagnostic} : (ofDiagnostics ds).errors = [] ↔ Clean ds := by
  rw [errors_ofDiagnostics]
  exact filter_error_eq_nil_iff

theorem success_iff {ds : List Diagnostic} : (ofDiagnostics ds).success = true ↔ Clean ds := by
  rw [← filter_error_eq_nil_iff]
  unfold ofDiagnostics
  dsimp only
  split <;> rename_i h
  · simpa [success, okWith] using h
  · simpa [success, errWith] using h

end Report

/-! ### Layout -/

namespace Validation

variable {place : Location}

theorem clean_placement_iff {index : Nat} {afterOther last : Bool} {i : Instr} :
    Clean (placement place index afterOther last i) ↔
      if i.isPhi then afterOther = false else i.isTerminator = last := by
  cases i <;> cases afterOther <;> cases last <;>
    simp [placement, Instr.isPhi, Instr.isTerminator, Instr.terminator?]

/-- After the first instruction that is no phi there is no phi any more, and the only terminator
stands at the end. -/
theorem clean_placements_true_iff {is : List Instr} {index : Nat} :
    Clean (placements place index true is) ↔
      is = [] ∨ ∃ body t, is = body ++ [.terminate t] ∧ ∀ i ∈ body, i.IsPlain := by
  induction is generalizing index with
  | nil => simp [placements]
  | cons i rest ih =>
    rw [placements, clean_append, clean_placement_iff, Bool.true_or, ih]
    constructor
    · rintro ⟨hi, rfl | ⟨body, t, rfl, hb⟩⟩
      · refine .inr ⟨[], ?_⟩
        cases i <;> simp_all [Instr.isPhi, Instr.isTerminator, Instr.terminator?]
      · refine .inr ⟨i :: body, t, rfl, ?_⟩
        have hp : i.isPhi = false := by by_contra h; simp [h] at hi
        have ht : i.isTerminator = false := by
          rw [hp, if_neg Bool.false_ne_true] at hi
          rw [hi]
          simp
        simpa [Instr.IsPlain, hp, ht] using hb
    · rintro (h | ⟨body, t, h, hb⟩)
      · cases h
      · rcases body with _ | ⟨j, body⟩
        · obtain ⟨rfl, rfl⟩ := List.cons_eq_cons.1 h
          simp [Instr.isPhi, Instr.isTerminator, Instr.terminator?]
        · obtain ⟨rfl, rfl⟩ := List.cons_eq_cons.1 h
          obtain ⟨⟨hp, ht⟩, hb⟩ := List.forall_mem_cons.1 hb
          exact ⟨by simp [hp, ht], .inr ⟨body, t, rfl, hb⟩⟩

/-- The phis at the start are always in place. -/
theorem clean_placements_false_iff {is : List Instr} {index : Nat} :
    Clean (placements place index false is) ↔
      ∃ phis rest, is = phis ++ rest ∧ (∀ i ∈ phis, i.isPhi = true) ∧
        (rest = [] ∨ ∃ body t, rest = body ++ [.terminate t] ∧ ∀ i ∈ body, i.IsPlain) := by
  induction is generalizing index with
  | nil => exact ⟨fun _ => ⟨[], [], by simp⟩, fun _ => by simp [placements]⟩
  | cons i is ih =>
    cases hp : i.isPhi with
    | true =>
      rw [placements, clean_append, clean_placement_iff, hp]
      simp only [if_true, Bool.not_true, Bool.or_false, true_and, ih]
      constructor
      · rintro ⟨phis, rest, rfl, hphis, hrest⟩
        exact ⟨i :: phis, rest, rfl, by simpa [hp] using hphis, hrest⟩
      · rintro ⟨phis, rest, h, hphis, hrest⟩
        rcases phis with _ | ⟨j, phis⟩
        · -- a phi can be no part of what follows the phis
          rcases hrest with rfl | ⟨_ | ⟨k, body⟩, t, rfl, hb⟩
          · cases h
          · obtain ⟨rfl, -⟩ := List.cons_eq_cons.1 h
            cases hp
          · obtain ⟨rfl, -⟩ := List.cons_eq_cons.1 h
            rw [(hb i (by simp)).1] at hp
            cases hp
        · obtain ⟨rfl, rfl⟩ := List.cons_eq_cons.1 h
          exact ⟨phis, rest, rfl, (List.forall_mem_cons.1 hphis).2, hrest⟩
    | false =>
      have hsame : Clean (placements place index false (i :: is)) ↔
          Clean (placements place index true (i :: is)) := by
        simp only [placements, clean_append, clean_placement_iff, hp, Bool.or_true, Bool.not_false,
          Bool.false_eq_true, if_false]
      rw [hsame, clean_placements_true_iff]
      constructor
      · exact fun h => ⟨[], i :: is, rfl, by simp, h⟩
      · rintro ⟨_ | ⟨j, phis⟩, rest, h, hphis, hrest⟩
        · rw [h]
          exact hrest
        · obtain ⟨rfl, -⟩ := List.cons_eq_cons.1 h
          rw [hphis i (by simp)] at hp
          cases hp

theorem clean_phiEnding_iff {b : Block} :
    Clean (phiEnding place b) ↔ ∀ i, b.instructions.getLast? = some i → i.isPhi = false := by
  unfold phiEnding
  cases h : b.instructions.getLast? with
  | none => simp
  | some i => cases hp : i.isPhi <;> simp [hp]

theorem clean_layout_iff {b : Block} : Clean (layout place b) ↔ b.LaidOut := by
  unfold layout Block.LaidOut
  cases hempty : b.instructions.isEmpty with
  | true =>
    rw [List.isEmpty_iff] at hempty
    simp [hempty]
  | false =>
    have hne : b.instructions ≠ [] := by
      intro h
      simp [h] at hempty
    simp only [Bool.false_eq_true, if_false, clean_append, clean_placements_false_iff,
      clean_phiEnding_iff]
    constructor
    · rintro ⟨⟨phis, rest, h, hphis, rfl | ⟨body, t, rfl, hb⟩⟩, hlast⟩
      · -- only phis: then the last instruction is one
        rw [List.append_nil] at h
        have hl := List.getLast?_eq_some_getLast hne
        have hmem : b.instructions.getLast hne ∈ phis := by
          rw [← h]
          exact List.getLast_mem hne
        have hp := hphis _ hmem
        rw [hlast _ hl] at hp
        cases hp
      · exact ⟨phis, body, t, by rw [h, List.append_assoc], hphis, hb⟩
    · rintro ⟨phis, body, t, h, hphis, hb⟩
      refine ⟨⟨phis, body ++ [.terminate t], by rw [h, List.append_assoc], hphis,
        .inr ⟨body, t, rfl, hb⟩⟩, ?_⟩
      intro i hi
      rw [h, List.getLast?_append_cons, List.getLast?_singleton, Option.some.injEq] at hi
      rw [← hi]
      rfl

/-! ### Definitions -/

@[simp] theorem map_fst_definitionSites (b : Block) :
    (definitionSites b).map Prod.fst = b.definitions := by
  unfold definitionSites Block.definitions
  generalize 0 = index
  induction b.instructions generalizing index with
  | nil => rfl
  | cons i is ih => simp [List.zipIdx_cons, ih, Function.comp_def]

theorem clean_definitions_iff {table : VarTable} {defined : List VarId}
    {sites : List (VarId × Nat)} :
    Clean (definitions table place defined sites) ↔
      (∀ id ∈ sites.map Prod.fst, table.contains id = true) ∧ (sites.map Prod.fst).Nodup ∧
        ∀ id ∈ sites.map Prod.fst, id ∉ defined := by
  induction sites generalizing defined with
  | nil => simp [definitions]
  | cons site rest ih =>
    obtain ⟨id, index⟩ := site
    have hd : Clean (if table.contains id then []
        else [.irError .unknownVariable (some (varText id)) (atInstr place index)]) ↔
        table.contains id = true := by
      cases table.contains id <;> simp
    have hn : Clean (if id ∈ defined then
        [.irError .duplicateDefinition (some (varText id)) (atInstr place index)] else []) ↔
        id ∉ defined := by
      by_cases h : id ∈ defined <;> simp [h]
    rw [definitions, clean_append, clean_append, hd, hn, ih, List.map_cons, List.forall_mem_cons,
      List.forall_mem_cons, List.nodup_cons]
    simp only [List.mem_cons, not_or]
    constructor
    · rintro ⟨⟨h1, h2⟩, h3, h4, h5⟩
      exact ⟨⟨h1, h3⟩, ⟨fun h => (h5 id h).1 rfl, h4⟩, h2, fun x hx => (h5 x hx).2⟩
    · rintro ⟨⟨h1, h3⟩, ⟨h6, h4⟩, h2, h5⟩
      exact ⟨⟨h1, h2⟩, h3, h4, fun x hx => ⟨fun h => h6 (h ▸ hx), h5 x hx⟩⟩

/-! ### Phis -/

theorem clean_phiInputs_iff {at? : Option Location} {preds covered : List BlockId}
    {result : VarId} {inputs : List PhiInput} :
    Clean (phiInputs at? preds result covered inputs) ↔
      (∀ input ∈ inputs, input.block ∈ preds) ∧ (inputs.map PhiInput.block).Nodup ∧
        ∀ input ∈ inputs, input.block ∉ covered := by
  induction inputs generalizing covered with
  | nil => simp [phiInputs]
  | cons input rest ih =>
    have hi : Clean (if input.block ∉ preds then
        [.irError .invalidPhiInput (some (inputText result input.block)) at?]
      else if input.block ∈ covered then
        [.irError .duplicatePhiInput (some (inputText result input.block)) at?] else []) ↔
        input.block ∈ preds ∧ input.block ∉ covered := by
      by_cases hp : input.block ∈ preds <;> by_cases hc : input.block ∈ covered <;> simp [hp, hc]
    rw [phiInputs, clean_append, hi, ih, List.map_cons, List.forall_mem_cons,
      List.forall_mem_cons, List.nodup_cons, List.mem_map]
    simp only [List.mem_cons, not_or]
    constructor
    · rintro ⟨⟨h1, h2⟩, h3, h4, h5⟩
      exact ⟨⟨h1, h3⟩, ⟨fun ⟨x, hx, he⟩ => (h5 x hx).1 he, h4⟩, h2, fun x hx => (h5 x hx).2⟩
    · rintro ⟨⟨h1, h3⟩, ⟨h6, h4⟩, h2, h5⟩
      exact ⟨⟨h1, h2⟩, h3, h4, fun x hx => ⟨fun h => h6 ⟨x, hx, h⟩, h5 x hx⟩⟩

theorem clean_missingInputs (at? : Option Location) (preds : List BlockId) (result : VarId)
    (inputs : List PhiInput) : Clean (missingInputs at? preds result inputs) := by
  intro d hd
  obtain ⟨p, -, rfl⟩ := List.mem_map.1 hd
  rfl

theorem mem_phis_iff {b : Block} {p : VarId × List PhiInput} :
    p ∈ b.phis ↔ .phi p.1 p.2 ∈ b.instructions.takeWhile Instr.isPhi := by
  unfold Block.phis
  rw [List.mem_filterMap]
  constructor
  · rintro ⟨i, hi, h⟩
    cases i <;> simp at h
    subst h
    exact hi
  · exact fun h => ⟨_, h, rfl⟩

theorem clean_phis_iff {preds : List BlockId} {b : Block} :
    Clean (phis place preds b) ↔ ∀ p ∈ b.phis,
      (∀ input ∈ p.2, input.block ∈ preds) ∧ (p.2.map PhiInput.block).Nodup := by
  simp only [phis, clean_flatMap, clean_append, clean_missingInputs, and_true, clean_phiInputs_iff,
    List.not_mem_nil, not_false_eq_true, implies_true]
  exact forall_mem_zipIdx (P := fun p : VarId × List PhiInput =>
    (∀ input ∈ p.2, input.block ∈ preds) ∧ (p.2.map PhiInput.block).Nodup)

/-! ### References -/

theorem clean_use_iff {table : VarTable} {defined : List VarId} {at? : Option Location}
    {id : VarId} :
    Clean (use table defined at? id) ↔ table.contains id = true ∧ id ∈ defined := by
  unfold use
  cases table.contains id <;> by_cases h : id ∈ defined <;> simp [h]

theorem clean_jump_iff {f : Func} {at? : Option Location} {id : BlockId} :
    Clean (jump f at? id) ↔ id ∈ f.blocks.keys := by
  unfold jump
  rw [← IdMap.contains_iff]
  cases f.blocks.contains id <;> simp

theorem clean_uses_iff {f : Func} {defined : List VarId} {b : Block} :
    Clean (uses f defined place b) ↔ ∀ i ∈ b.instructions,
      (∀ id ∈ i.uses, f.table.contains id = true ∧ id ∈ defined) ∧
        ∀ id ∈ i.successors, id ∈ f.blocks.keys := by
  simp only [uses, clean_flatMap, clean_append, clean_use_iff, clean_jump_iff]
  exact forall_mem_zipIdx (P := fun i : Instr =>
    (∀ id ∈ i.uses, f.table.contains id = true ∧ id ∈ defined) ∧
      ∀ id ∈ i.successors, id ∈ f.blocks.keys)

theorem clean_references_iff {f : Func} :
    Clean (references f) ↔ ∀ e ∈ f.blocks.entries, ∀ i ∈ e.2.instructions,
      (∀ id ∈ i.uses, f.table.contains id = true ∧ id ∈ f.definitions) ∧
        ∀ id ∈ i.successors, id ∈ f.blocks.keys := by
  simp only [references, clean_flatMap, clean_uses_iff]

/-! ### Blocks and functions -/

theorem clean_storedKey_iff {key : BlockId} {b : Block} :
    Clean (storedKey place key b) ↔ b.id = key := by
  unfold storedKey
  by_cases h : b.id = key <;> simp [h]

/-- Going through the blocks, the definitions of one are compared with those of all before it. -/
theorem clean_blocksDiagnostics_iff {f : Func} {es : List (BlockId × Block)}
    {defined : List VarId} :
    Clean (blocksDiagnostics f defined es) ↔
      (∀ e ∈ es, e.2.id = e.1 ∧ e.2.LaidOut ∧ ∀ p ∈ e.2.phis,
        (∀ input ∈ p.2, input.block ∈ f.predecessors e.1) ∧ (p.2.map PhiInput.block).Nodup) ∧
      (∀ id ∈ es.flatMap fun e => e.2.definitions, f.table.contains id = true) ∧
      (es.flatMap fun e => e.2.definitions).Nodup ∧
      ∀ id ∈ es.flatMap fun e => e.2.definitions, id ∉ defined := by
  induction es generalizing defined with
  | nil => simp [blocksDiagnostics]
  | cons e es ih =>
    obtain ⟨key, b⟩ := e
    rw [blocksDiagnostics, blockDiagnostics, clean_append, clean_append, clean_append, clean_append,
      clean_storedKey_iff, clean_layout_iff, clean_definitions_iff, clean_phis_iff, ih,
      map_fst_definitionSites, List.forall_mem_cons, List.flatMap_cons, List.forall_mem_append,
      List.forall_mem_append, List.nodup_append']
    simp only [List.mem_append, not_or, List.Disjoint]
    constructor
    · rintro ⟨⟨⟨⟨h1, h2⟩, h3, h4, h5⟩, h6⟩, h7, h8, h9, h10⟩
      exact ⟨⟨⟨h1, h2, h6⟩, h7⟩, ⟨h3, h8⟩, ⟨h4, h9, fun x hx hx' => (h10 x hx').2 hx⟩, h5,
        fun x hx => (h10 x hx).1⟩
    · rintro ⟨⟨⟨h1, h2, h6⟩, h7⟩, ⟨h3, h8⟩, ⟨h4, h9, h11⟩, h5, h10⟩
      exact ⟨⟨⟨⟨h1, h2⟩, h3, h4, h5⟩, h6⟩, h7, h8, h9,
        fun x hx => ⟨h10 x hx, fun hx' => h11 hx' hx⟩⟩

theorem clean_unreachableBlocks (f : Func) : Clean (unreachableBlocks f) := by
  intro d hd
  obtain ⟨key, -, rfl⟩ := List.mem_map.1 hd
  rfl

end Validation

namespace Block

/-- In a block that is laid out well, no phi is hidden behind another instruction. -/
theorem LaidOut.mem_phis_iff {b : Block} (h : b.LaidOut) {result : VarId}
    {inputs : List PhiInput} :
    (result, inputs) ∈ b.phis ↔ .phi result inputs ∈ b.instructions := by
  rw [Validation.mem_phis_iff]
  obtain ⟨phis, body, t, he, hphis, hb⟩ := h
  refine ⟨fun hm => List.takeWhile_subset _ hm, fun hm => ?_⟩
  rw [he, List.append_assoc, List.takeWhile_append_of_pos hphis]
  rw [he, List.append_assoc, List.mem_append, List.mem_append] at hm
  rcases hm with hm | hm | hm
  · exact List.mem_append_left _ hm
  · have := (hb _ hm).1
    cases this
  · simp at hm

end Block

namespace Func

open Validation in
/-- The function is well-formed just when there is nothing but warnings to say about it. -/
theorem clean_diagnostics_iff {f : Func} : Clean f.diagnostics ↔ f.WellFormed := by
  unfold diagnostics
  by_cases hentry : f.entry ∈ f.blocks.keys
  · have hdefs : (f.blocks.entries.flatMap fun e => e.2.definitions) = f.definitions := by
      simp [definitions, IdMap.values, List.flatMap_map]
    rw [if_pos (IdMap.contains_iff.2 hentry), clean_append, clean_append,
      clean_blocksDiagnostics_iff, clean_references_iff, hdefs]
    simp only [clean_unreachableBlocks, and_true, mem_predecessors_iff]
    constructor
    · rintro ⟨⟨hblocks, hdecl, hnodup, -⟩, hrefs⟩
      refine ⟨hentry, fun e he => (hblocks e he).1, fun e he => (hblocks e he).2.1, hnodup, hdecl,
        ?_, ?_, ?_⟩
      · intro e he i hi id hid
        exact (hrefs e he i hi).1 id (List.mem_filterMap.2 ⟨_, hid, rfl⟩)
      · intro e he t ht id hid
        exact (hrefs e he _ ht).2 id hid
      · intro e he result inputs hp
        obtain ⟨-, hl, hphis⟩ := hblocks e he
        obtain ⟨h1, h2⟩ := hphis _ (hl.mem_phis_iff.2 hp)
        exact ⟨h2, h1⟩
    · intro h
      refine ⟨⟨fun e he => ⟨h.stored e he, h.laidOut e he, fun p hp => ?_⟩, h.declared,
        h.assignedOnce, by simp⟩, fun e he i hi => ⟨fun id hid => ?_, fun id hid => ?_⟩⟩
      · obtain ⟨h1, h2⟩ := h.merges e he p.1 p.2 ((h.laidOut e he).mem_phis_iff.1 hp)
        exact ⟨h2, h1⟩
      · obtain ⟨o, ho, hv⟩ := List.mem_filterMap.1 hid
        cases o with
        | var id' =>
          cases hv
          exact h.readable e he i hi id ho
        | literal l => cases hv
        | unknown kind => cases hv
      · cases i with
        | terminate t => exact h.targets e he t hi id hid
        | _ => simp [Instr.successors, Instr.terminator?] at hid
  · rw [if_neg (by rwa [IdMap.contains_iff])]
    constructor
    · intro h
      exact absurd h (not_clean_irError _ _ _)
    · intro h
      exact absurd h.entry_mem hentry

/-- Unreachable blocks are no errors, so the errors are found without looking for them. -/
theorem errors_validate {f : Func} (hentry : f.blocks.contains f.entry = true) :
    f.validate.errors = (Validation.blocksDiagnostics f [] f.blocks.entries ++
      Validation.references f).filter fun d => d.severity = .error := by
  rw [validate, Report.errors_ofDiagnostics, diagnostics, if_pos hentry, List.filter_append,
    filter_error_eq_nil_iff.2 (Validation.clean_unreachableBlocks f), List.append_nil]

end Func

/-! ### Reports and thrown errors -/

theorem firstError_eq_error_iff {es : List Diagnostic} {d : Diagnostic} :
    (match es with | [] => .ok () | e :: _ => .error e : Except Diagnostic Unit) = .error d ↔
      es.head? = some d := by
  cases es <;> simp

theorem exists_firstError_iff {es : List Diagnostic} :
    (∃ d, (match es with | [] => .ok () | e :: _ => .error e : Except Diagnostic Unit) =
      .error d) ↔ es ≠ [] := by
  cases es <;> simp

/-- Validation reports no error on a function exactly if the function is well-formed, and none on a
module exactly if all its functions are.  What is thrown otherwise is the first error reported. -/
theorem validation_decides_wellFormed :
    (∀ f : Func, (f.validate.errors = [] ↔ f.WellFormed) ∧
      (f.validate.success = true ↔ f.WellFormed) ∧
      ((∃ d, f.assertWellFormed = .error d) ↔ ¬ f.WellFormed) ∧
      ∀ d, f.assertWellFormed = .error d ↔ f.validate.errors.head? = some d) ∧
    ∀ m : Module, (m.validate.errors = [] ↔ ∀ f ∈ m.functions.values, f.WellFormed) ∧
      (m.validate.success = true ↔ ∀ f ∈ m.functions.values, f.WellFormed) ∧
      ((∃ d, m.assertWellFormed = .error d) ↔ ¬ ∀ f ∈ m.functions.values, f.WellFormed) ∧
      ∀ d, m.assertWellFormed = .error d ↔ m.validate.errors.head? = some d := by
  have hmodule : ∀ m : Module, Clean m.diagnostics ↔ ∀ f ∈ m.functions.values, f.WellFormed := by
    intro m
    simp only [Module.diagnostics, clean_flatMap, Func.clean_diagnostics_iff]
  refine ⟨fun f => ⟨?_, ?_, ?_, fun d => ?_⟩, fun m => ⟨?_, ?_, ?_, fun d => ?_⟩⟩
  · rw [Func.validate, Report.errors_eq_nil_iff, Func.clean_diagnostics_iff]
  · rw [Func.validate, Report.success_iff, Func.clean_diagnostics_iff]
  · rw [← Func.clean_diagnostics_iff, ← Report.errors_eq_nil_iff]
    exact exists_firstError_iff
  · exact firstError_eq_error_iff
  · rw [Module.validate, Report.errors_eq_nil_iff, hmodule]
  · rw [Module.validate, Report.success_iff, hmodule]
  · rw [← hmodule, ← Report.errors_eq_nil_iff]
    exact exists_firstError_iff
  · exact firstError_eq_error_iff

/-- A function of one variable, whose call reads the given variable as its flags. -/
def reader (flags : VarId) : Func where
  id := 0
  name := "reader"
  params := []
  returns := []
  entry := 1
  blocks := ⟨[(1, { id := 1, instructions :=
    [.set 0 (.number (.uint 8) 7),
     .externalCall {
       payload := .var 0, value := .var 0, gas := .var 0, callType := .regular
       flags := some (.var flags) },
     .terminate (.ret [.var 0])] })], List.nodup_singleton _⟩
  table := ⟨#[⟨.uint 8, none⟩]⟩

/-- That the flags are read from a variable that is not declared is the only fault. -/
theorem validation_decides_wellFormed_reader :
    let d : Diagnostic := .irError .unknownVariable (some "%9")
      (some { function := some "reader", block := some 1, instruction := some 1 })
    (reader 0).validate.errors = [] ∧ (reader 0).WellFormed ∧
      (reader 9).validate.errors = [d] ∧ ¬ (reader 9).WellFormed ∧
      (reader 9).assertWellFormed = .error d := by
  intro d
  have hsound : (reader 0).validate.errors = [] := by
    rw [Func.errors_validate rfl]
    decide
  have hfault : (reader 9).validate.errors = [d] := by
    rw [Func.errors_validate rfl]
    decide
  obtain ⟨hfunc, -⟩ := validation_decides_wellFormed
  obtain ⟨hiff, -, -, hthrown⟩ := hfunc (reader 9)
  refine ⟨hsound, (hfunc (reader 0)).1.1 hsound, hfault, fun hwf => ?_, (hthrown d).2 ?_⟩
  · rw [hiff.2 hwf] at hfault
    cases hfault
  · rw [hfault]
    rfl

end ContractIR
