import ContractIR.Validator
import Mathlib.Data.List.Basic

/-!
# ContractIR.Proofs.Validator — what a validator reports

A validator adds message after message at the location where it stands.  `Validator.Adds P x a ds Q`
says that the piece `x`, begun at a location with `P`, returns `a`, adds the messages `ds` and ends
at a location with `Q`.  With one rule for each form of a piece, every check is shown to add what
`ContractIR.Validation` lists, wherever the validator stood before.

* `Validator.adds_layout`, `adds_definitions`, `adds_uses`, `adds_phis`: one check each.
* `Validator.adds_func`: all checks of a function.
* `Validator.use_eq`: the report, whatever the validator was used for before.
-/

namespace ContractIR

/-- What is to be said about a function or a module. -/
def Subject.diagnostics : Subject → List Diagnostic
  | .func f => f.diagnostics
  | .module m => m.diagnostics

namespace Validator

open Validation

/-! ### Pieces of validation -/

section Rules

variable {α β ι : Type} {P P' Q Q' R : Location → Prop} {x y : ValidateM α} {f : α → ValidateM β}
  {a : α} {b : β} {ds es : List Diagnostic}

/-- Begun at a location with `P`, the piece `x` returns `a`, adds the messages `ds` and ends at a
location with `Q`. -/
def Adds (P : Location → Prop) (x : ValidateM α) (a : α) (ds : List Diagnostic)
    (Q : Location → Prop) : Prop :=
  ∀ messages l, P l → ∃ l', Q l' ∧ x.run ⟨messages, l⟩ = (a, ⟨messages ++ ds.toArray, l'⟩)

theorem Adds.mono (h : Adds P x a ds Q) (hP : ∀ l, P' l → P l) (hQ : ∀ l, Q l → Q' l) :
    Adds P' x a ds Q' := by
  intro messages l hl
  obtain ⟨l', hl', hrun⟩ := h messages l (hP l hl)
  exact ⟨l', hQ l' hl', hrun⟩

theorem Adds.congr (h : Adds P x a ds Q) (heq : ds = es) : Adds P x a es Q := heq ▸ h

theorem adds_pure (P : Location → Prop) (a : α) : Adds P (pure a) a [] P := by
  intro messages l hl
  refine ⟨l, hl, ?_⟩
  rw [StateT.run_pure, Array.append_empty]
  rfl

theorem Adds.bind (hx : Adds P x a ds Q) (hf : Adds Q (f a) b es R) :
    Adds P (x >>= f) b (ds ++ es) R := by
  intro messages l hl
  obtain ⟨l', hl', hrun⟩ := hx messages l hl
  obtain ⟨l'', hl'', hrun'⟩ := hf (messages ++ ds.toArray) l' hl'
  refine ⟨l'', hl'', ?_⟩
  rw [StateT.run_bind, hrun, ← List.append_toArray, ← Array.append_assoc]
  exact hrun'

theorem Adds.seq {x : ValidateM Unit} {y : ValidateM β} (hx : Adds P x () ds Q)
    (hy : Adds Q y b es R) : Adds P (x >>= fun _ => y) b (ds ++ es) R :=
  hx.bind hy

theorem Adds.ite {p : Prop} [Decidable p] (hx : Adds P x a ds Q) (hy : Adds P y a es Q) :
    Adds P (if p then x else y) a (if p then ds else es) Q := by
  split
  · exact hx
  · exact hy

theorem adds_move {g : Location → Location} (h : ∀ l, P l → Q (g l)) : Adds P (move g) () [] Q := by
  intro messages l hl
  refine ⟨g l, h l hl, ?_⟩
  rw [Array.append_empty]
  rfl

/-- A message is about the location where the validator stands. -/
theorem adds_say (message : Option Location → Diagnostic) (l : Location) :
    Adds (· = l) (say message) () [message (some l)] (· = l) := by
  rintro messages _ rfl
  exact ⟨_, rfl, by rw [← Array.push_eq_append]; rfl⟩

theorem adds_errorIf (p : Prop) [Decidable p] (fault : IRFault) (detail : Option String)
    (l : Location) :
    Adds (· = l) (errorIf p fault detail) ()
      (if p then [.irError fault detail (some l)] else []) (· = l) :=
  (adds_say _ l).ite (adds_pure _ ())

/-- What each round adds is added by the loop. -/
theorem adds_forM {l : List ι} {x : ι → ValidateM Unit} {out : ι → List Diagnostic}
    (h : ∀ i ∈ l, Adds P (x i) () (out i) P) : Adds P (l.forM x) () (l.flatMap out) P := by
  induction l with
  | nil => exact adds_pure P ()
  | cons i l ih =>
    rw [List.flatMap_cons]
    exact (h i List.mem_cons_self).bind (ih fun j hj => h j (List.mem_cons_of_mem i hj))

end Rules

/-! ### Within a block -/

/-- The location is in the function and block of `place`. -/
def Within (place l : Location) : Prop := l.function = place.function ∧ l.block = place.block

/-- The instruction at an index of the block at `place`, or the block itself. -/
def spot (place : Location) (index : Option Nat) : Location :=
  { place with instruction := index.map fun n => (n : Int) }

theorem atInstr_eq_spot (place : Location) (index : Nat) :
    atInstr place index = some (spot place (some index)) := rfl

variable (place : Location)

theorem within_of_eq_spot (index : Option Nat) :
    ∀ l, l = spot place index → Within place l := by
  rintro _ rfl
  exact ⟨rfl, rfl⟩

/-- Wherever in the block the validator stands, it gets to the right instruction. -/
theorem adds_moveTo (index : Option Nat) :
    Adds (Within place) (moveTo index) () [] (· = spot place index) := by
  refine adds_move fun l hl => ?_
  rw [hl.1, hl.2]
  rfl

/-! ### Layout -/

theorem adds_place (index : Nat) (afterOther last : Bool) (i : Instr) :
    Adds (· = spot place (some index)) (checkPlace afterOther last i) ()
      (placement place index afterOther last i) (· = spot place (some index)) := by
  cases i with
  | phi result inputs => exact adds_errorIf _ _ _ _
  | _ => exact (adds_errorIf _ _ _ _).seq (adds_errorIf _ _ _ _)

theorem adds_places (index : Nat) (afterOther : Bool) (is : List Instr) :
    Adds (Within place) (checkPlaces index afterOther is) () (placements place index afterOther is)
      (Within place) := by
  induction is generalizing index afterOther with
  | nil => exact adds_pure _ ()
  | cons i is ih =>
    have hplace := (adds_place place index afterOther is.isEmpty i).seq
      ((ih (index + 1) (afterOther || !i.isPhi)).mono (within_of_eq_spot place _) fun _ hl => hl)
    exact (adds_moveTo place (some index)).seq hplace

theorem adds_layout (f : Func) (key : BlockId) (b : Block) :
    Adds (· = atBlock f key) (checkLayout b) () (layout (atBlock f key) b)
      (· = atBlock f key) := by
  have hplaces := (adds_places (atBlock f key) 0 false b.instructions).mono
    (within_of_eq_spot (atBlock f key) none) fun _ hl => hl
  have hend := (adds_moveTo (atBlock f key) none).seq
    (adds_errorIf (b.instructions.getLast?.any Instr.isPhi) .missingTerminator
      (some "ends with phi") (spot (atBlock f key) none))
  exact (adds_say _ _).ite (hplaces.seq hend)

/-! ### Variables -/

theorem definitions_append (table : VarTable) (defined : List VarId)
    (sites sites' : List (VarId × Nat)) :
    definitions table place defined (sites ++ sites') =
      definitions table place defined sites ++
        definitions table place ((sites.map Prod.fst).reverse ++ defined) sites' := by
  induction sites generalizing defined with
  | nil => rfl
  | cons site sites ih => simp [definitions, ih]

/-- The order in which variables were defined does not matter. -/
theorem definitions_congr_mem {table : VarTable} {defined defined' : List VarId}
    (h : ∀ id, id ∈ defined ↔ id ∈ defined') (sites : List (VarId × Nat)) :
    definitions table place defined sites = definitions table place defined' sites := by
  induction sites generalizing defined defined' with
  | nil => rfl
  | cons site sites ih =>
    have hcons : ∀ id, id ∈ site.1 :: defined ↔ id ∈ site.1 :: defined' := by
      intro id
      rw [List.mem_cons, List.mem_cons, h id]
    simp only [definitions, h, ih hcons]

theorem adds_definition (table : VarTable) (defined : List VarId) (id : VarId) (index : Nat) :
    Adds (· = spot place (some index)) (checkDefinition table defined id) (id :: defined)
      (definitions table place defined [(id, index)]) (· = spot place (some index)) := by
  have hunknown := adds_errorIf (!table.contains id) .unknownVariable (some (varText id))
    (spot place (some index))
  have hduplicate := adds_errorIf (id ∈ defined) .duplicateDefinition (some (varText id))
    (spot place (some index))
  have hdefinition := hunknown.seq (hduplicate.seq (adds_pure _ (id :: defined)))
  refine hdefinition.congr ?_
  cases h : table.contains id <;> simp [definitions, h, atInstr_eq_spot]

/-- The definitions of one instruction. -/
theorem adds_definitions_instr (table : VarTable) (defined ids : List VarId) (index : Nat) :
    Adds (· = spot place (some index)) (ids.foldlM (checkDefinition table) defined)
      (ids.reverse ++ defined)
      (definitions table place defined (ids.map fun id => (id, index)))
      (· = spot place (some index)) := by
  induction ids generalizing defined with
  | nil => exact adds_pure _ defined
  | cons id ids ih =>
    rw [List.foldlM_cons, List.reverse_cons, List.append_assoc]
    exact ((adds_definition place table defined id index).bind (ih (id :: defined))).congr
      (definitions_append place table defined [(id, index)] _).symm

/-- The definitions of several instructions, each with its index. -/
theorem adds_definitions_instrs (table : VarTable) (defined : List VarId)
    (ps : List (Instr × Nat)) :
    Adds (Within place)
      (ps.foldlM (fun defined (p : Instr × Nat) => do
        moveTo (some p.2)
        p.1.definitions.foldlM (checkDefinition table) defined) defined)
      ((ps.flatMap fun p => p.1.definitions).reverse ++ defined)
      (definitions table place defined
        (ps.flatMap fun p => p.1.definitions.map fun id => (id, p.2)))
      (Within place) := by
  induction ps generalizing defined with
  | nil => exact adds_pure _ defined
  | cons p ps ih =>
    have hinstr := ((adds_moveTo place (some p.2)).seq
      (adds_definitions_instr place table defined p.1.definitions p.2)).mono (fun _ hl => hl)
      (within_of_eq_spot place _)
    have hids : (p.1.definitions.map fun id => (id, p.2)).map Prod.fst = p.1.definitions := by
      rw [List.map_map]
      exact List.map_id _
    rw [List.foldlM_cons, List.flatMap_cons, List.flatMap_cons, List.reverse_append,
      List.append_assoc, definitions_append, hids]
    exact hinstr.bind (ih _)

theorem adds_definitions (f : Func) (key : BlockId) (table : VarTable) (defined : List VarId)
    (b : Block) :
    Adds (· = atBlock f key) (checkDefinitions table defined b) (b.definitions.reverse ++ defined)
      (definitions table (atBlock f key) defined (definitionSites b)) (· = atBlock f key) := by
  have hinstrs := (adds_definitions_instrs (atBlock f key) table defined
    b.instructions.zipIdx).mono (within_of_eq_spot (atBlock f key) none) fun _ hl => hl
  have hdefs : (b.instructions.zipIdx.flatMap fun p => p.1.definitions) = b.definitions := by
    rw [← List.flatMap_map, List.zipIdx_map_fst]
    rfl
  rw [hdefs] at hinstrs
  have hend := (adds_moveTo (atBlock f key) none).seq
    (adds_pure _ (b.definitions.reverse ++ defined))
  exact (hinstrs.bind hend).congr (List.append_nil _)

theorem adds_use (table : VarTable) (defined : List VarId) (id : VarId) (l : Location) :
    Adds (· = l) (checkUse table defined id) () (Validation.use table defined (some l) id)
      (· = l) :=
  (adds_say _ l).ite (adds_errorIf _ _ _ l)

theorem adds_jump (f : Func) (id : BlockId) (l : Location) :
    Adds (· = l) (checkJump f id) () (jump f (some l) id) (· = l) := by
  refine (adds_errorIf _ _ _ l).congr ?_
  unfold jump
  cases f.blocks.contains id <;> rfl

theorem adds_uses (f : Func) (key : BlockId) (defined : List VarId) (b : Block) :
    Adds (· = atBlock f key) (checkUses f defined b) () (uses f defined (atBlock f key) b)
      (· = atBlock f key) := by
  have hinstr : ∀ p ∈ b.instructions.zipIdx, Adds (Within (atBlock f key)) (do
      moveTo (some p.2)
      p.1.uses.forM (checkUse f.table defined)
      p.1.successors.forM (checkJump f)) ()
      (p.1.uses.flatMap (Validation.use f.table defined (atInstr (atBlock f key) p.2)) ++
        p.1.successors.flatMap (jump f (atInstr (atBlock f key) p.2)))
      (Within (atBlock f key)) := by
    intro p _
    have huses := adds_forM (l := p.1.uses) fun id _ => adds_use f.table defined id
      (spot (atBlock f key) (some p.2))
    have hjumps := adds_forM (l := p.1.successors) fun id _ => adds_jump f id
      (spot (atBlock f key) (some p.2))
    exact ((adds_moveTo _ (some p.2)).seq (huses.seq hjumps)).mono (fun _ hl => hl)
      (within_of_eq_spot (atBlock f key) _)
  have hinstrs := (adds_forM hinstr).mono (within_of_eq_spot (atBlock f key) none) fun _ hl => hl
  exact (hinstrs.seq (adds_moveTo _ none)).congr (List.append_nil _)

/-! ### Phis -/

theorem adds_input (predecessors : List BlockId) (result : VarId) (covered : List BlockId)
    (input : PhiInput) (l : Location) :
    Adds (· = l) (checkInput predecessors result covered input) (input.block :: covered)
      (phiInputs (some l) predecessors result covered [input]) (· = l) :=
  ((adds_say _ l).ite (adds_errorIf _ _ _ l)).seq (adds_pure _ _)

theorem adds_inputs (predecessors : List BlockId) (result : VarId) (covered : List BlockId)
    (inputs : List PhiInput) (l : Location) :
    Adds (· = l) (inputs.foldlM (checkInput predecessors result) covered)
      ((inputs.map PhiInput.block).reverse ++ covered)
      (phiInputs (some l) predecessors result covered inputs) (· = l) := by
  induction inputs generalizing covered with
  | nil => exact adds_pure _ covered
  | cons input inputs ih =>
    rw [List.foldlM_cons, List.map_cons, List.reverse_cons, List.append_assoc]
    refine ((adds_input predecessors result covered input l).bind (ih _)).congr ?_
    rw [phiInputs, phiInputs, phiInputs, List.append_nil]

theorem adds_phi (predecessors : List BlockId) (result : VarId) (inputs : List PhiInput)
    (l : Location) :
    Adds (· = l) (checkPhi predecessors result inputs) ()
      (phiInputs (some l) predecessors result [] inputs ++
        missingInputs (some l) predecessors result inputs) (· = l) := by
  have hcovered : predecessors.filter (· ∉ (inputs.map PhiInput.block).reverse ++ []) =
      predecessors.filter (· ∉ inputs.map PhiInput.block) := by
    simp only [List.append_nil, List.mem_reverse]
  have hmissing := adds_forM (l := predecessors.filter (· ∉ inputs.map PhiInput.block))
    fun p _ => adds_say (.irWarning .incompletePhi
      (some (varText result ++ " has no input from " ++ blockText p))) l
  rw [← List.map_eq_flatMap, ← hcovered] at hmissing
  refine ((adds_inputs predecessors result [] inputs l).bind hmissing).congr ?_
  rw [missingInputs, hcovered]

theorem adds_phis (f : Func) (key : BlockId) (predecessors : List BlockId) (b : Block) :
    Adds (· = atBlock f key) (checkPhis predecessors b) () (phis (atBlock f key) predecessors b)
      (· = atBlock f key) := by
  have hphi : ∀ p ∈ b.phis.zipIdx, Adds (Within (atBlock f key)) (do
      moveTo (some p.2)
      checkPhi predecessors p.1.1 p.1.2) ()
      (phiInputs (atInstr (atBlock f key) p.2) predecessors p.1.1 [] p.1.2 ++
        missingInputs (atInstr (atBlock f key) p.2) predecessors p.1.1 p.1.2)
      (Within (atBlock f key)) := by
    intro p _
    exact ((adds_moveTo _ (some p.2)).seq (adds_phi predecessors p.1.1 p.1.2 _)).mono
      (fun _ hl => hl) (within_of_eq_spot (atBlock f key) _)
  have hphis := (adds_forM hphi).mono (within_of_eq_spot (atBlock f key) none) fun _ hl => hl
  exact (hphis.seq (adds_moveTo _ none)).congr (List.append_nil _)

/-! ### Functions and modules -/

theorem adds_enterBlock (P : Location → Prop) (f : Func) (key : BlockId) :
    Adds P (enterBlock f key) () [] (· = atBlock f key) :=
  adds_move fun _ _ => rfl

theorem adds_block (P : Location → Prop) (f : Func) (defined : List VarId) (e : BlockId × Block) :
    Adds P (checkBlock f defined e) (e.2.definitions.reverse ++ defined)
      (blockDiagnostics f defined e.1 e.2) (· = atBlock f e.1) := by
  have hstored := adds_errorIf (e.2.id ≠ e.1) .internalError
    (some (blockText e.2.id ++ " is stored under id " ++ Decimal.intText e.1)) (atBlock f e.1)
  have hend := (adds_phis f e.1 (f.predecessors e.1) e.2).seq
    (adds_pure _ (e.2.definitions.reverse ++ defined))
  have hvars : Adds (· = atBlock f e.1) _ _ _ _ := (adds_definitions f e.1 f.table defined e.2).bind
    (f := fun defined => do
      checkPhis (f.predecessors e.1) e.2
      return defined) hend
  refine ((adds_enterBlock P f e.1).seq
    (hstored.seq ((adds_layout f e.1 e.2).seq hvars))).congr ?_
  by_cases hid : e.2.id = e.1 <;> simp [blockDiagnostics, storedKey, hid]

/-- The blocks one after the other; the validator collects the defined variables in the opposite
order. -/
theorem adds_blocks (f : Func) {defined defined' : List VarId}
    (h : ∀ id, id ∈ defined' ↔ id ∈ defined) (es : List (BlockId × Block)) :
    Adds (fun _ => True) (es.foldlM (checkBlock f) defined')
      ((es.flatMap fun e => e.2.definitions).reverse ++ defined') (blocksDiagnostics f defined es)
      (fun _ => True) := by
  induction es generalizing defined defined' with
  | nil => exact adds_pure _ defined'
  | cons e es ih =>
    have hmem : ∀ id, id ∈ e.2.definitions.reverse ++ defined' ↔
        id ∈ defined ++ e.2.definitions := by
      intro id
      rw [List.mem_append, List.mem_append, List.mem_reverse, h id, or_comm]
    have hsame : blockDiagnostics f defined' e.1 e.2 = blockDiagnostics f defined e.1 e.2 := by
      rw [blockDiagnostics, blockDiagnostics, definitions_congr_mem _ h]
    have hblock := (adds_block (fun _ => True) f defined' e).congr hsame
    rw [List.foldlM_cons, List.flatMap_cons, List.reverse_append, List.append_assoc]
    exact (hblock.mono (fun _ hl => hl) fun _ _ => trivial).bind (ih hmem)

theorem uses_congr_mem (f : Func) {defined defined' : List VarId}
    (h : ∀ id, id ∈ defined' ↔ id ∈ defined) (b : Block) :
    uses f defined' place b = uses f defined place b := by
  have huse : ∀ at?, Validation.use f.table defined' at? = Validation.use f.table defined at? := by
    intro at?
    funext id
    simp only [Validation.use, h]
  simp only [uses, huse]

theorem adds_checkBlocks (f : Func) :
    Adds (fun _ => True) (checkBlocks f) ()
      (blocksDiagnostics f [] f.blocks.entries ++ references f ++ unreachableBlocks f)
      (fun _ => True) := by
  have hmem : ∀ id, id ∈ (f.blocks.entries.flatMap fun e => e.2.definitions).reverse ++ [] ↔
      id ∈ f.definitions := by
    intro id
    rw [List.append_nil, List.mem_reverse, Func.definitions, IdMap.values, List.flatMap_map]
  have huses := adds_forM (P := fun _ => True) (l := f.blocks.entries) fun e _ =>
    (((adds_enterBlock (fun _ => True) f e.1).seq (adds_uses f e.1 _ e.2)).congr
      (uses_congr_mem _ f hmem e.2)).mono (fun _ hl => hl) fun _ _ => trivial
  have hunreachable := adds_forM (P := fun _ => True) (l := f.unreachable) fun key _ =>
    ((adds_enterBlock (fun _ => True) f key).seq
      (adds_say (.irWarning .unreachableBlock (some (blockText key))) (atBlock f key))).mono
      (fun _ hl => hl) fun _ _ => trivial
  have henter : Adds (fun _ => True) (enterFunc f) () [] (fun _ => True) :=
    adds_move fun _ _ => trivial
  refine ((adds_blocks f (fun _ => Iff.rfl) f.blocks.entries).bind
    (huses.seq (henter.seq hunreachable))).congr ?_
  rw [List.append_assoc, unreachableBlocks, List.map_eq_flatMap]
  rfl

/-- Wherever the validator stands, it adds what is to be said about the function. -/
theorem adds_func (f : Func) :
    Adds (fun _ => True) (checkFunc f) () f.diagnostics (fun _ => True) := by
  have hmissing := (adds_say (.irError .unknownBlock (some ("entry " ++ blockText f.entry)))
    { function := some f.name }).mono (fun _ hl => hl) fun _ _ => trivial
  have hblocks : Adds (· = { function := some f.name }) _ _ _ _ := (adds_checkBlocks f).mono
    (fun _ _ => trivial) fun _ hl => hl
  have henter : Adds (fun _ => True) (enterFunc f) () [] (· = { function := some f.name }) :=
    adds_move fun _ _ => rfl
  exact henter.seq (hblocks.ite (p := f.blocks.contains f.entry) hmissing)

theorem adds_check (s : Subject) :
    Adds (fun _ => True) (check s) () s.diagnostics (fun _ => True) := by
  cases s with
  | func f => exact adds_func f
  | module m => exact adds_forM fun f _ => adds_func f

/-- The report says what is to be said, whatever the validator was used for before. -/
theorem use_eq (s : Subject) (v : Validator) : (use s v).1 = .ofDiagnostics s.diagnostics := by
  obtain ⟨l, -, hrun⟩ := adds_check s #[] {} trivial
  have huse : (use s v).1 = .ofDiagnostics ((check s).run {}).2.messages.toList := rfl
  rw [huse, hrun]
  simp

end Validator

end ContractIR
