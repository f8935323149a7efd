import ContractIR.Digest.Keccak
import ContractIR.Proofs.Flow.Path
import ContractIR.Proofs.Fold.Rewrite

/-!
# ContractIR.Proofs.Fold.Diagnostics — folding and validation

Folding takes uses of variables away.  What validation says about a function can therefore only
become less, and only by reports of undeclared variables that are read; the verdict stays, because
such a variable is also set somewhere.

* `Pruned P l l'`: the list `l'` is `l` without some members that satisfy `P`.
* `Fold.Rewrites.uses_pruned`: what becomes of the variables that an instruction reads.
* `Func.FoldsTo.diagnostics_pruned`: what becomes of the diagnostics.
* `Func.validate_fold`: verdict, errors and warnings.
-/

namespace ContractIR

/-! ### Lists without some of their members -/

section Pruned

variable {α β γ : Type} {P Q : α → Prop} {l l' : List α}

/-- The second list is the first without some of the members that satisfy `P`. -/
inductive Pruned (P : α → Prop) : List α → List α → Prop
  | nil : Pruned P [] []
  | keep {a : α} {l l' : List α} : Pruned P l l' → Pruned P (a :: l) (a :: l')
  | drop {a : α} {l l' : List α} : P a → Pruned P l l' → Pruned P (a :: l) l'

namespace Pruned

theorem refl : ∀ l : List α, Pruned P l l
  | [] => .nil
  | _ :: l => .keep (refl l)

theorem of_forall : ∀ {l : List α}, (∀ a ∈ l, P a) → Pruned P l []
  | [], _ => .nil
  | a :: _, h => .drop (h a (by simp)) (of_forall fun b hb => h b (List.mem_cons_of_mem a hb))

theorem mono (h : Pruned P l l') (hPQ : ∀ a, P a → Q a) : Pruned Q l l' := by
  induction h with
  | nil => exact .nil
  | keep _ ih => exact .keep ih
  | drop ha _ ih => exact .drop (hPQ _ ha) ih

theorem append {k k' : List α} (hk : Pruned P k k') (hl : Pruned P l l') :
    Pruned P (k ++ l) (k' ++ l') := by
  induction hk with
  | nil => exact hl
  | keep _ ih => exact .keep ih
  | drop ha _ ih => exact .drop ha ih

theorem sublist (h : Pruned P l l') : l'.Sublist l := by
  induction h with
  | nil => exact .slnil
  | keep _ ih => exact ih.cons_cons _
  | drop _ _ ih => exact ih.cons _

theorem mem_or {a : α} (h : Pruned P l l') (ha : a ∈ l) : a ∈ l' ∨ P a := by
  induction h with
  | nil => exact .inl ha
  | keep _ ih =>
    rcases List.mem_cons.1 ha with rfl | ha
    · exact .inl List.mem_cons_self
    · exact (ih ha).imp_left (List.mem_cons_of_mem _)
  | drop hb _ ih =>
    rcases List.mem_cons.1 ha with rfl | ha
    · exact .inr hb
    · exact ih ha

theorem filter (p : α → Bool) (h : Pruned P l l') : Pruned P (l.filter p) (l'.filter p) := by
  induction h with
  | nil => exact .nil
  | @keep a _ _ _ ih =>
    by_cases hp : p a = true
    · simpa [hp] using ih.keep
    · simpa [hp] using ih
  | @drop a _ _ ha _ ih =>
    by_cases hp : p a = true
    · simpa [hp] using Pruned.drop ha ih
    · simpa [hp] using ih

theorem filter_eq {p : α → Bool} (h : Pruned P l l') (hp : ∀ a, P a → p a = false) :
    l.filter p = l'.filter p := by
  induction h with
  | nil => rfl
  | keep _ ih => rw [List.filter_cons, List.filter_cons, ih]
  | drop ha _ ih => rw [List.filter_cons, hp _ ha, if_neg Bool.false_ne_true, ih]

/-- What is dropped was there. -/
theorem and_mem (h : Pruned P l l') : Pruned (fun a => a ∈ l ∧ P a) l l' := by
  induction h with
  | nil => exact .nil
  | keep _ ih => exact .keep (ih.mono fun a ha => ⟨List.mem_cons_of_mem _ ha.1, ha.2⟩)
  | drop ha _ ih =>
    exact .drop ⟨List.mem_cons_self, ha⟩
      (ih.mono fun a ha => ⟨List.mem_cons_of_mem _ ha.1, ha.2⟩)

theorem flatMap {Q : β → Prop} {F : α → List β} (h : Pruned P l l')
    (hF : ∀ a, P a → ∀ b ∈ F a, Q b) : Pruned Q (l.flatMap F) (l'.flatMap F) := by
  induction h with
  | nil => exact .nil
  | keep _ ih =>
    rw [List.flatMap_cons, List.flatMap_cons]
    exact (refl _).append ih
  | drop ha _ ih =>
    rw [List.flatMap_cons]
    exact (of_forall (hF _ ha)).append ih

theorem flatMap_forall₂ {R : α → β → Prop} {Q : γ → Prop} {F : α → List γ} {G : β → List γ}
    {m : List β} (h : List.Forall₂ R l m) (hR : ∀ a ∈ l, ∀ b, R a b → Pruned Q (F a) (G b)) :
    Pruned Q (l.flatMap F) (m.flatMap G) := by
  induction h with
  | nil => exact .nil
  | cons hab _ ih =>
    rw [List.flatMap_cons, List.flatMap_cons]
    exact (hR _ List.mem_cons_self _ hab).append
      (ih fun a ha => hR a (List.mem_cons_of_mem _ ha))

end Pruned

theorem forall₂_zipIdx {R : α → β → Prop} {m : List β} (h : List.Forall₂ R l m) (k : Nat) :
    List.Forall₂ (fun p q => q.2 = p.2 ∧ R p.1 q.1) (l.zipIdx k) (m.zipIdx k) := by
  induction h generalizing k with
  | nil => exact .nil
  | cons hab _ ih =>
    rw [List.zipIdx_cons, List.zipIdx_cons]
    exact .cons ⟨rfl, hab⟩ (ih (k + 1))

theorem getLast?_of_forall₂ {R : α → β → Prop} {m : List β} (h : List.Forall₂ R l m) :
    (l.getLast? = none ∧ m.getLast? = none) ∨
      ∃ a b, l.getLast? = some a ∧ m.getLast? = some b ∧ R a b := by
  induction h with
  | nil => exact .inl ⟨rfl, rfl⟩
  | @cons a b l m hab htail ih =>
    right
    cases htail with
    | nil => exact ⟨a, b, rfl, rfl, hab⟩
    | cons hcd hrest =>
      obtain ⟨h, -⟩ | ⟨c, d, hc, hd, hcd⟩ := ih
      · simp at h
      · exact ⟨c, d, by rw [List.getLast?_cons_cons, hc], by rw [List.getLast?_cons_cons, hd], hcd⟩

end Pruned

/-! ### What an expression reads -/

namespace Fold

variable {known : Constants}

theorem replace_pruned (os : List Operand) :
    Pruned (fun v => ∃ l, known.lookup v = some l) (os.filterMap Operand.var?)
      ((os.map (replace known)).filterMap Operand.var?) := by
  induction os with
  | nil => exact .nil
  | cons o os ih =>
    cases o with
    | var id =>
      cases h : known.lookup id with
      | none =>
        have hr : replace known (.var id) = .var id := by simp [replace, h]
        rw [List.map_cons, hr]
        exact ih.keep
      | some l =>
        have hr : replace known (.var id) = .literal l := by simp [replace, h]
        rw [List.map_cons, hr]
        exact .drop ⟨l, h⟩ ih
    | literal l => exact ih
    | unknown kind => exact ih

theorem substitute_pruned (e : Expr) :
    Pruned (fun v => ∃ l, known.lookup v = some l) (e.operands.filterMap Operand.var?)
      ((substitute known e).operands.filterMap Operand.var?) := by
  cases e with
  | binary op left right => exact replace_pruned [left, right]
  | unary op operand => exact replace_pruned [operand]
  | widthChange change operand type => exact replace_pruned [operand]
  | keccak256 args => exact replace_pruned args
  | _ => exact .refl _

end Fold

namespace Operand

/-- Operands that all have bytes are all literals. -/
theorem var?_eq_none_of_encodeAll {os : List Operand} {bytes : Bytes}
    (h : encodeAll os = .ok (some bytes)) : os.filterMap var? = [] := by
  induction os generalizing bytes with
  | nil => rfl
  | cons o os ih =>
    simp only [encodeAll, bind_eq_ok_iff] at h
    obtain ⟨r, hr, h⟩ := h
    cases r with
    | none => cases h
    | some first =>
      simp only [bind_eq_ok_iff, pure_eq_ok_iff] at h
      obtain ⟨rest, hrest, h⟩ := h
      obtain ⟨rest, rfl, -⟩ := Option.map_eq_some_iff.1 h
      cases o with
      | literal l => exact ih hrest
      | var id => cases hr
      | unknown kind => cases hr

end Operand

namespace Expr

/-- Only expressions without variables are folded, and no variable comes in. -/
theorem uses_fold? {H : Bytes → Bytes} {e e' : Expr} (h : e.fold? H = .ok (some e')) :
    e.operands.filterMap Operand.var? = [] ∧ e'.operands.filterMap Operand.var? = [] := by
  have hlit : ∀ {x : Except NumericError (Option Literal)},
      (do return (← x).map Expr.literal) = Except.ok (some e') → ∃ l, e' = .literal l := by
    intro x hx
    simp only [bind_eq_ok_iff, pure_eq_ok_iff, Option.map_eq_some_iff] at hx
    obtain ⟨_, _, l, _, rfl⟩ := hx
    exact ⟨l, rfl⟩
  unfold fold? at h
  split at h
  · split at h
    · rename_i hl hr
      obtain ⟨l, rfl⟩ := hlit h
      rw [Operand.eq_literal_of_literal? hl, Operand.eq_literal_of_literal? hr]
      exact ⟨rfl, rfl⟩
    · cases h
  · split at h
    · rename_i hl
      obtain ⟨l, rfl⟩ := hlit h
      rw [Operand.eq_literal_of_literal? hl]
      exact ⟨rfl, rfl⟩
    · cases h
  · split at h
    · rename_i hl
      obtain ⟨l, rfl⟩ := hlit h
      rw [Operand.eq_literal_of_literal? hl]
      exact ⟨rfl, rfl⟩
    · cases h
  · simp only [bind_eq_ok_iff, pure_eq_ok_iff, Option.map_eq_some_iff] at h
    obtain ⟨_, hargs, bytes, rfl, rfl⟩ := h
    exact ⟨Operand.var?_eq_none_of_encodeAll hargs, rfl⟩
  · cases h
    exact ⟨rfl, rfl⟩
  · cases h
    exact ⟨rfl, rfl⟩
  · cases h

theorem uses_fold {H : Bytes → Bytes} {e e' : Expr} (h : e.fold H = .ok e') :
    e'.operands.filterMap Operand.var? = e.operands.filterMap Operand.var? := by
  simp only [fold, bind_eq_ok_iff, pure_eq_ok_iff] at h
  obtain ⟨r, hr, rfl⟩ := h
  cases r with
  | none => rfl
  | some e' =>
    obtain ⟨h1, h2⟩ := uses_fold? hr
    rw [h1]
    exact h2

end Expr

/-! ### What stays of an instruction and of a block -/

namespace Fold

open Validation

variable {H : Bytes → Bytes} {P : VarId → Literal → Prop} {i i' : Instr} {b b' : Block}
  {place : Location}

theorem Rewrites.uses_pruned (h : Rewrites H P i i') :
    Pruned (fun v => ∃ l, P v l) i.uses i'.uses := by
  cases h with
  | keep => exact .refl _
  | @set r e e' known hknown he =>
    show Pruned _ (e.operands.filterMap Operand.var?) (e'.operands.filterMap Operand.var?)
    rw [Expr.uses_fold he]
    exact (substitute_pruned e).mono fun v ⟨l, hl⟩ => ⟨l, hknown v l hl⟩

theorem Rewrites.terminator?_eq (h : Rewrites H P i i') : i'.terminator? = i.terminator? := by
  cases h <;> rfl

theorem Rewrites.placement_eq (h : Rewrites H P i i') (index : Nat) (afterOther last : Bool) :
    placement place index afterOther last i' = placement place index afterOther last i := by
  cases h <;> rfl

theorem placements_eq {is is' : List Instr} (h : List.Forall₂ (Rewrites H P) is is') (index : Nat)
    (afterOther : Bool) :
    placements place index afterOther is' = placements place index afterOther is := by
  induction h generalizing index afterOther with
  | nil => rfl
  | @cons i i' is is' hi his ih =>
    have hempty : is'.isEmpty = is.isEmpty := by cases his <;> rfl
    rw [placements, placements, hi.placement_eq, hi.isPhi_eq, hempty, ih]

namespace RewritesBlock

variable (h : RewritesBlock H P b b')

include h

theorem terminator?_eq : b'.terminator? = b.terminator? := by
  unfold Block.terminator?
  obtain ⟨h1, h2⟩ | ⟨i, i', h1, h2, hi⟩ := getLast?_of_forall₂ h.instructions
  · rw [h1, h2]
  · rw [h1, h2]
    exact hi.terminator?_eq

theorem successors_eq : b'.successors = b.successors := by
  rw [Block.successors, Block.successors, h.terminator?_eq]

theorem definitionSites_eq : definitionSites b' = definitionSites b := by
  have hsites := map_eq_of_forall₂ (forall₂_zipIdx h.instructions 0)
    (F := fun p => p.1.definitions.map fun id => (id, p.2))
    (G := fun p => p.1.definitions.map fun id => (id, p.2))
    fun p q hpq => by rw [hpq.2.definitions_eq, hpq.1]
  rw [definitionSites, definitionSites, List.flatMap_def, List.flatMap_def]
  exact congrArg List.flatten hsites

theorem phiEnding_eq : phiEnding place b' = phiEnding place b := by
  unfold phiEnding
  obtain ⟨h1, h2⟩ | ⟨i, i', h1, h2, hi⟩ := getLast?_of_forall₂ h.instructions
  · rw [h1, h2]
  · rw [h1, h2, Option.any_some, Option.any_some, hi.isPhi_eq]

theorem layout_eq : layout place b' = layout place b := by
  have hempty : b'.instructions.isEmpty = b.instructions.isEmpty := by
    have hlen := h.instructions.length_eq
    rw [Bool.eq_iff_iff, List.isEmpty_iff_length_eq_zero, List.isEmpty_iff_length_eq_zero, hlen]
  rw [layout, layout, hempty, placements_eq h.instructions, h.phiEnding_eq]

end RewritesBlock

end Fold

/-! ### What stays of a function -/

namespace Func

open Validation

theorem mem_definitions_of_sets {g : Func} {v : VarId} {l : Literal}
    (hv : g.Sets v l) : v ∈ g.definitions := by
  obtain ⟨e, he, hset⟩ := hv
  refine List.mem_flatMap.2 ⟨e.2, List.mem_map.2 ⟨e, he, rfl⟩, ?_⟩
  exact List.mem_flatMap.2 ⟨_, hset, by simp [Instr.definitions]⟩

namespace FoldsTo

variable {H : Bytes → Bytes} {f g : Func} (h : FoldsTo H f g)

include h

theorem name_eq : g.name = f.name := by rw [h.rest_eq]

theorem table_eq : g.table = f.table := by rw [h.rest_eq]

theorem keys_eq : g.blocks.keys = f.blocks.keys :=
  map_eq_of_forall₂ h.blocks fun _ _ he => he.1

theorem successors_eq (id : BlockId) :
    (g.blocks.get? id).map Block.successors = (f.blocks.get? id).map Block.successors := by
  obtain ⟨h1, h2⟩ | ⟨b, b', h1, h2, hb⟩ := h.get?_rewrites id
  · rw [h1, h2]
  · rw [h1, h2, Option.map_some, Option.map_some, hb.successors_eq]

theorem predecessors_eq (id : BlockId) : g.predecessors id = f.predecessors id := by
  have haux : ∀ {es es' : List (BlockId × Block)},
      List.Forall₂ (fun e e' => e'.1 = e.1 ∧ Fold.RewritesBlock H g.Sets e.2 e'.2) es es' →
      (es'.filter fun e => id ∈ e.2.successors).map Prod.fst =
        (es.filter fun e => id ∈ e.2.successors).map Prod.fst := by
    intro es es' hes
    induction hes with
    | nil => rfl
    | cons he _ ih =>
      rw [List.filter_cons, List.filter_cons, he.2.successors_eq]
      split
      · rw [List.map_cons, List.map_cons, he.1, ih]
      · exact ih
  exact haux h.blocks

theorem atBlock_eq (key : BlockId) : atBlock g key = atBlock f key := by
  rw [atBlock, atBlock, h.name_eq]

theorem blocksDiagnostics_eq {es es' : List (BlockId × Block)}
    (hes : List.Forall₂ (fun e e' => e'.1 = e.1 ∧ Fold.RewritesBlock H g.Sets e.2 e'.2) es es')
    (defined : List VarId) : blocksDiagnostics g defined es' = blocksDiagnostics f defined es := by
  induction hes generalizing defined with
  | nil => rfl
  | @cons e e' es es' he _ ih =>
    obtain ⟨key, b⟩ := e
    obtain ⟨key', b'⟩ := e'
    obtain ⟨hkey, hb⟩ := he
    dsimp only at hkey hb
    subst hkey
    rw [blocksDiagnostics, blocksDiagnostics, ih, hb.definitions_eq]
    simp only [blockDiagnostics, storedKey, phis, h.atBlock_eq, h.predecessors_eq, h.table_eq,
      hb.id_eq, hb.layout_eq, hb.definitionSites_eq, hb.phis_eq]

theorem unreachableBlocks_eq : unreachableBlocks g = unreachableBlocks f := by
  have hreach : g.reachable = f.reachable := by
    rw [reachable, reachable, h.entry_eq, reach_congr h.successors_eq]
  simp only [unreachableBlocks, unreachable, unseen, h.keys_eq, hreach, h.atBlock_eq]

end FoldsTo

/-! ### Fewer reports, the same verdict -/

/-- The report of an instruction that reads an undeclared variable. -/
def UnknownUse (f : Func) (d : Diagnostic) : Prop :=
  ∃ key b index i id, f.blocks.get? key = some b ∧ b.instructions[index]? = some i ∧ id ∈ i.uses ∧
    f.table.contains id = false ∧
    d = .irError .unknownVariable (some (varText id)) (atInstr (atBlock f key) index)

/-- Such a report, on a variable that the function sets to a literal. -/
def UnknownSetUse (f g : Func) (d : Diagnostic) : Prop :=
  f.UnknownUse d ∧ ∃ id l, g.Sets id l ∧ f.table.contains id = false

namespace FoldsTo

variable {H : Bytes → Bytes} {f g : Func} (h : FoldsTo H f g)

include h

theorem jump_eq : jump g = jump f := by
  funext place id
  have hkeys : g.blocks.contains id = f.blocks.contains id := by
    rw [Bool.eq_iff_iff, IdMap.contains_iff, IdMap.contains_iff, h.keys_eq]
  rw [jump, jump, hkeys]

/-- A variable that was replaced is defined, so the only thing to be said about its use was that it
is not declared. -/
theorem uses_pruned {key : BlockId} {b b' : Block} (hb : f.blocks.get? key = some b)
    (hbb : Fold.RewritesBlock H g.Sets b b') :
    Pruned (UnknownSetUse f g) (uses f f.definitions (atBlock f key) b)
      (uses g g.definitions (atBlock g key) b') := by
  unfold uses
  refine Pruned.flatMap_forall₂ (forall₂_zipIdx hbb.instructions 0) ?_
  rintro ⟨i, index⟩ hmem ⟨i', index'⟩ ⟨hindex, hi⟩
  dsimp only at hindex hi ⊢
  subst hindex
  rw [h.table_eq, h.definitions_eq, h.atBlock_eq, h.jump_eq, Instr.successors, Instr.successors,
    hi.terminator?_eq]
  refine Pruned.append ?_ (.refl _)
  have hat : b.instructions[index']? = some i := List.mk_mem_zipIdx_iff_getElem?.1 hmem
  have huses : Pruned (fun v => v ∈ i.uses ∧ ∃ l, g.Sets v l) i.uses i'.uses :=
    hi.uses_pruned.and_mem
  refine huses.flatMap ?_
  rintro v ⟨hv, l, hl⟩ d hd
  have hdef : v ∈ f.definitions := h.definitions_eq ▸ mem_definitions_of_sets hl
  unfold use at hd
  cases hc : f.table.contains v with
  | true => simp [hc, hdef] at hd
  | false =>
    rw [hc, Bool.not_false, if_pos rfl, List.mem_singleton] at hd
    exact ⟨⟨key, b, index', i, v, hb, hat, hv, hc, hd⟩, v, l, hl, hc⟩

theorem references_pruned : Pruned (UnknownSetUse f g) (references f) (references g) := by
  unfold references
  refine Pruned.flatMap_forall₂ h.blocks ?_
  rintro ⟨key, b⟩ hmem ⟨key', b'⟩ ⟨hkey, hb⟩
  dsimp only at hkey hb ⊢
  subst hkey
  exact h.uses_pruned (IdMap.get?_eq_some_iff.2 hmem) hb

theorem diagnostics_pruned : Pruned (UnknownSetUse f g) f.diagnostics g.diagnostics := by
  have hentry : g.blocks.contains g.entry = f.blocks.contains f.entry := by
    rw [Bool.eq_iff_iff, IdMap.contains_iff, IdMap.contains_iff, h.keys_eq, h.entry_eq]
  unfold diagnostics
  rw [hentry]
  split
  · rw [h.blocksDiagnostics_eq h.blocks, h.unreachableBlocks_eq]
    exact ((Pruned.refl _).append h.references_pruned).append (.refl _)
  · rw [missingEntry, missingEntry, h.entry_eq, h.name_eq]
    exact .refl _

/-- What is dropped is reported a second time, where the variable is set. -/
theorem clean_diagnostics_iff : Clean g.diagnostics ↔ Clean f.diagnostics := by
  constructor
  · intro hg d hd
    rcases h.diagnostics_pruned.mem_or hd with hd | ⟨-, id, l, hl, hc⟩
    · exact hg d hd
    · have hwf := Func.clean_diagnostics_iff.1 hg
      have := hwf.declared id (mem_definitions_of_sets hl)
      rw [h.table_eq, hc] at this
      cases this
  · exact fun hf d hd => hf d (h.diagnostics_pruned.sublist.subset hd)

end FoldsTo

/-- Folding never changes the verdict of validation.  Errors are only dropped, and only such as
report that an undeclared variable is read; the warnings are the same. -/
theorem validate_fold {H : Bytes → Bytes} {f g : Func} (h : f.fold H = .ok g) :
    g.validate.success = f.validate.success ∧
      g.validate.errors.Sublist f.validate.errors ∧
      Pruned f.UnknownUse f.validate.errors g.validate.errors ∧
      g.validate.warnings = f.validate.warnings := by
  have hfg := foldsTo_of_fold h
  have hpruned := hfg.diagnostics_pruned
  have herrors : Pruned f.UnknownUse f.validate.errors g.validate.errors := by
    rw [validate, validate, Report.errors_ofDiagnostics, Report.errors_ofDiagnostics]
    exact (hpruned.filter _).mono fun d hd => hd.1
  refine ⟨?_, herrors.sublist, herrors, ?_⟩
  · rw [Bool.eq_iff_iff, validate, validate, Report.success_iff, Report.success_iff]
    exact hfg.clean_diagnostics_iff
  · rw [validate, validate, Report.warnings_ofDiagnostics, Report.warnings_ofDiagnostics]
    refine (hpruned.filter_eq ?_).symm
    rintro d ⟨⟨_, _, _, _, _, _, _, _, _, rfl⟩, -⟩
    rfl

/-- A function that sets the variables 5 and 0 and declares only the variable 0. -/
def undeclaredFlag (e : Expr) : Func where
  id := 0
  name := "f"
  params := []
  returns := []
  entry := 0
  blocks := .ofList [(0, { id := 0, instructions :=
    [.set 5 (.bool true), .set 0 e, .terminate (.ret [.var 0])] })]
  table := ⟨#[⟨.bool, none⟩]⟩

/-- Of the two reports on the variable 5 folding leaves the one on its definition. -/
theorem validate_fold_undeclaredFlag :
    (undeclaredFlag (.unary .not (.var 5))).fold Keccak.digest =
        .ok (undeclaredFlag (.bool false)) ∧
      (undeclaredFlag (.unary .not (.var 5))).validate.errors.length = 2 ∧
      (undeclaredFlag (.bool false)).validate.errors.length = 1 ∧
      (undeclaredFlag (.bool false)).validate.errors.Sublist
        (undeclaredFlag (.unary .not (.var 5))).validate.errors := by
  refine ⟨rfl, ?_, ?_, (validate_fold (H := Keccak.digest) rfl).2.1⟩
  · rw [errors_validate rfl]
    rfl
  · rw [errors_validate rfl]
    rfl

end Func

end ContractIR
