import ContractIR.Proofs.Builder.Layout
import ContractIR.Proofs.Flow.Order

/-!
# ContractIR.Proofs.Builder.Frozen — a finished function stays as it is

A function that was finished has its blocks and its variables in common with the builder, and the
builder goes on.  All blocks of the function end with a terminator, and such a block takes no
further instruction; variables are only ever added.  Validation asks of the table no more than
whether a variable is in it, so what it says about a function without errors does not depend on the
variables that were added.

* `Func.diagnostics_of_extends`: a well-formed function with more variables.
* `Builder.Keeps.effect`: what one call leaves alone; `Builder.keeps_session`: what every session
  leaves alone.
* `Builder.finish_frozen`: a finished function after any further calls.
-/

namespace ContractIR

/-! ### Tables that grow -/

namespace VarTable

/-- Every variable of the second table is in the first, with the same type and name. -/
def Extends (t' t : VarTable) : Prop := ∀ id v, t.get? id = some v → t'.get? id = some v

theorem Extends.refl (t : VarTable) : t.Extends t := fun _ _ h => h

theorem Extends.trans {t t' t'' : VarTable} (h : t'.Extends t) (h' : t''.Extends t') :
    t''.Extends t :=
  fun id v hv => h' id v (h id v hv)

theorem Extends.contains {t t' : VarTable} (h : t'.Extends t) {id : VarId}
    (hid : t.contains id = true) : t'.contains id = true := by
  rw [contains_eq_isSome_get?, Option.isSome_iff_exists] at hid ⊢
  obtain ⟨v, hv⟩ := hid
  exact ⟨v, h id v hv⟩

theorem extends_declare (t : VarTable) (type : Ty) (name : Option String) :
    (t.declare type name).2.Extends t := by
  intro id v hv
  -- the new variable is none of those that are there
  have hne : id ≠ t.size := by
    intro hid
    have hnone := t.contains_size
    rw [← hid, contains_eq_isSome_get?, hv] at hnone
    cases hnone
  rw [get?_declare, if_neg hne, hv]

end VarTable

/-! ### Validation and the table -/

namespace Validation

variable {f : Func} {t : VarTable}

theorem definitions_congr {t' : VarTable} {place : Location} {defined : List VarId}
    {sites : List (VarId × Nat)}
    (h : ∀ id ∈ sites.map Prod.fst, t'.contains id = t.contains id) :
    definitions t' place defined sites = definitions t place defined sites := by
  induction sites generalizing defined with
  | nil => rfl
  | cons site rest ih =>
    obtain ⟨id, index⟩ := site
    rw [List.map_cons, List.forall_mem_cons] at h
    rw [definitions, definitions, h.1, ih h.2]

theorem blocksDiagnostics_congr {defined : List VarId} {es : List (BlockId × Block)}
    (h : ∀ id ∈ es.flatMap fun e => e.2.definitions, t.contains id = f.table.contains id) :
    blocksDiagnostics { f with table := t } defined es = blocksDiagnostics f defined es := by
  induction es generalizing defined with
  | nil => rfl
  | cons e es ih =>
    rw [List.flatMap_cons, List.forall_mem_append, ← map_fst_definitionSites] at h
    have hblock : blockDiagnostics { f with table := t } defined e.1 e.2 =
        blockDiagnostics f defined e.1 e.2 := by
      show storedKey (atBlock f e.1) e.1 e.2 ++ layout (atBlock f e.1) e.2 ++
        definitions t (atBlock f e.1) defined (definitionSites e.2) ++
        phis (atBlock f e.1) (f.predecessors e.1) e.2 = blockDiagnostics f defined e.1 e.2
      rw [definitions_congr h.1]
      rfl
    rw [blocksDiagnostics, blocksDiagnostics, hblock, ih h.2]

theorem references_congr
    (h : ∀ e ∈ f.blocks.entries, ∀ i ∈ e.2.instructions, ∀ id ∈ i.uses,
      t.contains id = f.table.contains id) :
    references { f with table := t } = references f := by
  refine List.flatMap_congr fun e he => List.flatMap_congr fun p hp => ?_
  have hi := h e he p.1 (List.fst_mem_of_mem_zipIdx hp)
  refine congrArg (· ++ _) (List.flatMap_congr fun id hid => ?_)
  show use t f.definitions (atInstr (atBlock f e.1) p.2) id =
    use f.table f.definitions (atInstr (atBlock f e.1) p.2) id
  rw [use, use, hi id hid]

theorem unreachableBlocks_congr :
    unreachableBlocks { f with table := t } = unreachableBlocks f := by
  have hreach : Func.reachable { f with table := t } = f.reachable :=
    Func.reach_congr (f := f) (g := { f with table := t }) (fun _ => rfl) [] [f.entry]
  show (f.blocks.keys.filter (· ∉ Func.reachable { f with table := t })).map _ = _
  rw [hreach]
  rfl

end Validation

namespace Func

open Validation

/-- More variables do not change what is to be said about a well-formed function. -/
theorem diagnostics_of_extends {f : Func} (h : f.WellFormed) {t : VarTable}
    (ht : t.Extends f.table) : diagnostics { f with table := t } = f.diagnostics := by
  have hsame : ∀ id, f.table.contains id = true → t.contains id = f.table.contains id := by
    intro id hid
    rw [hid, ht.contains hid]
  have hdefs : ∀ id ∈ f.blocks.entries.flatMap fun e => e.2.definitions,
      t.contains id = f.table.contains id := by
    intro id hid
    refine hsame id (h.declared id ?_)
    rwa [definitions, IdMap.values, List.flatMap_map]
  have huses : ∀ e ∈ f.blocks.entries, ∀ i ∈ e.2.instructions, ∀ id ∈ i.uses,
      t.contains id = f.table.contains id := by
    intro e he i hi id hid
    obtain ⟨o, ho, hvar⟩ := List.mem_filterMap.1 hid
    cases o with
    | var id' =>
      obtain rfl := Option.some.inj hvar
      exact hsame id' (h.readable e he i hi id' ho).1
    | literal l => cases hvar
    | unknown kind => cases hvar
  unfold diagnostics
  rw [blocksDiagnostics_congr hdefs, references_congr huses, unreachableBlocks_congr]
  rfl

end Func

/-! ### What stays -/

namespace Builder

/-- The blocks that end with a terminator and the variables of the first builder are still there in
the second, unchanged. -/
structure Keeps (b b' : Builder) : Prop where
  blocks : ∀ id block, b.blocks.get? id = some block → block.isTerminated = true →
    b'.blocks.get? id = some block
  table : b'.table.Extends b.table

namespace Keeps

variable {b b' b'' : Builder} {n : Nat}

theorem refl (b : Builder) : b.Keeps b := ⟨fun _ _ hget _ => hget, .refl _⟩

theorem trans (h : b.Keeps b') (h' : b'.Keeps b'') : b.Keeps b'' := by
  refine ⟨fun id block hget ht => ?_, h.table.trans h'.table⟩
  exact h'.blocks id block (h.blocks id block hget ht) ht

theorem withVar (b : Builder) (type : Ty) (name : Option String) : b.Keeps (b.withVar type name) :=
  ⟨fun _ _ hget _ => hget, VarTable.extends_declare _ _ _⟩

theorem withBlock (h : b.Tidy n) (name : Option String) : b.Keeps (b.withBlock name) := by
  refine ⟨fun id block hget _ => ?_, .refl _⟩
  have hne : id ≠ b.blocks.size := by
    intro hid
    exact h.size_not_mem (hid ▸ IdMap.mem_keys_of_get? hget)
  rw [Builder.withBlock, IdMap.get?_insert, if_neg hne, hget]

/-- The block that takes an instruction is not one that ends with a terminator. -/
theorem withInstr {id : BlockId} {block : Block} {i : Instr} (ha : b.Accepts id block i) :
    b.Keeps (b.withInstr id block i) := by
  refine ⟨fun id' block' hget ht => ?_, .refl _⟩
  have hne : id' ≠ id := by
    intro hid
    rw [hid, ha.get?] at hget
    have hopen := ha.unterminated
    rw [Option.some.inj hget, ht] at hopen
    cases hopen
  rw [Builder.withInstr, IdMap.get?_insert, if_neg hne, hget]

/-- What one call leaves alone. -/
theorem effect {e : Event} (h : b.Tidy n) (he : Effect b e b') : b.Keeps b' := by
  cases he with
  | failed => exact .refl b
  | answered => exact .refl b
  | created => exact .withBlock h _
  | selected => exact ⟨fun _ _ hget _ => hget, .refl _⟩
  | declared => exact .withVar b _ _
  | emitted ha => exact .withInstr ha
  | @bound c type name make id block hc ha =>
    have hvar : b.Keeps (b.withVar type name) := .withVar b type name
    exact hvar.trans (.withInstr ⟨ha.get?, ha.unterminated, ha.phi⟩)
  | unbound => exact .withVar b _ _

end Keeps

/-- What every session leaves alone. -/
theorem keeps_session {b : Builder} {n : Nat} (h : b.Tidy n) (calls : List Call) :
    b.Keeps (b.session calls).builder := by
  have hall : (∃ m, (b.session calls).builder.Tidy m) ∧ b.Keeps (b.session calls).builder := by
    refine session_induction (P := fun s => (∃ m, s.builder.Tidy m) ∧ b.Keeps s.builder)
      ⟨⟨n, h⟩, .refl b⟩ (fun s e b' hs he => ?_) calls
    obtain ⟨⟨m, htidy⟩, hkeeps⟩ := hs
    exact ⟨⟨_, htidy.effect he⟩, hkeeps.trans (.effect htidy he)⟩
  exact hall.2

/-- A function is finished only if it is well-formed, and then it is what the builder holds. -/
theorem finish_eq_some {b : Builder} {f : Func} (h : b.finish.value = some f) :
    f = b.assemble ∧ f.WellFormed := by
  obtain ⟨u, hu, rfl⟩ := Option.map_eq_some_iff.1 h
  have hsuccess : b.assemble.validate.success = true := by rw [Report.success, hu]; rfl
  exact ⟨rfl, Func.clean_diagnostics_iff.1 (Report.success_iff.1 hsuccess)⟩

/-- A function that was finished is frozen.  Whatever is called on the builder afterwards, the
builder holds every block of the function as it was, and every variable with its type and name; and
with the variables of the builder, which may have become more, the function passes validation with
the messages that it had when it was finished. -/
theorem finish_frozen {target : Target} {id : FuncId} {name : String}
    {params returns : List SourceTy} {b₀ : Builder}
    (hstart : start target id name params returns = .ok b₀) (calls more : List Call) :
    let b := (b₀.session calls).builder
    let b' := (b.session more).builder
    ∀ f, b.finish.value = some f →
      (∀ id block, f.blocks.get? id = some block → b'.blocks.get? id = some block) ∧
      (∀ id v, f.table.get? id = some v → b'.table.get? id = some v) ∧
      (b'.revisit f).validate.success = true ∧
      (b'.revisit f).validate.messages = b.finish.messages := by
  intro b b' f hfinish
  obtain ⟨rfl, hwf⟩ := finish_eq_some hfinish
  have hkeeps : b.Keeps b' := keeps_session (tidy_session (tidy_start hstart) calls) more
  have hvalidate : (b'.revisit b.assemble).validate = b.assemble.validate :=
    congrArg Report.ofDiagnostics (Func.diagnostics_of_extends hwf hkeeps.table)
  refine ⟨fun id block hget => ?_, hkeeps.table, ?_, ?_⟩
  · obtain ⟨phis, body, t, hinstrs, -, -⟩ :=
      hwf.laidOut (id, block) (IdMap.get?_eq_some_iff.1 hget)
    exact hkeeps.blocks id block hget (Block.isTerminated_of_eq hinstrs)
  · rw [hvalidate, Func.validate, Report.success_iff]
    exact Func.clean_diagnostics_iff.2 hwf
  · rw [hvalidate]
    rfl

/-- A function of two blocks, the second of which control does not reach. -/
def detached : List Call :=
  [.createBlock none, .createBlock (some "rest"), .switchTo 0,
    .setNew (.number (.uint 8) 7) (.uint 8) (some "x"), .emit (.terminate (.ret [.var 0])),
    .switchTo 1, .emit (.terminate (.ret []))]

/-- Calls that are refused, a variable more, and a block more that is left open. -/
def afterwards : List Call :=
  [.emit .nop, .switchTo 0, .setNew (.var 0) (.uint 8) none, .declare .bool (some "x"),
    .createBlock none, .switchTo 2, .emit .nop]

theorem finish_frozen_detached :
    ∃ b₀ f, start .evm 0 "f" [] [] = .ok b₀ ∧
      let b := (b₀.session detached).builder
      let b' := (b.session afterwards).builder
      b.finish.value = some f ∧ b'.blocks.keys = [0, 1, 2] ∧ b'.table.size = 3 ∧
        (∀ id block, f.blocks.get? id = some block → b'.blocks.get? id = some block) ∧
        b'.table.get? 0 = some ⟨.uint 8, some "x"⟩ ∧
        (b'.revisit f).validate.success = true ∧
        (b'.revisit f).validate.messages = [(.warning, [.irWarning .unreachableBlock
          (some "block#1") (some { function := some "f", block := some 1 })])] := by
  obtain ⟨b₀, hstart⟩ : ∃ b₀, start .evm 0 "f" [] [] = .ok b₀ := ⟨_, rfl⟩
  have hdiagnostics : (b₀.session detached).builder.assemble.diagnostics =
      [.irWarning .unreachableBlock (some "block#1")
        (some { function := some "f", block := some 1 })] := by
    have hsearch : (b₀.session detached).builder.assemble.Search [] [0] [0] [0] := by
      cases hstart
      exact .enter (by decide) rfl (.nil _) (.nil _)
    rw [Func.diagnostics, Validation.unreachableBlocks, Func.unreachable_of_search hsearch]
    cases hstart
    rfl
  have hfinish : (b₀.session detached).builder.finish.value =
      some (b₀.session detached).builder.assemble := by
    rw [finish, Report.map_value, Func.validate, hdiagnostics]
    rfl
  obtain ⟨hblocks, hvars, hsuccess, hmessages⟩ :=
    finish_frozen hstart detached afterwards _ hfinish
  refine ⟨b₀, _, hstart, hfinish, ?_, ?_, hblocks, hvars 0 _ ?_, hsuccess, hmessages.trans ?_⟩
  · cases hstart
    rfl
  · cases hstart
    rfl
  · cases hstart
    rfl
  · rw [finish, Report.map_messages, Func.validate, hdiagnostics]
    rfl

end Builder

end ContractIR
