import ContractIR.Proofs.Builder.Layout

/-!
# ContractIR.Proofs.Builder.Freshness — every variable of a builder is defined once

A variable is handed out once.  Those that a call binds at once are defined by that call, so if the
instructions that are emitted directly define each of the other variables at most once, no variable
is defined twice.

* `Builder.Fresh.effect`: what one call keeps; `Builder.fresh_session`: what every session keeps.
* `Func.diagnostics_of_assignedOnce`: what can be wrong with the variables of such a function.
* `Builder.session_freshness`: the variables of a session, and the report when it is finished.
-/

namespace ContractIR

/-! ### Collections -/

/-- Writing under a present key changes what is collected from the values only there. -/
theorem IdMap.flatMap_values_insert {α β : Type} {m : IdMap α} {k : Int} {v w : α}
    {f : α → List β} {xs : List β} (h : m.get? k = some v) (hw : f w = f v ++ xs) :
    ((m.insert k w).values.flatMap f).Perm (m.values.flatMap f ++ xs) := by
  have hentries : ∀ l : List (Int × α), l.lookup k = some v →
      (((insertEntry k w l).map Prod.snd).flatMap f).Perm ((l.map Prod.snd).flatMap f ++ xs) := by
    intro l
    induction l with
    | nil => simp
    | cons e l ih =>
      obtain ⟨k', v'⟩ := e
      intro hl
      by_cases hk : k' = k
      · subst hk
        obtain rfl : v' = v := by simpa using hl
        simp only [insertEntry, if_true, List.map_cons, List.flatMap_cons, hw, List.append_assoc]
        exact List.perm_append_comm.append_left (f v')
      · have hb : (k == k') = false := by simpa using Ne.symm hk
        rw [List.lookup_cons, hb] at hl
        simp only [insertEntry, if_neg hk, List.map_cons, List.flatMap_cons, List.append_assoc]
        exact (ih hl).append_left (f v')
  exact hentries m.entries h

/-! ### Checks of variables that are assigned once -/

namespace Validation

variable {place : Location}

theorem definitions_eq_nil {table : VarTable} {defined : List VarId} {sites : List (VarId × Nat)}
    (hdeclared : ∀ id ∈ sites.map Prod.fst, table.contains id = true)
    (hnodup : (sites.map Prod.fst).Nodup) (hnew : ∀ id ∈ sites.map Prod.fst, id ∉ defined) :
    definitions table place defined sites = [] := by
  induction sites generalizing defined with
  | nil => rfl
  | cons site rest ih =>
    obtain ⟨id, index⟩ := site
    rw [List.map_cons, List.forall_mem_cons] at hdeclared hnew
    rw [List.map_cons, List.nodup_cons] at hnodup
    have hrest : definitions table place (id :: defined) rest = [] := by
      refine ih hdeclared.2 hnodup.2 fun x hx hmem => ?_
      rcases List.mem_cons.1 hmem with rfl | hmem
      · exact hnodup.1 hx
      · exact hnew.2 x hx hmem
    rw [definitions, if_pos hdeclared.1, if_neg hnew.1, hrest]
    rfl

/-- The faults that are found by looking at the blocks one by one, if every variable is declared and
assigned once. -/
def assignedFaults : List IRFault :=
  [.internalError, .emptyBlock, .misplacedPhi, .misplacedTerminator, .missingTerminator,
    .invalidPhiInput, .duplicatePhiInput, .incompletePhi]

theorem reports_blocks_of_assignedOnce {f : Func} {defined : List VarId}
    {es : List (BlockId × Block)}
    (hdeclared : ∀ id ∈ es.flatMap fun e => e.2.definitions, f.table.contains id = true)
    (hnodup : (es.flatMap fun e => e.2.definitions).Nodup)
    (hnew : ∀ id ∈ es.flatMap fun e => e.2.definitions, id ∉ defined) :
    Reports assignedFaults (blocksDiagnostics f defined es) := by
  induction es generalizing defined with
  | nil => exact .nil
  | cons e es ih =>
    rw [List.flatMap_cons, List.forall_mem_append] at hdeclared hnew
    rw [List.flatMap_cons, List.nodup_append'] at hnodup
    obtain ⟨hnodup, hnodups, hdisjoint⟩ := hnodup
    have hrest : ∀ id ∈ es.flatMap fun e => e.2.definitions, id ∉ defined ++ e.2.definitions := by
      intro id hid hmem
      rcases List.mem_append.1 hmem with hmem | hmem
      · exact hnew.2 id hid hmem
      · exact hdisjoint hmem hid
    refine .append (.append (.append (.append ?_ ?_) ?_) ?_) (ih hdeclared.2 hnodups hrest)
    · exact Reports.nil.ite (.irError (by simp [assignedFaults]) _ _)
    · exact (reports_layout _).mono (by simp [assignedFaults])
    · have hnil : definitions f.table (atBlock f e.1) defined (definitionSites e.2) = [] := by
        apply definitions_eq_nil <;> rw [map_fst_definitionSites]
        · exact hdeclared.1
        · exact hnodup
        · exact hnew.1
      rw [hnil]
      exact .nil
    · exact (reports_phis _ _).mono (by simp [assignedFaults])

end Validation

namespace Func

open Validation

/-- If every variable is declared and assigned once, no definition is wrong, and the variables that
are not found are those that an operand names and the table lacks. -/
theorem diagnostics_of_assignedOnce {f : Func} (hnodup : f.definitions.Nodup)
    (hdeclared : ∀ id ∈ f.definitions, f.table.contains id = true) {d : Diagnostic}
    (hd : d ∈ f.diagnostics) :
    d.code ≠ IRFault.duplicateDefinition.code ∧
      (d.code = IRFault.unknownVariable.code →
        ∃ key block index i id, f.blocks.get? key = some block ∧
          block.instructions[index]? = some i ∧ .var id ∈ i.operands ∧
          f.table.contains id = false ∧
          d = .irError .unknownVariable (some (varText id)) (atInstr (atBlock f key) index)) := by
  have hdefs : (f.blocks.entries.flatMap fun e => e.2.definitions) = f.definitions := by
    simp [definitions, IdMap.values, List.flatMap_map]
  have hblocks : Reports assignedFaults (blocksDiagnostics f [] f.blocks.entries) := by
    refine reports_blocks_of_assignedOnce ?_ ?_ (by simp)
    · rwa [hdefs]
    · rwa [hdefs]
  unfold diagnostics at hd
  split at hd
  · rcases List.mem_append.1 hd with hd | hd
    · rcases List.mem_append.1 hd with hd | hd
      · exact ⟨hblocks.code_ne (by decide) d hd,
          fun hcode => absurd hcode (hblocks.code_ne (by decide) d hd)⟩
      · refine ⟨(reports_references f).code_ne (by decide) d hd, fun hcode => ?_⟩
        obtain ⟨key, block, index, i, hget, hi, ⟨id, hid, hd⟩ | ⟨id, -, hd⟩⟩ := mem_references hd
        · obtain ⟨o, ho, hvar⟩ := List.mem_filterMap.1 hid
          obtain rfl : o = .var id := by
            cases o with
            | var id' => rw [Option.some.inj hvar]
            | literal l => cases hvar
            | unknown kind => cases hvar
          unfold use at hd
          split at hd
          next hcontains =>
            exact ⟨key, block, index, i, id, hget, hi, ho, by simpa using hcontains,
              List.mem_singleton.1 hd⟩
          next =>
            split at hd
            · rw [List.mem_singleton.1 hd] at hcode
              change IRFault.undefinedVariable.code = _ at hcode
              cases IRFault.code_inj hcode
            · cases hd
        · unfold jump at hd
          split at hd
          · cases hd
          · rw [List.mem_singleton.1 hd] at hcode
            change IRFault.unknownBlock.code = _ at hcode
            cases IRFault.code_inj hcode
    · have hunreachable := reports_unreachableBlocks f
      exact ⟨hunreachable.code_ne (by decide) d hd,
        fun hcode => absurd hcode (hunreachable.code_ne (by decide) d hd)⟩
  · have hentry : Reports [.unknownBlock] [missingEntry f] := .irError (by simp) _ _
    exact ⟨hentry.code_ne (by decide) d hd,
      fun hcode => absurd hcode (hentry.code_ne (by decide) d hd)⟩

end Func

/-! ### Sessions -/

namespace Builder

namespace Event

/-- The variable that the call returned, if all it had to do was to declare one. -/
def issued (e : Event) : List VarId :=
  match e.outcome, e.call with
  | .ok (.var id), .declare _ _ | .ok (.var id), .declareSource _ _ => [id]
  | _, _ => []

/-- The variable that the call returned, if it had to bind one. -/
def bound (e : Event) : List VarId :=
  match e.outcome, e.call with
  | .ok (.var id), .setNew _ _ _ | .ok (.var id), .phi _ _ _ => [id]
  | _, _ => []

/-- The definitions of the instruction, if the call emitted one and it was accepted. -/
def emitted (e : Event) : List VarId :=
  match e.outcome, e.call with
  | .ok _, .emit i => i.definitions
  | _, _ => []

end Event

/-- The definitions are those of the accepted calls, and no variable was returned twice. -/
structure Fresh (b : Builder) (events : List Event) : Prop where
  definitions : b.assemble.definitions.Perm
    (events.flatMap Event.emitted ++ events.flatMap Event.bound)
  declared : ∀ id ∈ events.flatMap Event.issued ++ events.flatMap Event.bound,
    b.table.contains id = true
  nodup : (events.flatMap Event.issued ++ events.flatMap Event.bound).Nodup

theorem contains_withVar {b : Builder} {type : Ty} {name : Option String} {x : VarId} :
    (b.withVar type name).table.contains x = true ↔
      x = b.table.size ∨ b.table.contains x = true := by
  rw [withVar, VarTable.contains_declare]
  simp

theorem definitions_withInstr {b : Builder} {id : BlockId} {block : Block} {i : Instr}
    (h : b.blocks.get? id = some block) :
    (b.withInstr id block i).assemble.definitions.Perm
      (b.assemble.definitions ++ i.definitions) := by
  refine IdMap.flatMap_values_insert h ?_
  simp [Block.push, Block.definitions]

theorem definitions_withBlock {b : Builder} {n : Nat} (h : b.Tidy n) (name : Option String) :
    (b.withBlock name).assemble.definitions = b.assemble.definitions := by
  have hentries := IdMap.entries_insert_of_not_mem (v := { id := b.blocks.size, name := name })
    h.size_not_mem
  have hvalues : (b.withBlock name).blocks.values =
      b.blocks.values ++ [{ id := b.blocks.size, name := name }] := by
    simp [withBlock, IdMap.values, hentries]
  show (b.withBlock name).blocks.values.flatMap Block.definitions = _
  rw [hvalues, List.flatMap_append]
  simp [Block.definitions, Func.definitions, assemble]

namespace Fresh

variable {b b' : Builder} {events : List Event} {e : Event}

/-- An event that returns no variable keeps those that were returned before. -/
theorem keep (h : b.Fresh events)
    (hdefs : b'.assemble.definitions.Perm (b.assemble.definitions ++ e.emitted))
    (htable : ∀ x, b.table.contains x = true → b'.table.contains x = true)
    (hissued : e.issued = []) (hbound : e.bound = []) : b'.Fresh (events ++ [e]) := by
  have hissues : (events ++ [e]).flatMap Event.issued = events.flatMap Event.issued := by
    simp [hissued]
  have hbounds : (events ++ [e]).flatMap Event.bound = events.flatMap Event.bound := by
    simp [hbound]
  constructor
  · refine hdefs.trans ((h.definitions.append_right _).trans ?_)
    rw [hbounds, List.flatMap_append, List.flatMap_singleton, List.append_assoc, List.append_assoc]
    exact List.perm_append_comm.append_left _
  · rw [hissues, hbounds]
    exact fun x hx => htable x (h.declared x hx)
  · rw [hissues, hbounds]
    exact h.nodup

/-- The next variable has not been returned yet. -/
theorem size_not_mem (h : b.Fresh events) :
    (b.table.size : Int) ∉ events.flatMap Event.issued ++ events.flatMap Event.bound := by
  intro hmem
  have hcontains := h.declared _ hmem
  rw [VarTable.contains_size] at hcontains
  cases hcontains

/-- An event that returns the next variable. -/
theorem extend (h : b.Fresh events)
    (hdefs : b'.assemble.definitions.Perm (b.assemble.definitions ++ e.bound))
    (htable : ∀ x : VarId, x = b.table.size ∨ b.table.contains x = true →
      b'.table.contains x = true)
    (hreturned : e.issued ++ e.bound = [(b.table.size : Int)]) (hemitted : e.emitted = []) :
    b'.Fresh (events ++ [e]) := by
  have hperm : ((events ++ [e]).flatMap Event.issued ++ (events ++ [e]).flatMap Event.bound).Perm
      ((e.issued ++ e.bound) ++ (events.flatMap Event.issued ++ events.flatMap Event.bound)) := by
    simp only [List.flatMap_append, List.flatMap_singleton]
    grind
  rw [hreturned, List.singleton_append] at hperm
  constructor
  · refine hdefs.trans ((h.definitions.append_right _).trans ?_)
    simp [hemitted]
  · intro x hx
    rcases List.mem_cons.1 (hperm.mem_iff.1 hx) with hx | hx
    · exact htable x (.inl hx)
    · exact htable x (.inr (h.declared x hx))
  · rw [hperm.nodup_iff, List.nodup_cons]
    exact ⟨h.size_not_mem, h.nodup⟩

/-- What one call keeps. -/
theorem effect {n : Nat} (h : b.Fresh events) (ht : b.Tidy n) (he : Effect b e b') :
    b'.Fresh (events ++ [e]) := by
  cases he with
  | failed => exact h.keep (by simp [Event.emitted]) (fun _ hx => hx) rfl rfl
  | answered => exact h.keep (by simp [Event.emitted]) (fun _ hx => hx) rfl rfl
  | created =>
    have hdefs := definitions_withBlock ht
    exact h.keep (by simp [Event.emitted, hdefs]) (fun _ hx => hx) rfl rfl
  | selected => exact h.keep (.of_eq (List.append_nil _).symm) (fun _ hx => hx) rfl rfl
  | @declared c _ _ hc =>
    cases c with
    | declare | declareSource =>
      exact h.extend (.of_eq (List.append_nil _).symm) (fun _ => contains_withVar.2) rfl rfl
    | _ => cases hc
  | emitted ha => exact h.keep (definitions_withInstr ha.get?) (fun _ hx => hx) rfl rfl
  | @bound c type name make _ _ hc ha =>
    have hdefs := definitions_withInstr (b := b.withVar type name) (i := make b.table.size) ha.get?
    rw [hc.definitions] at hdefs
    cases hc <;> exact h.extend hdefs (fun _ => contains_withVar.2) rfl rfl
  | unbound hc =>
    -- the variable stays declared, but no call returned it and nothing defines it
    cases hc <;> exact h.keep (.of_eq (List.append_nil _).symm)
      (fun _ hx => contains_withVar.2 (.inr hx)) rfl rfl

end Fresh

/-- What every session keeps. -/
theorem fresh_session {b : Builder} (hfresh : b.Fresh []) (htidy : b.Tidy 0) (calls : List Call) :
    (b.session calls).builder.Fresh (b.session calls).events := by
  have hkeep : ∃ n, (b.session calls).builder.Tidy n ∧
      (b.session calls).builder.Fresh (b.session calls).events := by
    refine session_induction (P := fun s => ∃ n, s.builder.Tidy n ∧ s.builder.Fresh s.events)
      ⟨0, htidy, hfresh⟩ ?_ calls
    rintro s e b' ⟨n, ht, hf⟩ he
    exact ⟨_, ht.effect he, hf.effect ht he⟩
  obtain ⟨-, -, hf⟩ := hkeep
  exact hf

theorem fresh_start {target : Target} {id : FuncId} {name : String} {params returns : List SourceTy}
    {b : Builder} (h : start target id name params returns = .ok b) : b.Fresh [] := by
  have hnone : b.assemble.definitions = [] := by
    show b.blocks.values.flatMap Block.definitions = []
    rw [blocks_start h]
    rfl
  exact ⟨by rw [hnone]; exact .nil, by simp, .nil⟩

/-- If the instructions that are emitted directly define only variables that the builder handed out
for it, and each of them once, the function defines no variable twice and none that is not declared.
When it is finished, no second definition is reported, and a variable is reported as unknown only
where an operand names one that was never declared. -/
theorem session_freshness {target : Target} {id : FuncId} {name : String}
    {params returns : List SourceTy} {b₀ : Builder}
    (h : start target id name params returns = .ok b₀) (calls : List Call)
    (hissued : ∀ x ∈ (b₀.session calls).events.flatMap Event.emitted,
      x ∈ (b₀.session calls).events.flatMap Event.issued)
    (honce : ((b₀.session calls).events.flatMap Event.emitted).Nodup) :
    let b := (b₀.session calls).builder
    b.assemble.definitions.Nodup ∧
    (∀ x ∈ b.assemble.definitions, b.table.contains x = true) ∧
    ∀ d ∈ b.finish.errors ++ b.finish.warnings,
      d.code ≠ IRFault.duplicateDefinition.code ∧
      (d.code = IRFault.unknownVariable.code →
        ∃ key block index i x, b.blocks.get? key = some block ∧
          block.instructions[index]? = some i ∧ .var x ∈ i.operands ∧
          b.table.contains x = false ∧
          d = .irError .unknownVariable (some (varText x))
            (Validation.atInstr (Validation.atBlock b.assemble key) index)) := by
  intro b
  have hfresh : b.Fresh (b₀.session calls).events :=
    fresh_session (fresh_start h) (tidy_start h) calls
  obtain ⟨-, hbound, hdisjoint⟩ := List.nodup_append'.1 hfresh.nodup
  have hnodup : b.assemble.definitions.Nodup := by
    rw [hfresh.definitions.nodup_iff, List.nodup_append']
    exact ⟨honce, hbound, fun x hx hx' => hdisjoint (hissued x hx) hx'⟩
  have hdeclared : ∀ x ∈ b.assemble.definitions, b.table.contains x = true := by
    intro x hx
    apply hfresh.declared x
    rcases List.mem_append.1 (hfresh.definitions.mem_iff.1 hx) with hx | hx
    · exact List.mem_append_left _ (hissued x hx)
    · exact List.mem_append_right _ hx
  exact ⟨hnodup, hdeclared, fun d hd => Func.diagnostics_of_assignedOnce hnodup hdeclared
    (mem_diagnostics_of_mem_finish hd)⟩

/-- A session with a call that has two results, a phi, a refused binding that leaves its variable
behind, and operands that name this variable and one that was never declared. -/
def mixed : List Call :=
  [.createBlock none, .createBlock none, .declare .bool none, .emit (.set 0 (.bool true)),
    .switchTo 0, .declareSource .bool (some "ok"), .emit (.call [1, 0] (.static 7) []),
    .emit (.terminate (.branch 1)), .setNew (.var 0) .bool none, .emit (.set 0 (.var 1)),
    .switchTo 1, .phi .bool [⟨.var 0, 0⟩] none, .emit (.print (.var 9)),
    .emit (.terminate (.ret [.var 2]))]

theorem session_freshness_mixed :
    ∃ b₀, start .evm 0 "f" [] [] = .ok b₀ ∧
      (b₀.session mixed).events.flatMap Event.emitted = [1, 0] ∧
      (b₀.session mixed).events.flatMap Event.issued = [0, 1] ∧
      let b := (b₀.session mixed).builder
      b.assemble.definitions = [1, 0, 3] ∧ b.assemble.definitions.Nodup ∧
      (∀ x ∈ b.assemble.definitions, b.table.contains x = true) ∧
      ∀ d ∈ b.finish.errors ++ b.finish.warnings, d.code ≠ IRFault.duplicateDefinition.code := by
  obtain ⟨b₀, hstart⟩ : ∃ b₀, start .evm 0 "f" [] [] = .ok b₀ := ⟨_, rfl⟩
  have hemitted : (b₀.session mixed).events.flatMap Event.emitted = [1, 0] := by
    cases hstart
    rfl
  have hissued : (b₀.session mixed).events.flatMap Event.issued = [0, 1] := by
    cases hstart
    rfl
  obtain ⟨hnodup, hdeclared, hreport⟩ := session_freshness hstart mixed
    (by rw [hemitted, hissued]; decide) (by rw [hemitted]; decide)
  refine ⟨b₀, hstart, hemitted, hissued, ?_, hnodup, hdeclared, fun d hd => (hreport d hd).1⟩
  cases hstart
  rfl

end Builder

end ContractIR
