import ContractIR.Proofs.Builder.Run

/-!
# ContractIR.Proofs.Builder.Refusal — what a call that fails leaves behind

A call that fails leaves the builder as it was, with one exception.  Binding a new variable takes
two steps, and the variable is declared before the instruction is offered to the selected block; if
the block refuses the instruction, the variable stays in the table, though no call ever returned it.
-/

namespace ContractIR.Builder

theorem size_withVar (b : Builder) (type : Ty) (name : Option String) :
    (b.withVar type name).table.size = b.table.size + 1 :=
  VarTable.size_declare _ _ _

/-- A call that fails changes nothing, unless it was to bind a new variable; then that variable is
added to the table, and all else is as it was. -/
theorem failed_call_leaves (b : Builder) (c : Call) {d : Diagnostic} {b' : Builder}
    (h : step c.perform b = (.error d, b')) :
    (c.newVar? = none → b' = b) ∧
      (∀ v, c.newVar? = some v → b' = { b with table := ⟨b.table.vars.push v⟩ }) ∧
      (b' = b ↔ c.newVar? = none) := by
  have he : Effect b ⟨c, .error d⟩ b' := by
    have heffect := b.effect c
    rwa [h] at heffect
  cases he with
  | failed _ hc =>
    refine ⟨fun _ => rfl, fun v hv => ?_, fun _ => hc, fun _ => rfl⟩
    rw [hc] at hv
    cases hv
  | @unbound c type name make d hc =>
    have hvar := hc.newVar?
    have hne : b.withVar type name ≠ b := by
      intro heq
      have hsize := b.size_withVar type name
      rw [heq] at hsize
      omega
    refine ⟨fun hnone => ?_, fun v hv => ?_, fun heq => absurd heq hne, fun hnone => ?_⟩
    · rw [hvar] at hnone
      cases hnone
    · obtain rfl := Option.some.inj (hvar.symm.trans hv)
      rfl
    · rw [hvar] at hnone
      cases hnone

/-- A block that is complete, and a phi that comes too late for it. -/
theorem failed_call_leaves_late :
    ∃ b₀, start .evm 0 "max" [] [] = .ok b₀ ∧
      let b := (b₀.session
        [.createBlock none, .switchTo 0, .emit (.terminate (.ret []))]).builder
      let c : Call := .phi .bool [] (some "late")
      let b' := (step c.perform b).2
      step c.perform b = (.error (.loweringError .invalidEmit (some "phi after terminator")
          (some { function := some "max", block := some 0, instruction := some 1 })), b') ∧
        b' = { b with table := ⟨#[⟨.bool, some "late"⟩]⟩ } := by
  obtain ⟨b₀, hstart⟩ : ∃ b₀, start .evm 0 "max" [] [] = .ok b₀ := ⟨_, rfl⟩
  refine ⟨b₀, hstart, ?_⟩
  intro b c b'
  have hfails : step c.perform b = (.error (.loweringError .invalidEmit
      (some "phi after terminator")
      (some { function := some "max", block := some 0, instruction := some 1 })), b') := by
    cases hstart
    rfl
  have htable : b.table = {} := by
    cases hstart
    rfl
  refine ⟨hfails, ?_⟩
  have hleft := (failed_call_leaves b c hfails).2.1 ⟨.bool, some "late"⟩ rfl
  rwa [htable] at hleft

/-- A new builder has no variables and no block to add to.  Setting a new variable fails there, and
the builder has a variable afterwards. -/
theorem failed_set_changes_table :
    ∃ b₀, start .evm 0 "max" [] [] = .ok b₀ ∧
      let c : Call := .setNew (.bool true) .bool none
      let b' := (step c.perform b₀).2
      step c.perform b₀ = (.error (.loweringError .noCurrentBlock (some "set")
          (some { function := some "max" })), b') ∧
        b₀.table.size = 0 ∧ b'.table.size = 1 :=
  ⟨_, rfl, rfl, rfl, rfl⟩

end ContractIR.Builder
