import ContractIR.Printer
import ContractIR.Proofs.Flow.Order

/-!
# ContractIR.Proofs.Flow.Insertion — the order in which blocks were added does not matter

The walk from the entry looks blocks up and does nothing else with them.  So the order in which they
were added shows only in the blocks that it does not find, and not at all in the text of a function
that has none.
-/

namespace ContractIR.Func

/-- The functions are the same, except that their blocks may have been added in different orders. -/
structure Reorders (f g : Func) : Prop where
  rest_eq : g = { f with blocks := g.blocks }
  blocks_perm : f.blocks.entries.Perm g.blocks.entries

variable {f g : Func}

/-- The walk depends only on what is found by looking blocks up. -/
theorem walk_congr (h : ∀ id, g.blocks.get? id = f.blocks.get? id) (seen : List BlockId)
    (stack : List Frame) (order : List BlockId) :
    g.walk seen stack order = f.walk seen stack order := by
  fun_induction f.walk seen stack order with
  | case1 seen order => rw [walk]
  | case2 seen order id rest ih => rw [walk, ih]
  | case3 seen order id next pending rest hseen ih => rw [walk_skip (.inl hseen), ih]
  | case4 seen order id next pending rest hseen hnone ih =>
    rw [walk_skip (.inr ((h next).trans hnone)), ih]
  | case5 seen order id next pending rest hseen b hb ih =>
    rw [walk_enter hseen ((h next).trans hb), ih]

namespace Reorders

variable (h : f.Reorders g)

include h

theorem get?_eq (id : BlockId) : g.blocks.get? id = f.blocks.get? id := by
  refine Option.ext fun b => ?_
  rw [IdMap.get?_eq_some_iff, IdMap.get?_eq_some_iff, h.blocks_perm.mem_iff]

theorem entry_eq : g.entry = f.entry := by rw [h.rest_eq]

theorem walkFromEntry_eq : g.walkFromEntry = f.walkFromEntry := by
  simp only [walkFromEntry, h.entry_eq, h.get?_eq, walk_congr h.get?_eq]

end Reorders

/-- A function without unreachable blocks is printed in the order of the walk. -/
theorem printOrder_of_reaches (h : ∀ id ∈ f.blocks.keys, f.Reaches f.entry id) :
    f.printOrder = f.walkFromEntry.2 := by
  have hnone : f.unreachable = [] := by
    refine List.filter_eq_nil_iff.2 fun id hid => ?_
    simpa using mem_reachable_iff.2 ⟨hid, h id hid⟩
  rw [printOrder_eq, hnone, List.append_nil]

namespace Reorders

variable (h : f.Reorders g)

include h

theorem reached_iff {id : BlockId} : g.Reached id ↔ f.Reached id := by
  rw [← mem_walkFromEntry_iff, h.walkFromEntry_eq, mem_walkFromEntry_iff]

theorem mem_keys_iff {id : BlockId} : id ∈ g.blocks.keys ↔ id ∈ f.blocks.keys :=
  (h.blocks_perm.map Prod.fst).symm.mem_iff

theorem printOrder_eq (hreach : ∀ id ∈ f.blocks.keys, f.Reaches f.entry id) :
    g.printOrder = f.printOrder := by
  have hreach' : ∀ id ∈ g.blocks.keys, g.Reaches g.entry id := by
    intro id hid
    have hid' := h.mem_keys_iff.1 hid
    exact (h.reached_iff.2 ⟨hid', hreach id hid'⟩).2
  rw [printOrder_of_reaches hreach, printOrder_of_reaches hreach', h.walkFromEntry_eq]

/-- Nothing that is printed of the two functions differs. -/
theorem printFunc_eq (hreach : ∀ id ∈ f.blocks.keys, f.Reaches f.entry id) :
    Printer.printFunc g = Printer.printFunc f := by
  have hid : g.id = f.id := by rw [h.rest_eq]
  have hname : g.name = f.name := by rw [h.rest_eq]
  have hparams : g.params = f.params := by rw [h.rest_eq]
  have hreturns : g.returns = f.returns := by rw [h.rest_eq]
  have htable : g.table = f.table := by rw [h.rest_eq]
  have hget : g.blocks.get? = f.blocks.get? := funext h.get?_eq
  rw [Printer.printFunc, Printer.printFunc, Printer.writeFunc, Printer.writeFunc, hid, hname,
    hparams, hreturns, htable, hget, h.printOrder_eq hreach]

end Reorders

/-- The text of a function, or the error that printing it ends with, does not depend on the order in
which its blocks were added, if control can reach all of them.  If it cannot, those that it can
reach still come first, in the same order. -/
theorem text_eq_of_reorders (h : f.Reorders g) :
    ((∀ id ∈ f.blocks.keys, f.Reaches f.entry id) → g.text = f.text ∧
      ∀ p, Printer.use (Printer.printFunc g) p = Printer.use (Printer.printFunc f) p) ∧
    ∃ first rest rest', f.printOrder = first ++ rest ∧ g.printOrder = first ++ rest' ∧
      (∀ id, id ∈ first ↔ f.Reached id) ∧ ∀ id, id ∈ first ↔ g.Reached id := by
  refine ⟨fun hreach => ?_, f.walkFromEntry.2, f.unreachable, g.unreachable, f.printOrder_eq, ?_,
    fun _ => mem_walkFromEntry_iff, fun _ => mem_walkFromEntry_iff.trans h.reached_iff.symm⟩
  · rw [text, text, h.printFunc_eq hreach]
    exact ⟨rfl, fun _ => rfl⟩
  · rw [← h.walkFromEntry_eq, g.printOrder_eq]

/-- A block with an instruction that cannot be printed: what it allocates is no buffer. -/
def misprint (id : BlockId) : BlockId × Block :=
  (id, { id := id, instructions :=
    [.set 0 (.allocDynamicBytes .bool (.bool true) none), .terminate (.ret [])] })

/-- A choice between the blocks 2 and 3. -/
def choice : BlockId × Block :=
  (1, { id := 1, instructions := [.terminate (.branchCond (.bool true) 2 3)] })

/-- A function of these blocks, in the order in which they are given. -/
def misprinted (blocks : IdMap Block) : Func where
  id := 0
  name := "misprinted"
  params := []
  returns := []
  entry := 1
  blocks := blocks
  table := ⟨#[]⟩

/-- Block 2 is the first that cannot be printed, even if block 3 was added before it. -/
theorem text_eq_of_reorders_misprinted :
    let f := misprinted ⟨[choice, misprint 2, misprint 3], by decide⟩
    let g := misprinted ⟨[misprint 3, choice, misprint 2], by decide⟩
    f.Reorders g ∧ (∀ id ∈ f.blocks.keys, f.Reaches f.entry id) ∧ g.text = f.text ∧
      f.text = .error (Expr.allocFailure "bool"
        { function := some "misprinted", block := some 2, instruction := some 0 }) := by
  intro f g
  have hreorders : f.Reorders g := ⟨rfl, by decide⟩
  have h12 : f.Edge 1 2 := edge_iff.2 ⟨_, rfl, by decide⟩
  have h13 : f.Edge 1 3 := edge_iff.2 ⟨_, rfl, by decide⟩
  have hreach : ∀ id ∈ f.blocks.keys, f.Reaches f.entry id := by
    intro id hid
    change id ∈ [1, 2, 3] at hid
    simp only [List.mem_cons, List.not_mem_nil, or_false] at hid
    rcases hid with rfl | rfl | rfl
    · exact .refl 1
    · exact .head h12 (.refl 2)
    · exact .head h13 (.refl 3)
  have horder : f.printOrder = [1, 2, 3] := by
    have hsearch : f.Search [] [1] _ _ :=
      .enter (by decide) rfl
        (.enter (by decide) rfl (.nil _) (.enter (by decide) rfl (.nil _) (.nil _))) (.nil _)
    exact printOrder_of_search hsearch
  refine ⟨hreorders, hreach, ((text_eq_of_reorders hreorders).1 hreach).1, ?_⟩
  rw [text, Printer.printFunc, Printer.writeFunc, horder]
  rfl

end ContractIR.Func
