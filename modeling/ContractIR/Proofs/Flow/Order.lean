import ContractIR.Proofs.Faults
import ContractIR.Proofs.Flow.Search

/-!
# ContractIR.Proofs.Flow.Order — the order in which blocks are printed

The order in which blocks are printed has two parts: what the walk from the entry finds, and the
blocks that it does not find, which are those that validation warns about.  In the first part blocks
follow the control flow.

* `Func.printOrder_partition`: every block stands in one of the two parts, once.
* `Func.printOrder_controlFlow`: a block stands before its successors and before the blocks that it
  dominates, as far as cycles permit.
-/

namespace ContractIR

namespace IdMap

variable {α : Type}

theorem keys_nodup (m : IdMap α) : m.keys.Nodup := m.nodup

theorem filterMap_get?_keys (m : IdMap α) : m.keys.filterMap m.get? = m.values := by
  rw [keys, List.filterMap_map, values, ← List.filterMap_eq_map]
  refine List.filterMap_congr fun e he => ?_
  exact get?_eq_some_iff.2 he

end IdMap

namespace Func

variable {f : Func}

/-! ### The two parts -/

/-- The walk from the entry finds the blocks with a path from there. -/
theorem mem_walkFromEntry_iff {x : BlockId} : x ∈ f.walkFromEntry.2 ↔ f.Reached x := by
  have h := f.walkFromEntry_search
  have hseen : ∀ {y}, y ∈ f.walkFromEntry.1 → y ∈ f.walkFromEntry.2 := fun hy =>
    (h.mem_seen_iff.1 hy).resolve_right List.not_mem_nil
  constructor
  · intro hx
    obtain ⟨t, ht, p, hp, -⟩ := h.exists_path x hx
    rw [List.mem_singleton.1 ht] at hp
    exact ⟨h.mem_keys x hx, p, hp⟩
  · intro hx
    have hentry : f.entry ∈ f.walkFromEntry.1 :=
      h.mem_seen_of_mem_todo f.entry List.mem_cons_self hx.entry_mem
    exact hseen (mem_of_closed (fun y hy => h.closed y (hseen hy)) hentry hx.1 hx.2)

/-- What the walk has not seen are the blocks that cannot be reached. -/
theorem unseen_walkFromEntry (f : Func) : f.unseen f.walkFromEntry.1 = f.unreachable := by
  refine List.filter_congr fun x _ => ?_
  rw [decide_eq_decide, not_iff_not, mem_reachable_iff, ← mem_walkFromEntry_iff,
    f.walkFromEntry_search.mem_seen_iff]
  simp

theorem printOrder_eq (f : Func) : f.printOrder = f.walkFromEntry.2 ++ f.unreachable := by
  rw [printOrder, unseen_walkFromEntry]

theorem unreachable_of_search {seen found : List BlockId}
    (h : f.Search [] [f.entry] seen found) : f.unreachable = f.unseen seen := by
  rw [← unseen_walkFromEntry, walkFromEntry_of_search h]

theorem printOrder_of_search {seen found : List BlockId}
    (h : f.Search [] [f.entry] seen found) : f.printOrder = found ++ f.unseen seen := by
  rw [printOrder, walkFromEntry_of_search h]

theorem printOrder_nodup (f : Func) : f.printOrder.Nodup := by
  rw [printOrder_eq]
  refine List.nodup_append'.2 ⟨f.walkFromEntry_search.nodup, f.blocks.keys_nodup.filter _, ?_⟩
  intro x hx hx'
  have hnot : x ∉ f.reachable := by simpa using (List.mem_filter.1 hx').2
  exact hnot (mem_reachable_iff.2 (mem_walkFromEntry_iff.1 hx))

theorem printOrder_perm (f : Func) : f.printOrder.Perm f.blocks.keys := by
  rw [List.perm_ext_iff_of_nodup f.printOrder_nodup f.blocks.keys_nodup]
  intro x
  rw [printOrder_eq, List.mem_append, mem_walkFromEntry_iff, ← mem_reachable_iff, unreachable,
    unseen, List.mem_filter, decide_eq_true_eq]
  have hkey : x ∈ f.reachable → x ∈ f.blocks.keys := fun h => (mem_reachable_iff.1 h).1
  tauto

/-- A loop of two blocks, one of which also jumps to itself.  A jump to the missing block 40 is
possible, and no block jumps to block 4. -/
def tangled : Func where
  id := 0
  name := "tangled"
  params := []
  returns := []
  entry := 5
  blocks := ⟨[
    (4, { id := 4, instructions := [.terminate (.branch 9)] }),
    (9, { id := 9, instructions := [.terminate (.ret [])] }),
    (8, { id := 8, instructions :=
      [.terminate (.switch (.bool true) [(.bool true, 7), (.bool false, 8)] 9)] }),
    (7, { id := 7, instructions :=
      [.terminate (.switch (.bool true) [(.bool true, 8), (.bool false, 40)] 8)] }),
    (5, { id := 5, instructions := [.terminate (.branch 7)] })], by decide⟩
  table := ⟨#[]⟩

/-- Of the members of a list without repetitions, the earlier has the smaller index. -/
theorem idxOf_lt_idxOf {l : List BlockId} {a b : BlockId} (hnd : l.Nodup)
    (h : [a, b].Sublist l) : l.idxOf a < l.idxOf b := by
  obtain ⟨l₁, l₂, rfl, ha, hb⟩ := List.cons_sublist_iff.1 h
  have hb' : b ∉ l₁ := fun hb' =>
    (List.nodup_append'.1 hnd).2.2 hb' (List.singleton_sublist.1 hb)
  rw [List.idxOf_append_of_mem ha, List.idxOf_append_of_notMem hb']
  have := List.idxOf_lt_length_of_mem ha
  omega

theorem idxOf_printOrder_lt {a b : BlockId} (h : [a, b].Sublist f.walkFromEntry.2) :
    f.printOrder.idxOf a < f.printOrder.idxOf b := by
  refine idxOf_lt_idxOf f.printOrder_nodup (h.trans ?_)
  rw [printOrder_eq]
  exact List.sublist_append_left _ _

/-- Among the blocks that control can reach, a block stands before each successor from which there
is no way back, and before every other block that it dominates.  So the order is a topological one
if there is no way back along any edge. -/
theorem printOrder_controlFlow (f : Func) :
    (∀ u v, f.Reached u → f.Reached v → f.Edge u v → ¬ f.Reaches v u →
      f.printOrder.idxOf u < f.printOrder.idxOf v) ∧
    (∀ d b, f.Reached d → f.Reached b → d ≠ b → f.Dominates d b →
      f.printOrder.idxOf d < f.printOrder.idxOf b) ∧
    ((∀ u v, f.Reached u → f.Reached v → f.Edge u v → ¬ f.Reaches v u) →
      ∀ u v, f.Reached u → f.Reached v → f.Edge u v →
        f.printOrder.idxOf u < f.printOrder.idxOf v) := by
  have hedge : ∀ u v, f.Reached u → f.Reached v → f.Edge u v → ¬ f.Reaches v u →
      f.printOrder.idxOf u < f.printOrder.idxOf v := by
    intro u v hu hv huv hback
    have horder := f.walkFromEntry_search.edge_order u (mem_walkFromEntry_iff.2 hu) v
      (mem_walkFromEntry_iff.2 hv) huv
    exact idxOf_printOrder_lt (horder.resolve_right hback)
  refine ⟨hedge, fun d b _ hb hne hdom => ?_, fun hacyclic u v hu hv huv => ?_⟩
  · -- the walk itself came to `b` along a path, so `d` lies on that one
    obtain ⟨t, ht, p, hp, hbefore⟩ :=
      f.walkFromEntry_search.exists_path b (mem_walkFromEntry_iff.2 hb)
    rw [List.mem_singleton.1 ht] at hp
    exact idxOf_printOrder_lt (hbefore d (hdom p hp) hne)
  · exact hedge u v hu hv huv (hacyclic u v hu hv huv)

theorem printOrder_controlFlow_tangled :
    tangled.Reached 7 ∧ tangled.Reached 8 ∧ tangled.Reached 9 ∧ tangled.Edge 8 9 ∧
      ¬ tangled.Reaches 9 8 ∧ tangled.Dominates 7 9 ∧
      tangled.printOrder.idxOf 8 < tangled.printOrder.idxOf 9 ∧
      tangled.printOrder.idxOf 7 < tangled.printOrder.idxOf 9 := by
  have h57 : tangled.Edge 5 7 := edge_iff.2 ⟨_, rfl, by decide⟩
  have h78 : tangled.Edge 7 8 := edge_iff.2 ⟨_, rfl, by decide⟩
  have h89 : tangled.Edge 8 9 := edge_iff.2 ⟨_, rfl, by decide⟩
  have h7 : tangled.Reached 7 := ⟨by decide, .head h57 (.refl 7)⟩
  have h8 : tangled.Reached 8 := ⟨by decide, .head h57 (.head h78 (.refl 8))⟩
  have h9 : tangled.Reached 9 := ⟨by decide, .head h57 (.head h78 (.head h89 (.refl 9)))⟩
  have hback : ¬ tangled.Reaches 9 8 := by
    rintro ⟨p, hp⟩
    cases hp with
    | cons hedge _ =>
      obtain ⟨b, hb, hsucc⟩ := edge_iff.1 hedge
      cases hb
      cases hsucc
  have hdom : tangled.Dominates 7 9 := by
    intro p hp
    change tangled.Path 5 9 p at hp
    cases hp with
    | cons hedge hp =>
      -- the only way on from the entry is to block 7
      obtain ⟨b, hb, hsucc⟩ := edge_iff.1 hedge
      cases hb
      obtain rfl := List.mem_singleton.1 hsucc
      cases hp
      simp
  obtain ⟨hedges, hdoms, -⟩ := printOrder_controlFlow tangled
  exact ⟨h7, h8, h9, h89, hback, hdom, hedges 8 9 h8 h9 h89 hback,
    hdoms 7 9 h7 h9 (by decide) hdom⟩

end Func

end ContractIR
