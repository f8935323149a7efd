import ContractIR.Proofs.Flow.Order

/-!
# ContractIR.Proofs.Flow.DepthFirst — the order of blocks by recursion

`Func.visit` is the depth-first search as it is written down without a stack: it marks a block when
it enters it, visits the successors from last to first, and then leaves the block.  The order in
which blocks are printed is the reverse of the order in which the search leaves them.  Where the
blocks form a tree this is the pre-order of the tree (`Func.Preordered`).

* `Func.visit_eq`: the recursion.
* `Func.Search.foldl_visit`: what is marked and left is what `Func.Search` describes.
* `Func.Search.preordered`: in a tree, what is found stands in pre-order.
* `Func.printOrder_depthFirst`: the order of blocks.
-/

namespace ContractIR.Func

/-! ### The search as a recursive function -/

/-- What a search keeps: the blocks that it has marked, and those that it has left again, in the
order in which it left them. -/
structure Trail where
  marked : List BlockId := []
  left : List BlockId := []

namespace Trail

/-- The trail after one more block has been marked. -/
def mark (t : Trail) (id : BlockId) : Trail := { t with marked := id :: t.marked }

/-- The trail after one more block has been left. -/
def leave (t : Trail) (id : BlockId) : Trail := { t with left := t.left ++ [id] }

end Trail

mutual

/-- `visit`, together with the fact that no mark is taken back, which is why the search ends. -/
def visitGrowing (f : Func) (id : BlockId) (t : Trail) : { u : Trail // t.marked ⊆ u.marked } :=
  if _ : id ∈ t.marked ∨ f.blocks.get? id = none then ⟨t, List.Subset.refl _⟩
  else
    let u := f.visitAllGrowing (f.successors id).reverse (t.mark id)
    ⟨u.1.leave id, fun _ hx => u.2 (List.mem_cons_of_mem id hx)⟩
termination_by ((f.unseen t.marked).length, 0)
decreasing_by
  rename_i h
  obtain ⟨hmarked, hb⟩ := not_or.1 h
  obtain ⟨b, hb⟩ := Option.ne_none_iff_exists'.1 hb
  exact Prod.Lex.left _ _ (length_unseen_cons_lt hb hmarked)

/-- Visits blocks one after the other. -/
def visitAllGrowing (f : Func) (ids : List BlockId) (t : Trail) :
    { u : Trail // t.marked ⊆ u.marked } :=
  match ids with
  | [] => ⟨t, List.Subset.refl _⟩
  | id :: rest =>
    let u := f.visitGrowing id t
    let v := f.visitAllGrowing rest u.1
    ⟨v.1, List.Subset.trans u.2 v.2⟩
termination_by ((f.unseen t.marked).length, ids.length + 1)
decreasing_by
  · exact Prod.Lex.right _ (by simp)
  · rcases Nat.lt_or_eq_of_le (length_unseen_le u.2) with hlt | heq
    · exact Prod.Lex.left _ _ hlt
    · rw [heq]
      exact Prod.Lex.right _ (by simp)

end

/-- Visits a block by depth-first search.  A block that is marked, or that the function does not
have, is skipped.  Any other is marked, its successors are visited from last to first, and then the
block is left. -/
def visit (f : Func) (id : BlockId) (t : Trail) : Trail := (f.visitGrowing id t).1

variable {f : Func} {id : BlockId} {t : Trail}

theorem visitAllGrowing_eq (ids : List BlockId) (t : Trail) :
    (f.visitAllGrowing ids t).1 = ids.foldl (fun u next => f.visit next u) t := by
  induction ids generalizing t with
  | nil => rw [visitAllGrowing, List.foldl_nil]
  | cons id rest ih =>
    rw [visitAllGrowing, List.foldl_cons, ← ih]
    rfl

theorem visit_eq (f : Func) (id : BlockId) (t : Trail) :
    f.visit id t =
      if id ∈ t.marked ∨ f.blocks.get? id = none then t
      else
        ((f.successors id).reverse.foldl (fun u next => f.visit next u) (t.mark id)).leave id := by
  rw [visit, visitGrowing]
  split
  · rfl
  · show (f.visitAllGrowing (f.successors id).reverse (t.mark id)).1.leave id = _
    rw [visitAllGrowing_eq]

theorem visit_enter {b : Block} (hmarked : id ∉ t.marked) (hb : f.blocks.get? id = some b) :
    f.visit id t =
      (b.successors.reverse.foldl (fun u next => f.visit next u) (t.mark id)).leave id := by
  have hnone : f.blocks.get? id ≠ none := Option.ne_none_iff_exists'.2 ⟨b, hb⟩
  rw [visit_eq, if_neg (not_or.2 ⟨hmarked, hnone⟩), successors_eq_of_get? hb]

/-- The search that is described by `Search` is the one that `visit` performs. -/
theorem Search.foldl_visit {seen todo seen' found : List BlockId}
    (h : f.Search seen todo seen' found) (left : List BlockId) :
    todo.foldl (fun u next => f.visit next u) ⟨seen, left⟩ = ⟨seen', left ++ found.reverse⟩ := by
  induction h generalizing left with
  | nil seen => simp
  | skip hskip _ ih => rw [List.foldl_cons, visit_eq, if_pos hskip, ih]
  | @enter next b seen todo mid inner seen' found hseen hb _ _ ihInner ihTodo =>
    have hvisit : f.visit next ⟨seen, left⟩ = ⟨mid, left ++ inner.reverse ++ [next]⟩ := by
      rw [visit_enter hseen hb, Trail.mark, ihInner, Trail.leave]
    rw [List.foldl_cons, hvisit, ihTodo]
    simp

theorem visit_entry (f : Func) :
    f.visit f.entry {} = ⟨f.walkFromEntry.1, f.walkFromEntry.2.reverse⟩ :=
  f.walkFromEntry_search.foldl_visit []

/-! ### Trees -/

/-- The blocks that control can reach form a tree: only one path leads from the entry to each of
them, and none of them names a successor twice. -/
structure TreeShaped (f : Func) : Prop where
  path_unique : ∀ {id p q}, id ∈ f.blocks.keys → f.Path f.entry id p → f.Path f.entry id q → p = q
  successors_nodup : ∀ id, f.Reached id → (f.successors id).Nodup

/-- The blocks of a list, each followed by what is below it, in the order of the successors.  Blocks
that the function does not have are left out. -/
inductive Preordered (f : Func) : (ids order : List BlockId) → Prop
  | nil : Preordered f [] []
  | missing {id : BlockId} {ids order : List BlockId} : f.blocks.get? id = none →
      Preordered f ids order → Preordered f (id :: ids) order
  | block {id : BlockId} {b : Block} {ids below order : List BlockId} :
      f.blocks.get? id = some b → Preordered f b.successors below →
      Preordered f ids order → Preordered f (id :: ids) (id :: below ++ order)

namespace Preordered

variable {ids ids' order order' : List BlockId}

theorem append (h : f.Preordered ids order) (h' : f.Preordered ids' order') :
    f.Preordered (ids ++ ids') (order ++ order') := by
  induction h with
  | nil => exact h'
  | missing hnone _ ih => exact .missing hnone ih
  | block hb hbelow _ _ ih =>
    rw [List.append_assoc]
    exact .block hb hbelow ih

theorem unique (h : f.Preordered ids order) (h' : f.Preordered ids order') : order = order' := by
  induction h generalizing order' with
  | nil =>
    cases h'
    rfl
  | missing hnone _ ih =>
    cases h' with
    | missing _ h' => exact ih h'
    | block hb _ _ => cases hnone.symm.trans hb
  | block hb _ _ ihBelow ih =>
    cases h' with
    | missing hnone _ => cases hnone.symm.trans hb
    | block hb' hbelow' h' =>
      obtain rfl := Option.some.inj (hb.symm.trans hb')
      rw [ihBelow hbelow', ih h']

end Preordered

/-- No block is reached from both. -/
def Apart (f : Func) (a b : BlockId) : Prop :=
  ∀ z ∈ f.blocks.keys, f.Reaches a z → ¬ f.Reaches b z

theorem Apart.symm {a b : BlockId} (h : f.Apart a b) : f.Apart b a :=
  fun z hz hb ha => h z hz ha hb

namespace TreeShaped

/-- Two paths that part at a block do not meet again. -/
theorem apart_successors (h : f.TreeShaped) {x : BlockId} (hx : f.Reached x) :
    (f.successors x).Pairwise f.Apart := by
  refine (h.successors_nodup x hx).imp_of_mem ?_
  intro a b ha hb hne z hz haz hbz
  obtain ⟨p, hp⟩ := hx.2
  obtain ⟨q, hq⟩ := haz
  obtain ⟨r, hr⟩ := hbz
  have hsame : p ++ q = p ++ r := h.path_unique hz (hp.append (mem_successors_iff.1 ha) hq)
    (hp.append (mem_successors_iff.1 hb) hr)
  have hhead : some a = some b := by
    rw [← hq.head?_eq, ← hr.head?_eq, List.append_cancel_left hsame]
  exact hne (Option.some.inj hhead)

theorem not_reaches_back (h : f.TreeShaped) {x y : BlockId} (hx : f.Reached x)
    (hedge : f.Edge x y) : ¬ f.Reaches y x := by
  rintro ⟨q, hq⟩
  obtain ⟨hkey, p, hp⟩ := hx
  have hsame : p ++ q = p := h.path_unique hkey (hp.append hedge hq) hp
  have hhead := hq.head?_eq
  rw [List.append_right_eq_self.1 hsame] at hhead
  cases hhead

end TreeShaped

/-- In a tree the search never comes upon a block that it has seen, and so what it finds stands in
pre-order.  The search takes successors from last to first, hence the reversal. -/
theorem Search.preordered {seen todo seen' found : List BlockId} (htree : f.TreeShaped)
    (h : f.Search seen todo seen' found)
    (hreached : ∀ x ∈ todo, x ∈ f.blocks.keys → f.Reached x)
    (hfresh : ∀ x ∈ todo, ∀ z ∈ f.blocks.keys, f.Reaches x z → z ∉ seen)
    (hapart : todo.Pairwise f.Apart) : f.Preordered todo.reverse found := by
  -- the induction keeps that nothing below `todo` has been seen, and that no two of its blocks
  -- share anything below them
  induction h with
  | nil seen => exact .nil
  | @skip next seen todo seen' found hskip htodo ih =>
    obtain ⟨hnext, hfresh⟩ := List.forall_mem_cons.1 hfresh
    have hnone : f.blocks.get? next = none := by
      rcases hskip with hseen | hnone
      · by_contra hsome
        obtain ⟨b, hb⟩ := Option.ne_none_iff_exists'.1 hsome
        exact hnext next (IdMap.mem_keys_of_get? hb) (.refl next) hseen
      · exact hnone
    have hrest := ih (List.forall_mem_cons.1 hreached).2 hfresh (List.pairwise_cons.1 hapart).2
    rw [List.reverse_cons, ← List.append_nil found]
    exact hrest.append (.missing hnone .nil)
  | @enter next b seen todo mid inner seen' found hseen hb hinner htodo ihInner ihTodo =>
    obtain ⟨hnext, hreached⟩ := List.forall_mem_cons.1 hreached
    obtain ⟨hfreshNext, hfresh⟩ := List.forall_mem_cons.1 hfresh
    obtain ⟨hapartNext, hapart⟩ := List.pairwise_cons.1 hapart
    have hnext : f.Reached next := hnext (IdMap.mem_keys_of_get? hb)
    have hedge : ∀ x ∈ b.successors.reverse, f.Edge next x := fun x hx =>
      edge_iff.2 ⟨b, hb, List.mem_reverse.1 hx⟩
    have hbelow : f.Preordered b.successors inner := by
      rw [← List.reverse_reverse b.successors]
      refine ihInner (fun x hx => hnext.step (hedge x hx)) (fun x hx z hz hxz hmem => ?_) ?_
      · rcases List.mem_cons.1 hmem with rfl | hmem
        · exact htree.not_reaches_back hnext (hedge x hx) hxz
        · exact hfreshNext z hz (hxz.head (hedge x hx)) hmem
      · have hpairwise := htree.apart_successors hnext
        rw [successors_eq_of_get? hb] at hpairwise
        exact List.pairwise_reverse.2 (hpairwise.imp Apart.symm)
    have hrest : f.Preordered todo.reverse found := by
      refine ihTodo hreached (fun x hx z hz hxz hmem => ?_) hapart
      -- all that has been seen below `next` is reached from it, and hence not from `x`
      have hnextz : f.Reaches next z → False := fun h => hapartNext x hx z hz h hxz
      rcases hinner.mem_seen_iff.1 hmem with hmem | hmem
      · obtain ⟨y, hy, p, hp, -⟩ := hinner.exists_path z hmem
        exact hnextz (.head (hedge y hy) ⟨p, hp⟩)
      · rcases List.mem_cons.1 hmem with rfl | hmem
        · exact hnextz (.refl z)
        · exact hfresh x hx z hz hxz hmem
    rw [List.reverse_cons, ← List.append_nil inner]
    exact hrest.append (.block hb hbelow .nil)

theorem TreeShaped.preordered_walkFromEntry (h : f.TreeShaped) :
    f.Preordered [f.entry] f.walkFromEntry.2 := by
  refine f.walkFromEntry_search.preordered h ?_ ?_ (List.pairwise_singleton _ _)
  · exact List.forall_mem_singleton.2 fun hkey => ⟨hkey, .refl f.entry⟩
  · exact fun _ _ _ _ _ => List.not_mem_nil

/-- Blocks are printed in the reverse of the order in which a depth-first search from the entry
leaves them, which visits successors from last to first; then come the blocks that it has not
marked, in the order in which they were added.  If the blocks that control can reach form a tree,
they are printed in pre-order, with successors as they are named. -/
theorem printOrder_depthFirst (f : Func) :
    f.printOrder =
      (f.visit f.entry {}).left.reverse ++ f.unseen (f.visit f.entry {}).marked ∧
    (f.TreeShaped →
      (∃ order, f.Preordered [f.entry] order) ∧
      ∀ order, f.Preordered [f.entry] order → f.printOrder = order ++ f.unreachable) := by
  refine ⟨?_, fun h => ⟨⟨_, h.preordered_walkFromEntry⟩, fun order horder => ?_⟩⟩
  · rw [visit_entry, List.reverse_reverse]
    rfl
  · rw [printOrder_eq, h.preordered_walkFromEntry.unique horder]

/-- A tree of blocks that is entered at block 3.  The successors of the entry are the blocks 1 and 2
and a missing one between them; block 7 cannot be reached and leads into the tree. -/
def branching : Func where
  id := 0
  name := "branching"
  params := []
  returns := []
  entry := 3
  blocks := ⟨[
    (2, { id := 2, instructions := [.terminate (.ret [])] }),
    (7, { id := 7, instructions := [.terminate (.branch 1)] }),
    (4, { id := 4, instructions := [.terminate (.ret [])] }),
    (1, { id := 1, instructions := [.terminate (.branchCond (.bool true) 6 4)] }),
    (6, { id := 6, instructions := [.terminate (.ret [])] }),
    (3, { id := 3, instructions :=
      [.terminate (.switch (.bool true) [(.bool true, 1), (.bool false, 40)] 2)] })], by decide⟩
  table := ⟨#[]⟩

/-- The paths from the entry of `branching`, each with the block to which it leads. -/
def branchingPaths : List (BlockId × List BlockId) :=
  [(3, [3]), (1, [3, 1]), (6, [3, 1, 6]), (4, [3, 1, 4]), (40, [3, 40]), (2, [3, 2])]

theorem mem_branchingPaths {id : BlockId} {p : List BlockId} (h : branching.Path 3 id p) :
    (id, p) ∈ branchingPaths := by
  have hleaf : ∀ {a z q}, branching.successors a = [] → branching.Path a z q →
      (z, q) = (a, [a]) := by
    intro a z q ha hq
    cases hq with
    | single => rfl
    | cons hedge _ => cases ha ▸ mem_successors_iff.2 hedge
  have hone : ∀ {z q}, branching.Path 1 z q → (z, q) ∈ [(1, [1]), (6, [1, 6]), (4, [1, 4])] := by
    intro z q hq
    cases hq with
    | single => simp
    | @cons _ b _ q hedge hq =>
      have hb : b ∈ [6, 4] := mem_successors_iff.2 hedge
      rcases List.mem_pair.1 hb with rfl | rfl
      · cases hleaf rfl hq
        simp
      · cases hleaf rfl hq
        simp
  cases h with
  | single => simp [branchingPaths]
  | @cons _ b _ q hedge hq =>
    have hb : b ∈ [1, 40, 2] := mem_successors_iff.2 hedge
    simp only [List.mem_cons, List.not_mem_nil, or_false] at hb
    rcases hb with rfl | rfl | rfl
    · have hbelow := hone hq
      simp only [List.mem_cons, Prod.mk.injEq, List.not_mem_nil, or_false] at hbelow
      rcases hbelow with ⟨rfl, rfl⟩ | ⟨rfl, rfl⟩ | ⟨rfl, rfl⟩ <;> simp [branchingPaths]
    · cases hleaf rfl hq
      simp [branchingPaths]
    · cases hleaf rfl hq
      simp [branchingPaths]

theorem branching_treeShaped : branching.TreeShaped where
  path_unique _ hp hq := by
    have hnodup : (branchingPaths.map Prod.fst).Nodup := by decide
    exact congrArg Prod.snd (List.inj_on_of_nodup_map hnodup (mem_branchingPaths hp)
      (mem_branchingPaths hq) rfl)
  successors_nodup id hid := by
    have hnodup : ∀ x ∈ branching.blocks.keys, (branching.successors x).Nodup := by decide
    exact hnodup id hid.1

theorem printOrder_depthFirst_branching :
    branching.TreeShaped ∧ branching.Preordered [3] [3, 1, 6, 4, 2] ∧
      branching.printOrder = [3, 1, 6, 4, 2] ++ branching.unreachable ∧
      branching.unreachable = [7] := by
  have horder : branching.Preordered [3] [3, 1, 6, 4, 2] := by
    have hone : branching.Preordered [6, 4] _ := .block rfl .nil (.block rfl .nil .nil)
    have htwo : branching.Preordered [40, 2] _ := .missing rfl (.block rfl .nil .nil)
    have hthree : branching.Preordered [3] _ := .block rfl (.block rfl hone htwo) .nil
    exact hthree
  have hunreachable : branching.unreachable = [7] := by
    have hone : branching.Search [1, 2, 3] [4, 6] _ _ :=
      .enter (by decide) rfl (.nil _) (.enter (by decide) rfl (.nil _) (.nil _))
    have hthree : branching.Search [3] [2, 40, 1] _ _ :=
      .enter (by decide) rfl (.nil _)
        (.skip (.inr rfl) (.enter (by decide) rfl hone (.nil _)))
    have hsearch : branching.Search [] [3] _ _ := .enter (by decide) rfl hthree (.nil _)
    exact unreachable_of_search hsearch
  obtain ⟨-, htree⟩ := printOrder_depthFirst branching
  exact ⟨branching_treeShaped, horder, (htree branching_treeShaped).2 _ horder, hunreachable⟩

end ContractIR.Func
