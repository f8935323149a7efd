import ContractIR.Func.Order
import ContractIR.Proofs.Flow.Path

/-!
# ContractIR.Proofs.Flow.Search — the walk with a stack is a depth-first search

`Func.Search` describes a depth-first search by recursion on what is left to look at, without a
stack.  The walk performs it (`Func.walk_append`, `Func.walkFromEntry_of_search`), and what is known
about the order of blocks is proved about the search, by induction on its course.

* `Func.Search.mem_seen_iff`, `Search.nodup`, `Search.closed`: what has been seen in the end.
* `Func.Search.exists_path`: every block found is reached through blocks that are left after it.
* `Func.Search.edge_order`: an edge leads to a block that is left earlier, or closes a cycle.
-/

namespace ContractIR.Func

/-- Looking at the blocks of the list `todo` one after the other, a depth-first search that has seen
the blocks `seen` comes to have seen `seen'`.  On the way it enters the blocks `found` and leaves
them again, the first of the list as the last. -/
inductive Search (f : Func) : (seen todo seen' found : List BlockId) → Prop
  | nil (seen : List BlockId) : Search f seen [] seen []
  | skip {next : BlockId} {seen todo seen' found : List BlockId} :
      next ∈ seen ∨ f.blocks.get? next = none → Search f seen todo seen' found →
      Search f seen (next :: todo) seen' found
  | enter {next : BlockId} {b : Block} {seen todo mid inner seen' found : List BlockId} :
      next ∉ seen → f.blocks.get? next = some b →
      Search f (next :: seen) b.successors.reverse mid inner → Search f mid todo seen' found →
      Search f seen (next :: todo) seen' (found ++ next :: inner)

variable {f : Func} {seen todo seen' found : List BlockId}

/-! ### The walk performs the search -/

theorem walk_skip {id next : BlockId} {pending order : List BlockId} {rest : List Frame}
    (h : next ∈ seen ∨ f.blocks.get? next = none) :
    f.walk seen (⟨id, next :: pending⟩ :: rest) order =
      f.walk seen (⟨id, pending⟩ :: rest) order := by
  rw [walk]
  by_cases hseen : next ∈ seen
  · rw [if_pos hseen]
  · rw [if_neg hseen]
    have hnone := h.resolve_left hseen
    split
    · rfl
    · rename_i b hb
      cases hnone.symm.trans hb

theorem walk_enter {id next : BlockId} {b : Block} {pending order : List BlockId}
    {rest : List Frame} (hseen : next ∉ seen) (hb : f.blocks.get? next = some b) :
    f.walk seen (⟨id, next :: pending⟩ :: rest) order =
      f.walk (next :: seen) (.enter next b :: ⟨id, pending⟩ :: rest) order := by
  rw [walk, if_neg hseen]
  split
  · rename_i hnone
    cases hnone.symm.trans hb
  · rename_i b' hb'
    rw [Option.some.inj (hb'.symm.trans hb)]

/-- The walk deals with the pending blocks of its topmost frame as the search does. -/
theorem walk_append (h : f.Search seen todo seen' found) (id : BlockId)
    (more order : List BlockId) (rest : List Frame) :
    f.walk seen (⟨id, todo ++ more⟩ :: rest) order =
      f.walk seen' (⟨id, more⟩ :: rest) (found ++ order) := by
  induction h generalizing id more order rest with
  | nil seen => rfl
  | skip hskip _ ih => rw [List.cons_append, walk_skip hskip, ih]
  | @enter next b seen todo mid inner seen' found hseen hb _ _ ihInner ihTodo =>
    have hinner : f.walk (next :: seen) (.enter next b :: ⟨id, todo ++ more⟩ :: rest) order =
        f.walk mid (⟨id, todo ++ more⟩ :: rest) (next :: (inner ++ order)) := by
      have := ihInner next [] order (⟨id, todo ++ more⟩ :: rest)
      rw [List.append_nil] at this
      rw [Frame.enter, this, walk]
    rw [List.cons_append, walk_enter hseen hb, hinner, ihTodo, List.append_assoc, List.cons_append]

/-- A block has been seen in the end if it was seen before or is found. -/
theorem Search.mem_seen_iff (h : f.Search seen todo seen' found) {x : BlockId} :
    x ∈ seen' ↔ x ∈ found ∨ x ∈ seen := by
  induction h with
  | nil seen => simp
  | skip _ _ ih => exact ih
  | enter _ _ _ _ ihInner ihTodo =>
    rw [ihTodo, ihInner, List.mem_append, List.mem_cons, List.mem_cons]
    tauto

theorem length_unseen_le (h : seen ⊆ seen') :
    (f.unseen seen').length ≤ (f.unseen seen).length := by
  refine (List.monotone_filter_right _ fun x hx => ?_).length_le
  simp only [decide_eq_true_eq] at hx ⊢
  exact fun hx' => hx (h hx')

/-- The search comes to an end from wherever it starts: it can enter only as many blocks as it has
not seen. -/
theorem exists_search (f : Func) (seen todo : List BlockId) :
    ∃ seen' found, f.Search seen todo seen' found := by
  -- entering a block leaves fewer unseen, and skipping one leaves fewer to look at
  induction hn : (f.unseen seen).length using Nat.strongRecOn generalizing seen todo with
  | _ n ih =>
    subst hn
    induction todo generalizing seen with
    | nil => exact ⟨seen, [], .nil seen⟩
    | cons next todo ihTodo =>
      by_cases hseen : next ∈ seen
      · obtain ⟨seen', found, h⟩ := ihTodo seen ih
        exact ⟨seen', found, .skip (.inl hseen) h⟩
      · cases hb : f.blocks.get? next with
        | none =>
          obtain ⟨seen', found, h⟩ := ihTodo seen ih
          exact ⟨seen', found, .skip (.inr hb) h⟩
        | some b =>
          have hlt := length_unseen_cons_lt hb hseen
          obtain ⟨mid, inner, hinner⟩ := ih _ hlt (next :: seen) b.successors.reverse rfl
          have hle : (f.unseen mid).length ≤ (f.unseen (next :: seen)).length :=
            length_unseen_le fun x hx => hinner.mem_seen_iff.2 (.inr hx)
          obtain ⟨seen', found, h⟩ := ih _ (Nat.lt_of_le_of_lt hle hlt) mid todo rfl
          exact ⟨seen', found ++ next :: inner, .enter hseen hb hinner h⟩

/-- The walk from the entry ends as a search does that looks at the entry and has seen nothing
before. -/
theorem walkFromEntry_of_search (h : f.Search [] [f.entry] seen' found) :
    f.walkFromEntry = (seen', found) := by
  cases h with
  | skip hskip htodo =>
    cases htodo
    have hnone := hskip.resolve_left List.not_mem_nil
    rw [walkFromEntry, hnone]
  | @enter _ b _ _ _ inner _ _ hseen hb hinner htodo =>
    cases htodo
    have hwalk := walk_append hinner f.entry [] [] []
    rw [List.append_nil, List.append_nil] at hwalk
    rw [walkFromEntry, hb]
    show f.walk [f.entry] [⟨f.entry, b.successors.reverse⟩] [] = _
    rw [hwalk, walk, walk]
    rfl

theorem walkFromEntry_search (f : Func) :
    f.Search [] [f.entry] f.walkFromEntry.1 f.walkFromEntry.2 := by
  obtain ⟨seen, found, h⟩ := f.exists_search [] [f.entry]
  rwa [walkFromEntry_of_search h]

/-! ### What is found -/

namespace Search

theorem not_mem_seen (h : f.Search seen todo seen' found) : ∀ x ∈ found, x ∉ seen := by
  induction h with
  | nil seen => simp
  | skip _ _ ih => exact ih
  | enter hseen _ hinner _ ihInner ihTodo =>
    intro x hx hx'
    rcases List.mem_append.1 hx with hx | hx
    · exact ihTodo x hx (hinner.mem_seen_iff.2 (.inr (List.mem_cons_of_mem _ hx')))
    · rcases List.mem_cons.1 hx with rfl | hx
      · exact hseen hx'
      · exact ihInner x hx (List.mem_cons_of_mem _ hx')

theorem mem_keys (h : f.Search seen todo seen' found) : ∀ x ∈ found, x ∈ f.blocks.keys := by
  induction h with
  | nil seen => simp
  | skip _ _ ih => exact ih
  | enter _ hb _ _ ihInner ihTodo =>
    refine List.forall_mem_append.2 ⟨ihTodo, List.forall_mem_cons.2 ⟨?_, ihInner⟩⟩
    exact IdMap.mem_keys_of_get? hb

/-- No block is entered twice. -/
theorem nodup (h : f.Search seen todo seen' found) : found.Nodup := by
  induction h with
  | nil seen => exact List.nodup_nil
  | skip _ _ ih => exact ih
  | @enter next b seen todo mid inner seen' found _ _ hinner htodo ihInner ihTodo =>
    have hnext : next ∉ inner := fun h => hinner.not_mem_seen next h List.mem_cons_self
    refine List.nodup_append'.2 ⟨ihTodo, List.nodup_cons.2 ⟨hnext, ihInner⟩, ?_⟩
    intro x hx hx'
    refine htodo.not_mem_seen x hx (hinner.mem_seen_iff.2 ?_)
    exact (List.mem_cons.1 hx').elim (fun he => .inr (he ▸ List.mem_cons_self)) .inl

/-- Every block that was to be looked at has been seen in the end. -/
theorem mem_seen_of_mem_todo (h : f.Search seen todo seen' found) :
    ∀ x ∈ todo, x ∈ f.blocks.keys → x ∈ seen' := by
  induction h with
  | nil seen => simp
  | skip hskip htodo ih =>
    refine List.forall_mem_cons.2 ⟨fun hkey => ?_, ih⟩
    have hseen := hskip.resolve_right fun hnone => IdMap.get?_eq_none_iff.1 hnone hkey
    exact htodo.mem_seen_iff.2 (.inr hseen)
  | enter _ _ hinner htodo _ ih =>
    refine List.forall_mem_cons.2 ⟨fun _ => ?_, ih⟩
    exact htodo.mem_seen_iff.2 (.inr (hinner.mem_seen_iff.2 (.inr List.mem_cons_self)))

/-- What follows a block that is found has been seen in the end. -/
theorem closed (h : f.Search seen todo seen' found) :
    ∀ x ∈ found, ∀ y ∈ f.blocks.keys, f.Edge x y → y ∈ seen' := by
  induction h with
  | nil seen => simp
  | skip _ _ ih => exact ih
  | @enter next b seen todo mid inner seen' found _ hb hinner htodo ihInner ihTodo =>
    have hmid : ∀ {y}, y ∈ mid → y ∈ seen' := fun hy => htodo.mem_seen_iff.2 (.inr hy)
    refine List.forall_mem_append.2 ⟨ihTodo, List.forall_mem_cons.2 ⟨?_, ?_⟩⟩
    · intro y hy hedge
      obtain ⟨b', hb', hsucc⟩ := edge_iff.1 hedge
      rw [Option.some.inj (hb'.symm.trans hb)] at hsucc
      exact hmid (hinner.mem_seen_of_mem_todo y (List.mem_reverse.2 hsucc) hy)
    · exact fun x hx y hy hedge => hmid (ihInner x hx y hy hedge)

section Before

variable {next x y : BlockId} {inner : List BlockId}

theorem sublist_of_mem_inner (hx : x ∈ inner) : [next, x].Sublist (found ++ next :: inner) :=
  ((List.singleton_sublist.2 hx).cons_cons next).trans (List.sublist_append_right _ _)

theorem sublist_of_inner (h : [x, y].Sublist inner) : [x, y].Sublist (found ++ next :: inner) :=
  (h.cons next).trans (List.sublist_append_right _ _)

theorem sublist_of_found (h : [x, y].Sublist found) : [x, y].Sublist (found ++ next :: inner) :=
  h.trans (List.sublist_append_left _ _)

end Before

/-- Every block that is found is reached on a path whose other blocks are left after it. -/
theorem exists_path (h : f.Search seen todo seen' found) :
    ∀ x ∈ found, ∃ t ∈ todo, ∃ p, f.Path t x p ∧ ∀ z ∈ p, z ≠ x → [z, x].Sublist found := by
  induction h with
  | nil seen => simp
  | skip _ _ ih =>
    intro x hx
    obtain ⟨t, ht, hp⟩ := ih x hx
    exact ⟨t, List.mem_cons_of_mem _ ht, hp⟩
  | @enter next b seen todo mid inner seen' found _ hb _ _ ihInner ihTodo =>
    refine List.forall_mem_append.2 ⟨fun x hx => ?_, List.forall_mem_cons.2 ⟨?_, fun x hx => ?_⟩⟩
    · obtain ⟨t, ht, p, hp, hbefore⟩ := ihTodo x hx
      refine ⟨t, List.mem_cons_of_mem _ ht, p, hp, fun z hz hne => ?_⟩
      exact sublist_of_found (hbefore z hz hne)
    · refine ⟨next, List.mem_cons_self, [next], .single next, fun z hz hne => ?_⟩
      exact absurd (List.mem_singleton.1 hz) hne
    · -- the path goes on from `next` to the block below which `x` was found
      obtain ⟨t, ht, p, hp, hbefore⟩ := ihInner x hx
      have hedge : f.Edge next t := edge_iff.2 ⟨b, hb, List.mem_reverse.1 ht⟩
      refine ⟨next, List.mem_cons_self, next :: p, .cons hedge hp, ?_⟩
      refine List.forall_mem_cons.2 ⟨fun _ => sublist_of_mem_inner hx, fun z hz hne => ?_⟩
      exact sublist_of_inner (hbefore z hz hne)

/-- Of two blocks that are found, with an edge from the first to the second, the first is left
after the second, unless the second reaches the first. -/
theorem edge_order (h : f.Search seen todo seen' found) :
    ∀ x ∈ found, ∀ y ∈ found, f.Edge x y → [x, y].Sublist found ∨ f.Reaches y x := by
  induction h with
  | nil seen => simp
  | skip _ _ ih => exact ih
  | @enter next b seen todo mid inner seen' found hseen hb hinner htodo ihInner ihTodo =>
    -- an edge cannot lead from what is found below `next` to what is found later
    have hlater : ∀ x ∈ next :: inner, ∀ y ∈ found, ¬ f.Edge x y := by
      intro x hx y hy hedge
      have hsearch : f.Search seen [next] mid (next :: inner) := .enter hseen hb hinner (.nil mid)
      exact htodo.not_mem_seen y hy (hsearch.closed x hx y (htodo.mem_keys y hy) hedge)
    intro x hx y hy hedge
    rcases List.mem_append.1 hx with hx | hx
    · rcases List.mem_append.1 hy with hy | hy
      · exact (ihTodo x hx y hy hedge).imp_left sublist_of_found
      · exact .inl ((List.singleton_sublist.2 hx).append (List.singleton_sublist.2 hy))
    · rcases List.mem_append.1 hy with hy | hy
      · exact absurd hedge (hlater x hx y hy)
      · rcases List.mem_cons.1 hy with rfl | hy'
        · -- `x` was found below `y`, or is `y`
          rcases List.mem_cons.1 hx with rfl | hx'
          · exact .inr (.refl x)
          · obtain ⟨t, ht, p, hp, -⟩ := hinner.exists_path x hx'
            exact .inr (.head (edge_iff.2 ⟨b, hb, List.mem_reverse.1 ht⟩) ⟨p, hp⟩)
        · rcases List.mem_cons.1 hx with rfl | hx'
          · exact .inl (sublist_of_mem_inner hy')
          · exact (ihInner x hx' y hy' hedge).imp_left sublist_of_inner

end Search

end ContractIR.Func
