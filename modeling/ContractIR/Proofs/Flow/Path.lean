import ContractIR.Proofs.WellFormed

/-!
# ContractIR.Proofs.Flow.Path — paths through the blocks of a function

A path follows successors from block to block.  Only its last block can be one that the function
does not have, because a missing block has no successors.

* `Func.mem_of_closed`: a set of blocks that no edge leaves holds all that is reached from it.
* `Func.mem_reachable_iff`: `Func.reachable` lists the blocks with a path from the entry.
-/

namespace ContractIR.Func

/-! ### Paths -/

/-- Control may go through the given blocks one after the other; the first and the last of them are
named as well. -/
inductive Path (f : Func) : BlockId → BlockId → List BlockId → Prop
  | single (a : BlockId) : Path f a a [a]
  | cons {a b c : BlockId} {p : List BlockId} :
      f.Edge a b → Path f b c p → Path f a c (a :: p)

/-- There is a path from the one block to the other; every block reaches itself. -/
def Reaches (f : Func) (a b : BlockId) : Prop := ∃ p, f.Path a b p

/-- A block of the function to which there is a path from the entry. -/
def Reached (f : Func) (id : BlockId) : Prop := id ∈ f.blocks.keys ∧ f.Reaches f.entry id

/-- Every path from the entry to the block `b` goes through `d`. -/
def Dominates (f : Func) (d b : BlockId) : Prop := ∀ p, f.Path f.entry b p → d ∈ p

variable {f : Func} {a b c : BlockId}

theorem edge_iff : f.Edge a b ↔ ∃ block, f.blocks.get? a = some block ∧ b ∈ block.successors := by
  constructor
  · rintro ⟨block, t, hblock, ht, hb⟩
    exact ⟨block, hblock, by simpa [Block.successors, ht] using hb⟩
  · rintro ⟨block, hblock, hb⟩
    cases ht : block.terminator? with
    | none => simp [Block.successors, ht] at hb
    | some t => exact ⟨block, t, hblock, ht, by simpa [Block.successors, ht] using hb⟩

theorem successors_eq_of_get? {block : Block} (hblock : f.blocks.get? a = some block) :
    f.successors a = block.successors := by
  simp [successors, hblock]

theorem mem_successors_iff : b ∈ f.successors a ↔ f.Edge a b := by
  rw [edge_iff]
  cases hblock : f.blocks.get? a with
  | none => simp [successors, hblock]
  | some block => simp [successors, hblock]

theorem Edge.source_mem (h : f.Edge a b) : a ∈ f.blocks.keys := by
  obtain ⟨block, hblock, -⟩ := edge_iff.1 h
  exact IdMap.mem_keys_of_get? hblock

theorem Reaches.refl (a : BlockId) : f.Reaches a a := ⟨[a], .single a⟩

theorem Reaches.head (h : f.Edge a b) (hbc : f.Reaches b c) : f.Reaches a c := by
  obtain ⟨p, hp⟩ := hbc
  exact ⟨a :: p, .cons h hp⟩

theorem Path.append {d : BlockId} {p q : List BlockId} (hp : f.Path a b p) (hedge : f.Edge b c)
    (hq : f.Path c d q) : f.Path a d (p ++ q) := by
  induction hp with
  | single => exact .cons hedge hq
  | cons hfirst _ ih => exact .cons hfirst (ih hedge)

theorem Path.head?_eq {p : List BlockId} (h : f.Path a b p) : p.head? = some a := by
  cases h <;> rfl

theorem Path.first_mem {p : List BlockId} (h : f.Path a b p) (hb : b ∈ f.blocks.keys) :
    a ∈ f.blocks.keys := by
  cases h with
  | single => exact hb
  | cons hedge _ => exact hedge.source_mem

theorem Reached.entry_mem (h : f.Reached a) : f.entry ∈ f.blocks.keys := by
  obtain ⟨hkey, p, hp⟩ := h
  exact hp.first_mem hkey

theorem Reached.step (ha : f.Reached a) (hedge : f.Edge a b) (hb : b ∈ f.blocks.keys) :
    f.Reached b := by
  obtain ⟨-, p, hp⟩ := ha
  exact ⟨hb, p ++ [b], hp.append hedge (.single b)⟩

/-- A set of blocks that no edge leaves holds all that is reached from it. -/
theorem mem_of_closed {s : List BlockId}
    (hclosed : ∀ x ∈ s, ∀ y ∈ f.blocks.keys, f.Edge x y → y ∈ s) (ha : a ∈ s)
    (hb : b ∈ f.blocks.keys) (h : f.Reaches a b) : b ∈ s := by
  obtain ⟨p, hp⟩ := h
  induction hp with
  | single => exact ha
  | cons hedge hp ih => exact ih (hclosed _ ha _ (hp.first_mem hb) hedge) hb

/-! ### The search for reachable blocks -/

/-- The reachable blocks depend only on the successors of each block. -/
theorem reach_congr {f g : Func}
    (h : ∀ id, (g.blocks.get? id).map Block.successors = (f.blocks.get? id).map Block.successors)
    (seen work : List BlockId) : g.reach seen work = f.reach seen work := by
  fun_induction f.reach seen work with
  | case1 seen => rw [reach]
  | case2 seen next rest hseen ih => rw [reach, if_pos hseen, ih]
  | case3 seen next rest hseen hnone ih =>
    have hg : g.blocks.get? next = none := by simpa [hnone] using h next
    rw [reach, if_neg hseen]
    split
    · exact ih
    · rename_i b hb
      rw [hg] at hb
      cases hb
  | case4 seen next rest hseen b hb ih =>
    obtain ⟨b', hb', hs⟩ := Option.map_eq_some_iff.1 ((h next).trans (by rw [hb]; rfl))
    rw [reach, if_neg hseen]
    split
    · rename_i hnone
      rw [hb'] at hnone
      cases hnone
    · rename_i b₁ hb₁
      obtain rfl : b' = b₁ := Option.some.inj (hb'.symm.trans hb₁)
      rw [hs]
      exact ih

theorem mem_reach_of_mem_seen {seen work : List BlockId} {x : BlockId} (hx : x ∈ seen) :
    x ∈ f.reach seen work := by
  fun_induction f.reach seen work with
  | case1 seen => exact hx
  | case2 seen next rest hnext ih => exact ih hx
  | case3 seen next rest hnext hnone ih => exact ih hx
  | case4 seen next rest hnext block hblock ih => exact ih (List.mem_cons_of_mem next hx)

theorem mem_reach_of_mem_work {seen work : List BlockId} {x : BlockId} (hx : x ∈ work)
    (hkey : x ∈ f.blocks.keys) : x ∈ f.reach seen work := by
  fun_induction f.reach seen work with
  | case1 seen => cases hx
  | case2 seen next rest hnext ih =>
    rcases List.mem_cons.1 hx with rfl | hx
    · exact mem_reach_of_mem_seen hnext
    · exact ih hx
  | case3 seen next rest hnext hnone ih =>
    rcases List.mem_cons.1 hx with rfl | hx
    · exact absurd hkey (IdMap.get?_eq_none_iff.1 hnone)
    · exact ih hx
  | case4 seen next rest hnext block hblock ih =>
    rcases List.mem_cons.1 hx with rfl | hx
    · exact mem_reach_of_mem_seen List.mem_cons_self
    · exact ih (List.mem_append_right _ hx)

theorem reaches_of_mem_reach {seen work : List BlockId} {x : BlockId}
    (hx : x ∈ f.reach seen work) :
    x ∈ seen ∨ x ∈ f.blocks.keys ∧ ∃ w ∈ work, f.Reaches w x := by
  fun_induction f.reach seen work with
  | case1 seen => exact .inl hx
  | case2 seen next rest hnext ih =>
    refine (ih hx).imp_right fun ⟨hkey, w, hw, hr⟩ => ⟨hkey, w, List.mem_cons_of_mem _ hw, hr⟩
  | case3 seen next rest hnext hnone ih =>
    refine (ih hx).imp_right fun ⟨hkey, w, hw, hr⟩ => ⟨hkey, w, List.mem_cons_of_mem _ hw, hr⟩
  | case4 seen next rest hnext block hblock ih =>
    rcases ih hx with hx | ⟨hkey, w, hw, hr⟩
    · rcases List.mem_cons.1 hx with rfl | hx
      · exact .inr ⟨IdMap.mem_keys_of_get? hblock, x, List.mem_cons_self, .refl x⟩
      · exact .inl hx
    · rcases List.mem_append.1 hw with hw | hw
      · exact .inr ⟨hkey, next, List.mem_cons_self, hr.head (edge_iff.2 ⟨block, hblock, hw⟩)⟩
      · exact .inr ⟨hkey, w, List.mem_cons_of_mem _ hw, hr⟩

/-- No edge leaves the result, if those that leave `seen` lead to what is still to be looked at. -/
theorem reach_closed {seen work : List BlockId}
    (h : ∀ x ∈ seen, ∀ y ∈ f.blocks.keys, f.Edge x y → y ∈ seen ∨ y ∈ work) :
    ∀ x ∈ f.reach seen work, ∀ y ∈ f.blocks.keys, f.Edge x y → y ∈ f.reach seen work := by
  fun_induction f.reach seen work with
  | case1 seen =>
    intro x hx y hy hedge
    exact (h x hx y hy hedge).resolve_right List.not_mem_nil
  | case2 seen next rest hnext ih =>
    refine ih fun x hx y hy hedge => ?_
    rcases h x hx y hy hedge with hy | hy
    · exact .inl hy
    · rcases List.mem_cons.1 hy with rfl | hy
      · exact .inl hnext
      · exact .inr hy
  | case3 seen next rest hnext hnone ih =>
    refine ih fun x hx y hy hedge => ?_
    refine (h x hx y hy hedge).imp_right fun hy' => ?_
    rcases List.mem_cons.1 hy' with rfl | hy'
    · exact absurd hy (IdMap.get?_eq_none_iff.1 hnone)
    · exact hy'
  | case4 seen next rest hnext block hblock ih =>
    refine ih fun x hx y hy hedge => ?_
    rcases List.mem_cons.1 hx with rfl | hx
    · obtain ⟨block', hblock', hsucc⟩ := edge_iff.1 hedge
      obtain rfl : block = block' := Option.some.inj (hblock.symm.trans hblock')
      exact .inr (List.mem_append_left _ hsucc)
    · rcases h x hx y hy hedge with hy | hy
      · exact .inl (List.mem_cons_of_mem _ hy)
      · rcases List.mem_cons.1 hy with rfl | hy
        · exact .inl List.mem_cons_self
        · exact .inr (List.mem_append_right _ hy)

/-- The list of reachable blocks holds the blocks with a path from the entry. -/
theorem mem_reachable_iff {x : BlockId} : x ∈ f.reachable ↔ f.Reached x := by
  constructor
  · intro hx
    rcases reaches_of_mem_reach hx with hx | ⟨hkey, w, hw, hr⟩
    · cases hx
    · rw [List.mem_singleton.1 hw] at hr
      exact ⟨hkey, hr⟩
  · intro h
    have hentry : f.entry ∈ f.reachable := mem_reach_of_mem_work List.mem_cons_self h.entry_mem
    exact mem_of_closed (reach_closed (by simp)) hentry h.1 h.2

end ContractIR.Func
