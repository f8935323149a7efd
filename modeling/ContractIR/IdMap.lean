/-!
# ContractIR.IdMap — values by number, in order of insertion

An `IdMap` maps integers to values and remembers the order in which the keys came.  Writing to a
present key moves nothing; a new key goes to the end.  That no key occurs twice is part of the type.
-/

namespace ContractIR

/-- A map from integers to values that keeps its entries in order of insertion. -/
structure IdMap (α : Type) where
  entries : List (Int × α)
  nodup : (entries.map Prod.fst).Nodup

namespace IdMap

variable {α β σ ε : Type}

theorem ext_entries {m n : IdMap α} (h : m.entries = n.entries) : m = n := by
  cases m; cases n; congr

instance [DecidableEq α] : DecidableEq (IdMap α) := fun m n =>
  if h : m.entries = n.entries then isTrue (ext_entries h)
  else isFalse fun e => h (e ▸ rfl)

/-- The map without entries. -/
def empty : IdMap α := ⟨[], List.Pairwise.nil⟩

instance : Inhabited (IdMap α) := ⟨empty⟩

/-- The keys, in order of insertion. -/
def keys (m : IdMap α) : List Int := m.entries.map Prod.fst

/-- The values, in order of insertion of their keys. -/
def values (m : IdMap α) : List α := m.entries.map Prod.snd

/-- The number of entries. -/
def size (m : IdMap α) : Nat := m.entries.length

/-- The value under a key. -/
def get? (m : IdMap α) (k : Int) : Option α := m.entries.lookup k

/-- Whether there is a value under a key. -/
def contains (m : IdMap α) (k : Int) : Bool := (m.get? k).isSome

/-! ### Membership -/

theorem lookup_eq_none_iff {k : Int} :
    ∀ {l : List (Int × α)}, l.lookup k = none ↔ k ∉ l.map Prod.fst
  | [] => by simp
  | (k', v) :: l => by
    by_cases h : k = k'
    · subst h; simp
    · have hb : (k == k') = false := by simpa using h
      rw [List.lookup_cons, hb, List.map_cons, List.mem_cons, lookup_eq_none_iff (l := l)]
      simp [h]

theorem get?_eq_none_iff {m : IdMap α} {k : Int} : m.get? k = none ↔ k ∉ m.keys :=
  lookup_eq_none_iff

theorem mem_keys_of_get? {m : IdMap α} {k : Int} {v : α} (h : m.get? k = some v) : k ∈ m.keys := by
  by_cases hk : k ∈ m.keys
  · exact hk
  · rw [get?_eq_none_iff.2 hk] at h; cases h

theorem lookup_eq_some_iff {k : Int} {v : α} :
    ∀ {l : List (Int × α)}, (l.map Prod.fst).Nodup → (l.lookup k = some v ↔ (k, v) ∈ l)
  | [], _ => by simp
  | (k', v') :: l, h => by
    rw [List.map_cons, List.nodup_cons] at h
    by_cases hk : k = k'
    · subst hk
      have hm : (k, v) ∉ l := fun hm => h.1 (List.mem_map.2 ⟨_, hm, rfl⟩)
      simp only [List.lookup_cons, beq_self_eq_true, Option.some.injEq, List.mem_cons,
        Prod.mk.injEq, true_and, hm, or_false]
      exact eq_comm
    · have hb : (k == k') = false := by simpa using hk
      rw [List.lookup_cons, hb, List.mem_cons, lookup_eq_some_iff h.2]
      simp [hk]

theorem get?_eq_some_iff {m : IdMap α} {k : Int} {v : α} :
    m.get? k = some v ↔ (k, v) ∈ m.entries :=
  lookup_eq_some_iff m.nodup

theorem contains_iff {m : IdMap α} {k : Int} : m.contains k = true ↔ k ∈ m.keys := by
  unfold contains
  cases h : m.get? k with
  | none => simpa using get?_eq_none_iff.1 h
  | some v => simpa using mem_keys_of_get? h

/-! ### Insertion -/

/-- Writes a value to a list of entries: in place if the key is present, else at the end. -/
def insertEntry (k : Int) (v : α) : List (Int × α) → List (Int × α)
  | [] => [(k, v)]
  | (k', v') :: rest => if k' = k then (k, v) :: rest else (k', v') :: insertEntry k v rest

theorem mem_keys_insertEntry {k x : Int} {v : α} :
    ∀ {l : List (Int × α)}, x ∈ (insertEntry k v l).map Prod.fst ↔ x = k ∨ x ∈ l.map Prod.fst
  | [] => by simp [insertEntry]
  | (k', v') :: l => by
    by_cases h : k' = k
    · subst h; simp [insertEntry]
    · simp only [insertEntry, if_neg h, List.map_cons, List.mem_cons,
        mem_keys_insertEntry (l := l)]
      grind

theorem nodup_insertEntry {k : Int} {v : α} :
    ∀ {l : List (Int × α)}, (l.map Prod.fst).Nodup → ((insertEntry k v l).map Prod.fst).Nodup
  | [], _ => by simp [insertEntry]
  | (k', v') :: l, h => by
    rw [List.map_cons, List.nodup_cons] at h
    by_cases hk : k' = k
    · subst hk
      simp only [insertEntry, if_true, List.map_cons, List.nodup_cons]
      exact h
    · simp only [insertEntry, if_neg hk, List.map_cons, List.nodup_cons]
      refine ⟨fun hm => ?_, nodup_insertEntry h.2⟩
      rcases mem_keys_insertEntry.1 hm with he | hm
      · exact hk he
      · exact h.1 hm

/-- Writes a value under a key. -/
def insert (m : IdMap α) (k : Int) (v : α) : IdMap α :=
  ⟨insertEntry k v m.entries, nodup_insertEntry m.nodup⟩

theorem lookup_insertEntry {k x : Int} {v : α} :
    ∀ {l : List (Int × α)},
      (insertEntry k v l).lookup x = if x = k then some v else l.lookup x
  | [] => by
    by_cases h : x = k
    · subst h; simp [insertEntry]
    · have hb : (x == k) = false := by simpa using h
      simp [insertEntry, List.lookup_cons, hb, h]
  | (k', v') :: l => by
    by_cases hk : k' = k
    · subst hk
      by_cases h : x = k'
      · subst h; simp [insertEntry]
      · have hb : (x == k') = false := by simpa using h
        simp [insertEntry, List.lookup_cons, hb, h]
    · by_cases h : x = k'
      · subst h
        simp [insertEntry, hk]
      · have hb : (x == k') = false := by simpa using h
        simp only [insertEntry, if_neg hk, List.lookup_cons, hb]
        exact lookup_insertEntry

/-- Writing under a key changes what is there and nothing else. -/
theorem get?_insert (m : IdMap α) (k : Int) (v : α) (x : Int) :
    (m.insert k v).get? x = if x = k then some v else m.get? x :=
  lookup_insertEntry

theorem insertEntry_of_not_mem {k : Int} {v : α} :
    ∀ {l : List (Int × α)}, k ∉ l.map Prod.fst → insertEntry k v l = l ++ [(k, v)]
  | [], _ => rfl
  | (k', v') :: l, h => by
    rw [List.map_cons, List.mem_cons, not_or] at h
    simp only [insertEntry, if_neg (Ne.symm h.1), List.cons_append]
    rw [insertEntry_of_not_mem h.2]

theorem keys_insertEntry_of_mem {k : Int} {v : α} :
    ∀ {l : List (Int × α)}, k ∈ l.map Prod.fst →
      (insertEntry k v l).map Prod.fst = l.map Prod.fst
  | (k', v') :: l, h => by
    by_cases hk : k' = k
    · subst hk; simp [insertEntry]
    · rw [List.map_cons, List.mem_cons] at h
      simp only [insertEntry, if_neg hk, List.map_cons]
      rw [keys_insertEntry_of_mem (h.resolve_left (Ne.symm hk))]

/-- A new key goes to the end. -/
theorem entries_insert_of_not_mem {m : IdMap α} {k : Int} {v : α} (h : k ∉ m.keys) :
    (m.insert k v).entries = m.entries ++ [(k, v)] :=
  insertEntry_of_not_mem h

/-- Writing under a present key moves nothing. -/
theorem keys_insert_of_mem {m : IdMap α} {k : Int} {v : α} (h : k ∈ m.keys) :
    (m.insert k v).keys = m.keys :=
  keys_insertEntry_of_mem h

/-- The map that holds the given entries, written one after the other. -/
def ofList (l : List (Int × α)) : IdMap α := l.foldl (fun m e => m.insert e.1 e.2) empty

/-! ### Passes over all values -/

/-- Replaces the values one after the other, handing a state from each to the next. -/
def mapEntries (f : σ → α → Except ε (β × σ)) :
    σ → List (Int × α) → Except ε (List (Int × β) × σ)
  | s, [] => .ok ([], s)
  | s, (k, a) :: rest => do
    let (b, s) ← f s a
    let (bs, s) ← mapEntries f s rest
    return ((k, b) :: bs, s)

theorem keys_mapEntries {f : σ → α → Except ε (β × σ)} :
    ∀ {l : List (Int × α)} {s s' : σ} {bs : List (Int × β)},
      mapEntries f s l = .ok (bs, s') → bs.map Prod.fst = l.map Prod.fst
  | [], s, s', bs, h => by
    simp only [mapEntries, Except.ok.injEq, Prod.mk.injEq] at h
    simp [← h.1]
  | (k, a) :: l, s, s', bs, h => by
    simp only [mapEntries] at h
    cases hf : f s a with
    | error e => simp [hf, bind, Except.bind] at h
    | ok p =>
      cases hr : mapEntries f p.2 l with
      | error e => simp [hf, hr, bind, Except.bind] at h
      | ok q =>
        simp only [hf, hr, bind, Except.bind, pure, Except.pure, Except.ok.injEq,
          Prod.mk.injEq] at h
        have ih := keys_mapEntries hr
        simp [← h.1, ih]

/-- Replaces every value in order of insertion, handing a state from each to the next; the keys
stay as they are. -/
def mapState (f : σ → α → Except ε (β × σ)) (s : σ) (m : IdMap α) : Except ε (IdMap β × σ) :=
  match h : mapEntries f s m.entries with
  | .error e => .error e
  | .ok (bs, s') => .ok (⟨bs, keys_mapEntries h ▸ m.nodup⟩, s')

theorem mapEntries_mono {f g : σ → α → Except ε (β × σ)}
    (hfg : ∀ s a r, f s a = .ok r → g s a = .ok r) :
    ∀ {l : List (Int × α)} {s : σ} {r : List (Int × β) × σ},
      mapEntries f s l = .ok r → mapEntries g s l = .ok r
  | [], _, _, h => h
  | (k, a) :: l, s, r, h => by
    simp only [mapEntries] at h ⊢
    cases hf : f s a with
    | error e => simp [hf, bind, Except.bind] at h
    | ok p =>
      cases hr : mapEntries f p.2 l with
      | error e => simp [hf, hr, bind, Except.bind] at h
      | ok q =>
        simp only [hf, hr, bind, Except.bind] at h
        simp only [hfg _ _ _ hf, mapEntries_mono hfg hr, bind, Except.bind]
        exact h

theorem mapState_eq_ok_iff {f : σ → α → Except ε (β × σ)} {s : σ} {m : IdMap α}
    {r : IdMap β × σ} :
    mapState f s m = .ok r ↔ mapEntries f s m.entries = .ok (r.1.entries, r.2) := by
  unfold mapState
  split
  · rename_i e h
    simp [h]
  · rename_i bs s' h
    constructor
    · intro hr
      cases hr
      exact h
    · intro hr
      obtain ⟨⟨es, hes⟩, t⟩ := r
      cases h.symm.trans hr
      rfl

/-- A pass that fails less often agrees where the other one succeeds. -/
theorem mapState_mono {f g : σ → α → Except ε (β × σ)}
    (hfg : ∀ s a r, f s a = .ok r → g s a = .ok r) {s : σ} {m : IdMap α} {r : IdMap β × σ}
    (h : mapState f s m = .ok r) : mapState g s m = .ok r :=
  mapState_eq_ok_iff.2 (mapEntries_mono hfg (mapState_eq_ok_iff.1 h))

end IdMap

end ContractIR
