import Mathlib.Data.List.Forall2

/-!
# ContractIR.Proofs.Except — computations that succeed or fail

When a sequence of computations succeeds, each of them does; what they return can then be named.
When it fails, it fails as the first of them that does.  `Gives K P x` says of a computation that it
succeeds under the condition `K` and that what it returns satisfies `P`; there is one rule for each
way of putting computations together.
-/

namespace ContractIR

variable {ε α β : Type}

theorem bind_eq_ok_iff {x : Except ε α} {f : α → Except ε β} {b : β} :
    x >>= f = .ok b ↔ ∃ a, x = .ok a ∧ f a = .ok b := by
  cases x with
  | error e => simp [bind, Except.bind]
  | ok a => simp [bind, Except.bind]

theorem pure_eq_ok_iff {a b : α} : (pure a : Except ε α) = .ok b ↔ a = b := by
  simp [pure, Except.pure]

theorem mapM_eq_ok_iff {f : α → Except ε β} {l : List α} {l' : List β} :
    l.mapM f = .ok l' ↔ List.Forall₂ (fun a b => f a = .ok b) l l' := by
  induction l generalizing l' with
  | nil => rw [List.mapM_nil, pure_eq_ok_iff, List.forall₂_nil_left_iff, eq_comm]
  | cons a l ih =>
    simp only [List.mapM_cons, bind_eq_ok_iff, pure_eq_ok_iff, List.forall₂_cons_left_iff, ih]
    constructor
    · rintro ⟨b, hb, bs, hbs, rfl⟩
      exact ⟨b, bs, hb, hbs, rfl⟩
    · rintro ⟨b, bs, hb, hbs, rfl⟩
      exact ⟨b, hb, bs, hbs, rfl⟩

/-- A sequence of computations succeeds if each of them does. -/
theorem exists_mapM_eq_ok {f : α → Except ε β} {l : List α} (h : ∀ a ∈ l, ∃ b, f a = .ok b) :
    ∃ l', l.mapM f = .ok l' := by
  induction l with
  | nil => exact ⟨[], rfl⟩
  | cons a l ih =>
    obtain ⟨b, hb⟩ := h a List.mem_cons_self
    obtain ⟨l', hl'⟩ := ih fun c hc => h c (List.mem_cons_of_mem a hc)
    exact ⟨b :: l', by rw [List.mapM_cons, hb, hl']; rfl⟩

theorem forall_mem_of_mapM_eq_ok {f : α → Except ε β} {l : List α} {bs : List β} {P : β → Prop}
    (h : ∀ a ∈ l, ∀ b, f a = .ok b → P b) (hbs : l.mapM f = .ok bs) : ∀ b ∈ bs, P b := by
  rw [mapM_eq_ok_iff] at hbs
  induction hbs with
  | nil => simp
  | cons hab _ ih =>
    obtain ⟨ha, hl⟩ := List.forall_mem_cons.1 h
    exact List.forall_mem_cons.2 ⟨ha _ hab, ih hl⟩

/-- What one sequence of computations returns can be read off what another one returns, if that is
so for each of them. -/
theorem exists_mapM_of_mapM {γ : Type} {f : α → Except ε β} {g : α → Except ε γ} (read : γ → β)
    {l : List α} {bs : List β} (h : ∀ a ∈ l, ∀ b, f a = .ok b → ∃ c, g a = .ok c ∧ read c = b)
    (hbs : l.mapM f = .ok bs) : ∃ cs, l.mapM g = .ok cs ∧ cs.map read = bs := by
  simp only [mapM_eq_ok_iff] at hbs ⊢
  induction hbs with
  | nil => exact ⟨[], .nil, rfl⟩
  | cons hab _ ih =>
    obtain ⟨ha, hl⟩ := List.forall_mem_cons.1 h
    obtain ⟨c, hc, rfl⟩ := ha _ hab
    obtain ⟨cs, hcs, rfl⟩ := ih hl
    exact ⟨c :: cs, .cons hc hcs, rfl⟩

theorem bind_eq_error_iff {x : Except ε α} {f : α → Except ε β} {e : ε} :
    x >>= f = .error e ↔ x = .error e ∨ ∃ a, x = .ok a ∧ f a = .error e := by
  cases x with
  | error d => simp [bind, Except.bind]
  | ok a => simp [bind, Except.bind]

@[simp] theorem map_eq_error_iff {x : Except ε α} {g : α → β} {e : ε} :
    x.map g = .error e ↔ x = .error e := by
  cases x <;> simp [Except.map]

@[simp] theorem map_eq_ok_iff {x : Except ε α} {g : α → β} {b : β} :
    x.map g = .ok b ↔ ∃ a, x = .ok a ∧ g a = b := by
  cases x <;> simp [Except.map]

/-- A sequence of computations fails as the first of them that does. -/
theorem mapM_eq_error_iff {f : α → Except ε β} {l : List α} {e : ε} :
    l.mapM f = .error e ↔
      ∃ before a after, l = before ++ a :: after ∧ (∀ c ∈ before, ∃ b, f c = .ok b) ∧
        f a = .error e := by
  induction l with
  | nil =>
    rw [List.mapM_nil]
    constructor
    · intro h
      cases h
    · rintro ⟨before, a, after, h, -⟩
      cases before <;> cases h
  | cons a l ih =>
    rw [List.mapM_cons, bind_eq_error_iff]
    constructor
    · rintro (ha | ⟨b, hb, h⟩)
      · exact ⟨[], a, l, rfl, by simp, ha⟩
      · rcases bind_eq_error_iff.1 h with hl | ⟨bs, -, h⟩
        · obtain ⟨before, c, after, rfl, hbefore, hc⟩ := ih.1 hl
          exact ⟨a :: before, c, after, rfl, List.forall_mem_cons.2 ⟨⟨b, hb⟩, hbefore⟩, hc⟩
        · cases h
    · rintro ⟨before, c, after, h, hbefore, hc⟩
      cases before with
      | nil =>
        obtain ⟨rfl, rfl⟩ := List.cons.inj h
        exact .inl hc
      | cons d before =>
        obtain ⟨rfl, rfl⟩ := List.cons.inj h
        obtain ⟨⟨b, hb⟩, hbefore⟩ := List.forall_mem_cons.1 hbefore
        exact .inr ⟨b, hb, bind_eq_error_iff.2 (.inl (ih.2 ⟨before, c, after, rfl, hbefore, hc⟩))⟩

/-- A sequence of computations fails exactly if one of them does. -/
theorem exists_mapM_eq_error_iff {f : α → Except ε β} {l : List α} :
    (∃ e, l.mapM f = .error e) ↔ ∃ a ∈ l, ∃ e, f a = .error e := by
  constructor
  · rintro ⟨e, h⟩
    obtain ⟨before, a, after, rfl, -, ha⟩ := mapM_eq_error_iff.1 h
    exact ⟨a, by simp, e, ha⟩
  · rintro ⟨a, ha, e, he⟩
    induction l with
    | nil => cases ha
    | cons c l ih =>
      rw [List.mapM_cons]
      simp only [bind_eq_error_iff]
      rcases hc : f c with d | b
      · exact ⟨d, .inl rfl⟩
      · rcases List.mem_cons.1 ha with rfl | ha
        · cases he.symm.trans hc
        · obtain ⟨d, hd⟩ := ih ha
          exact ⟨d, .inr ⟨b, rfl, .inl hd⟩⟩

/-! ### Conditions for success, and what is returned -/

/-- The computation succeeds if `K` holds, and whatever it returns satisfies `P`. -/
structure Gives (K : Prop) (P : α → Prop) (x : Except ε α) : Prop where
  succeeds : K → ∃ a, x = .ok a
  holds : ∀ a, x = .ok a → P a

namespace Gives

variable {K K' : Prop} {P P' : α → Prop} {Q : β → Prop} {x : Except ε α} {f : α → Except ε β}

theorem mono (h : Gives K P x) (hK : K' → K) : Gives K' P x :=
  ⟨fun hk => h.succeeds (hK hk), h.holds⟩

theorem imp (h : Gives K P x) (hP : ∀ a, P a → P' a) : Gives K P' x :=
  ⟨h.succeeds, fun a ha => hP a (h.holds a ha)⟩

theorem ok {a : α} (h : P a) : Gives K P (.ok a : Except ε α) :=
  ⟨fun _ => ⟨a, rfl⟩, fun _ hb => Except.ok.inj hb ▸ h⟩

theorem error {e : ε} (h : ¬ K) : Gives K P (.error e) :=
  ⟨fun hk => absurd hk h, fun _ ha => by cases ha⟩

theorem bind (hx : Gives K P x) (hf : ∀ a, P a → Gives K Q (f a)) : Gives K Q (x >>= f) := by
  constructor
  · intro hk
    obtain ⟨a, ha⟩ := hx.succeeds hk
    obtain ⟨b, hb⟩ := (hf a (hx.holds a ha)).succeeds hk
    exact ⟨b, bind_eq_ok_iff.2 ⟨a, ha, hb⟩⟩
  · intro b hb
    obtain ⟨a, ha, hb⟩ := bind_eq_ok_iff.1 hb
    exact (hf a (hx.holds a ha)).holds b hb

theorem mapM {l : List α} (h : ∀ a ∈ l, Gives K Q (f a)) :
    Gives K (fun bs => ∀ b ∈ bs, Q b) (l.mapM f) :=
  ⟨fun hk => exists_mapM_eq_ok fun a ha => (h a ha).succeeds hk,
    fun _ hbs => forall_mem_of_mapM_eq_ok (fun a ha => (h a ha).holds) hbs⟩

end Gives

end ContractIR
