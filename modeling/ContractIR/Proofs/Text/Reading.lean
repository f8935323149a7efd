import Mathlib.Data.List.Forall2

/-!
# ContractIR.Proofs.Text.Reading — telling what was written

A way of writing values is given as a relation `P a s` between values and texts.  It can be read if
two texts that begin the same line are the texts of the same value, provided that what follows them
does not go on like a text of its own (`Reads`).  Lists with separators can be read if their members
can.
-/

namespace ContractIR.Text

/-! ### Runs of characters -/

/-- The text does not go on with a character that satisfies `p`. -/
def Stops (p : Char → Bool) (u : List Char) : Prop := ∀ c ∈ u.head?, p c = false

@[simp] theorem stops_cons {p : Char → Bool} {c : Char} {u : List Char} :
    Stops p (c :: u) ↔ p c = false := by simp [Stops]

theorem Stops.mono {p q : Char → Bool} {u : List Char} (h : Stops q u)
    (hpq : ∀ c, p c = true → q c = true) : Stops p u := fun c hc =>
  Bool.eq_false_iff.2 fun hp => Bool.eq_false_iff.1 (h c hc) (hpq c hp)

/-- A run of characters that satisfy `p` ends where `p` does. -/
theorem run_inj {p : Char → Bool} {s t u v : List Char} (hs : ∀ c ∈ s, p c = true)
    (ht : ∀ c ∈ t, p c = true) (hu : Stops p u) (hv : Stops p v) (h : s ++ u = t ++ v) :
    s = t ∧ u = v := by
  induction s generalizing t with
  | nil =>
    cases t with
    | nil => exact ⟨rfl, h⟩
    | cons d t =>
      rw [List.nil_append, List.cons_append] at h
      rw [h, stops_cons, ht d (by simp)] at hu
      cases hu
  | cons c s ih =>
    cases t with
    | nil =>
      rw [List.nil_append, List.cons_append] at h
      rw [← h, stops_cons, hs c (by simp)] at hv
      cases hv
    | cons d t =>
      obtain ⟨rfl, hrest⟩ := List.cons.inj h
      obtain ⟨rfl, rfl⟩ := ih (fun c hc => hs c (List.mem_cons_of_mem _ hc))
        (fun c hc => ht c (List.mem_cons_of_mem _ hc)) hrest
      exact ⟨rfl, rfl⟩

/-- A text ends where a character that it does not hold stands first. -/
theorem append_cons_inj {c : Char} {s t u v : List Char} (hs : c ∉ s) (ht : c ∉ t)
    (h : s ++ c :: u = t ++ c :: v) : s = t ∧ u = v := by
  have hne : ∀ {l : List Char}, c ∉ l → ∀ d ∈ l, (d != c) = true := by
    intro l hl d hd
    have hdc : d ≠ c := fun hdc => hl (hdc ▸ hd)
    simpa using hdc
  obtain ⟨rfl, hrest⟩ := run_inj (p := (· != c)) (hne hs) (hne ht) (by simp) (by simp) h
  exact ⟨rfl, (List.cons.inj hrest).2⟩

/-! ### Readable texts -/

section Reads

variable {α : Type} {P : α → List Char → Prop} {F G : List Char → Prop}

/-- The value `a` can be told from its text, if what follows satisfies `F`. -/
def ReadsAt (P : α → List Char → Prop) (F : List Char → Prop) (a : α) : Prop :=
  ∀ {b : α} {s t u v : List Char}, P a s → P b t → F u → F v → s ++ u = t ++ v → a = b ∧ u = v

/-- Every value can be told from its text, if what follows satisfies `F`. -/
def Reads (P : α → List Char → Prop) (F : List Char → Prop) : Prop := ∀ a, ReadsAt P F a

theorem Reads.mono (h : Reads P F) (hGF : ∀ {u}, G u → F u) : Reads P G :=
  fun a _ _ _ _ _ hs ht hu hv => h a hs ht (hGF hu) (hGF hv)

/-- The text of a list: the texts of its members, with a separator between them. -/
def Joined (sep : List Char) (P : α → List Char → Prop) (as : List α) (s : List Char) : Prop :=
  ∃ ss, List.Forall₂ P as ss ∧ s = sep.intercalate ss

variable {sep : List Char}

theorem joined_nil {s : List Char} : Joined sep P [] s ↔ s = [] := by
  simp [Joined, List.intercalate]

theorem joined_cons {a : α} {as : List α} {s : List Char} :
    Joined sep P (a :: as) s ↔ ∃ r t, P a r ∧ Joined sep P as t ∧
      s = if as = [] then r else r ++ sep ++ t := by
  constructor
  · rintro ⟨ss, hss, rfl⟩
    obtain ⟨r, rs, hr, hrs, rfl⟩ := List.forall₂_cons_left_iff.1 hss
    refine ⟨r, _, hr, ⟨rs, hrs, rfl⟩, ?_⟩
    cases hrs with
    | nil => simp
    | cons _ _ => simp [List.intercalate_cons_cons]
  · rintro ⟨r, t, hr, ⟨rs, hrs, rfl⟩, rfl⟩
    refine ⟨r :: rs, .cons hr hrs, ?_⟩
    cases hrs with
    | nil => simp
    | cons _ _ => simp [List.intercalate_cons_cons]

/-- What follows the first member of a list. -/
theorem joined_cons_append {a : α} {as : List α} {s u : List Char} (h : Joined sep P (a :: as) s) :
    ∃ r w, P a r ∧ s ++ u = r ++ w ∧
      ((as = [] ∧ w = u) ∨ (as ≠ [] ∧ ∃ t, Joined sep P as t ∧ w = sep ++ (t ++ u))) := by
  obtain ⟨r, t, hr, ht, rfl⟩ := joined_cons.1 h
  by_cases has : as = []
  · exact ⟨r, u, hr, by rw [if_pos has], .inl ⟨has, rfl⟩⟩
  · exact ⟨r, _, hr, by rw [if_neg has]; simp, .inr ⟨has, t, ht, rfl⟩⟩

/-- A list can be told from its text, if its members can and what follows (`G`) is neither a
separator nor the start of a member. -/
theorem readsAt_joined {as : List α} (has : ∀ a ∈ as, ReadsAt P F a) (hsep : ∀ u, F (sep ++ u))
    (hG : ∀ u, G u → F u ∧ ∀ w, u ≠ sep ++ w) (hstart : ∀ {a s u}, P a s → ¬ G (s ++ u)) :
    ReadsAt (Joined sep P) G as := by
  have hempty : ∀ {b : α} {bs : List α} {t u v : List Char}, Joined sep P (b :: bs) t → G u →
      u ≠ t ++ v := by
    intro b bs t u v ht hu h
    obtain ⟨r, w, hr, hw, -⟩ := joined_cons_append (u := v) ht
    rw [h, hw] at hu
    exact hstart hr hu
  intro bs s t u v hs ht hu hv h
  induction as generalizing bs s t with
  | nil =>
    rw [joined_nil] at hs
    subst hs
    cases bs with
    | nil =>
      rw [joined_nil] at ht
      subst ht
      exact ⟨rfl, h⟩
    | cons b bs => exact absurd h (hempty ht hu)
  | cons a as ih =>
    cases bs with
    | nil =>
      rw [joined_nil] at ht
      subst ht
      exact absurd h.symm (hempty hs hv)
    | cons b bs =>
      obtain ⟨r, w, hr, hw, hrest⟩ := joined_cons_append (u := u) hs
      obtain ⟨r', w', hr', hw', hrest'⟩ := joined_cons_append (u := v) ht
      rw [hw, hw'] at h
      have hF : F w := by
        rcases hrest with ⟨-, rfl⟩ | ⟨-, t, -, rfl⟩
        · exact (hG _ hu).1
        · exact hsep _
      have hF' : F w' := by
        rcases hrest' with ⟨-, rfl⟩ | ⟨-, t, -, rfl⟩
        · exact (hG _ hv).1
        · exact hsep _
      obtain ⟨rfl, rfl⟩ := has a (by simp) hr hr' hF hF' h
      rcases hrest with ⟨rfl, rfl⟩ | ⟨-, s', hs', rfl⟩
      · rcases hrest' with ⟨rfl, rfl⟩ | ⟨-, t', -, heq⟩
        · exact ⟨rfl, rfl⟩
        · exact absurd heq ((hG _ hu).2 _)
      · rcases hrest' with ⟨rfl, heq⟩ | ⟨-, t', ht', heq⟩
        · exact absurd heq.symm ((hG _ hv).2 _)
        · obtain ⟨rfl, rfl⟩ := ih (fun a ha => has a (List.mem_cons_of_mem _ ha)) hs' ht'
            (List.append_cancel_left heq)
          exact ⟨rfl, rfl⟩

/-- The text of a list without separators. -/
def Chained (P : α → List Char → Prop) (as : List α) (s : List Char) : Prop :=
  ∃ ss, List.Forall₂ P as ss ∧ s = ss.flatten

/-- A list without separators can be told from its text, if its members can whatever follows, and
what follows the list (`G`) is not the start of a member. -/
theorem reads_chained (hP : Reads P fun _ => True) (hstart : ∀ {a s u}, P a s → ¬ G (s ++ u)) :
    Reads (Chained P) G := by
  rintro as bs s t u v ⟨ss, hss, rfl⟩ ⟨ts, hts, rfl⟩ hu hv h
  induction hss generalizing bs ts with
  | nil =>
    cases hts with
    | nil => exact ⟨rfl, h⟩
    | cons hb _ =>
      rw [List.flatten_nil, List.nil_append, List.flatten_cons, List.append_assoc] at h
      exact absurd (h ▸ hu) (hstart hb)
  | cons ha _ ih =>
    cases hts with
    | nil =>
      rw [List.flatten_nil, List.nil_append, List.flatten_cons, List.append_assoc] at h
      exact absurd (h ▸ hv) (hstart ha)
    | cons hb hbs =>
      simp only [List.flatten_cons, List.append_assoc] at h
      obtain ⟨rfl, hrest⟩ := hP _ ha hb trivial trivial h
      obtain ⟨rfl, rfl⟩ := ih _ hbs hrest
      exact ⟨rfl, rfl⟩

end Reads

end ContractIR.Text
