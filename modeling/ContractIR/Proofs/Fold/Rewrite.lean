import ContractIR.Fold.Capacity
import ContractIR.Proofs.Except

/-!
# ContractIR.Proofs.Fold.Rewrite — what the folding pass changes

The pass replaces the expressions of `set` instructions and nothing else.  It learns literals on the
way, and every literal that it puts in place of a variable `v` is one that the finished function
sets `v` to.  All later results on the pass start from `Func.foldsTo_of_fold`.
-/

namespace ContractIR

/-! ### Pointwise related lists -/

section Related

variable {α β γ : Type} {l : List α}

theorem map_eq_of_forall₂ {R : α → β → Prop} {m : List β} {F : α → γ} {G : β → γ}
    (h : List.Forall₂ R l m) (hR : ∀ a b, R a b → G b = F a) : m.map G = l.map F := by
  induction h with
  | nil => rfl
  | cons hab _ ih => rw [List.map_cons, List.map_cons, hR _ _ hab, ih]

theorem lookup_of_forall₂ {R : α → β → Prop} {es : List (Int × α)} {es' : List (Int × β)}
    (h : List.Forall₂ (fun e e' => e'.1 = e.1 ∧ R e.2 e'.2) es es') (k : Int) :
    (es.lookup k = none ∧ es'.lookup k = none) ∨
      ∃ a b, es.lookup k = some a ∧ es'.lookup k = some b ∧ R a b := by
  induction h with
  | nil => exact .inl ⟨rfl, rfl⟩
  | @cons e e' es es' he _ ih =>
    obtain ⟨key, a⟩ := e
    obtain ⟨key', b⟩ := e'
    obtain ⟨hkey, hab⟩ := he
    dsimp only at hkey hab
    subst hkey
    by_cases hk : k = key'
    · subst hk
      exact .inr ⟨a, b, by simp, by simp, hab⟩
    · have hne : (k == key') = false := by simpa using hk
      simpa only [List.lookup_cons, hne] using ih

theorem getElem?_of_forall₂ {R : α → β → Prop} {m : List β} (h : List.Forall₂ R l m) (k : Nat) :
    (l[k]? = none ∧ m[k]? = none) ∨ ∃ a b, l[k]? = some a ∧ m[k]? = some b ∧ R a b := by
  induction h generalizing k with
  | nil => exact .inl ⟨rfl, rfl⟩
  | @cons a b _ _ hab _ ih =>
    cases k with
    | zero => exact .inr ⟨a, b, rfl, rfl, hab⟩
    | succ k => exact ih k

end Related

/-! ### The pass as a relation -/

namespace Func

/-- Somewhere in the function the variable is set to the literal. -/
def Sets (f : Func) (v : VarId) (l : Literal) : Prop :=
  ∃ e ∈ f.blocks.entries, .set v (.literal l) ∈ e.2.instructions

end Func

namespace Fold

/-- What becomes of one instruction, if only literals that satisfy `P` stand in for variables. -/
inductive Rewrites (H : Bytes → Bytes) (P : VarId → Literal → Prop) : Instr → Instr → Prop
  | keep {i : Instr} (hi : ∀ r e, i ≠ .set r e) : Rewrites H P i i
  | set {r : VarId} {e e' : Expr} {known : Constants}
      (hknown : ∀ v l, known.lookup v = some l → P v l)
      (he : (substitute known e).fold H = .ok e') :
      Rewrites H P (.set r e) (.set r e')

/-- What becomes of one block. -/
structure RewritesBlock (H : Bytes → Bytes) (P : VarId → Literal → Prop) (b b' : Block) :
    Prop where
  id_eq : b'.id = b.id
  name_eq : b'.name = b.name
  instructions : List.Forall₂ (Rewrites H P) b.instructions b'.instructions

variable {H : Bytes → Bytes} {P : VarId → Literal → Prop}

theorem learn_sound {known : Constants} {r : VarId} {e : Expr}
    (hknown : ∀ v l, known.lookup v = some l → P v l) (hr : ∀ l, e = .literal l → P r l) :
    ∀ v l, (learn known r e).lookup v = some l → P v l := by
  intro v l hv
  cases e with
  | literal l' =>
    simp only [learn, Expr.literal?, List.lookup_cons] at hv
    split at hv
    · rename_i hvr
      cases hv
      rw [eq_of_beq hvr]
      exact hr l rfl
    · exact hknown v l hv
  | _ => exact hknown v l hv

theorem instr_rewrites {known known' : Constants} {i i' : Instr}
    (h : instr (Expr.fold H) known i = .ok (i', known'))
    (hknown : ∀ v l, known.lookup v = some l → P v l)
    (hset : ∀ v l, i' = .set v (.literal l) → P v l) :
    Rewrites H P i i' ∧ ∀ v l, known'.lookup v = some l → P v l := by
  cases i with
  | set r e =>
    simp only [instr, bind_eq_ok_iff, pure_eq_ok_iff, Prod.mk.injEq] at h
    obtain ⟨e', he, rfl, rfl⟩ := h
    exact ⟨.set hknown he, learn_sound hknown fun l hl => hset r l (by rw [hl])⟩
  | _ =>
    obtain ⟨rfl, rfl⟩ := Prod.mk.inj (Except.ok.inj h)
    exact ⟨.keep (by simp), hknown⟩

/-- The literals that are known after some instructions were known before or are set by them. -/
theorem instrs_rewrites {known known' : Constants} {is is' : List Instr}
    (h : instrs (Expr.fold H) known is = .ok (is', known'))
    (hknown : ∀ v l, known.lookup v = some l → P v l)
    (hset : ∀ v l, .set v (.literal l) ∈ is' → P v l) :
    List.Forall₂ (Rewrites H P) is is' ∧ ∀ v l, known'.lookup v = some l → P v l := by
  induction is generalizing known is' with
  | nil =>
    obtain ⟨rfl, rfl⟩ := Prod.mk.inj (Except.ok.inj h)
    exact ⟨.nil, hknown⟩
  | cons i is ih =>
    simp only [instrs, bind_eq_ok_iff, pure_eq_ok_iff, Prod.mk.injEq] at h
    obtain ⟨⟨i', known₁⟩, hi, ⟨is₁, known₂⟩, his, rfl, rfl⟩ := h
    obtain ⟨hri, hknown₁⟩ := instr_rewrites hi hknown fun v l hv => hset v l (by simp [hv])
    obtain ⟨hris, hknown₂⟩ := ih his hknown₁ fun v l hv => hset v l (List.mem_cons_of_mem _ hv)
    exact ⟨.cons hri hris, hknown₂⟩

theorem block_rewrites {known known' : Constants} {b b' : Block}
    (h : block (Expr.fold H) known b = .ok (b', known'))
    (hknown : ∀ v l, known.lookup v = some l → P v l)
    (hset : ∀ v l, .set v (.literal l) ∈ b'.instructions → P v l) :
    RewritesBlock H P b b' ∧ ∀ v l, known'.lookup v = some l → P v l := by
  simp only [block, bind_eq_ok_iff, pure_eq_ok_iff, Prod.mk.injEq] at h
  obtain ⟨⟨is, known₁⟩, his, rfl, rfl⟩ := h
  obtain ⟨hr, hk⟩ := instrs_rewrites his hknown hset
  exact ⟨⟨rfl, rfl, hr⟩, hk⟩

theorem entries_rewrites {known known' : Constants} {es es' : List (BlockId × Block)}
    (h : IdMap.mapEntries (block (Expr.fold H)) known es = .ok (es', known'))
    (hknown : ∀ v l, known.lookup v = some l → P v l)
    (hset : ∀ e ∈ es', ∀ v l, .set v (.literal l) ∈ e.2.instructions → P v l) :
    List.Forall₂ (fun e e' => e'.1 = e.1 ∧ RewritesBlock H P e.2 e'.2) es es' := by
  induction es generalizing known es' with
  | nil =>
    obtain ⟨rfl, rfl⟩ := Prod.mk.inj (Except.ok.inj h)
    exact .nil
  | cons e es ih =>
    obtain ⟨key, b⟩ := e
    simp only [IdMap.mapEntries, bind_eq_ok_iff, pure_eq_ok_iff, Prod.mk.injEq] at h
    obtain ⟨⟨b', known₁⟩, hb, ⟨es₁, known₂⟩, hes, rfl, rfl⟩ := h
    obtain ⟨hr, hk⟩ := block_rewrites hb hknown (hset (key, b') (by simp))
    exact .cons ⟨rfl, hr⟩ (ih hes hk fun e he => hset e (List.mem_cons_of_mem _ he))

end Fold

namespace Func

/-- How a folded function relates to the one it came from. -/
structure FoldsTo (H : Bytes → Bytes) (f g : Func) : Prop where
  rest_eq : g = { f with blocks := g.blocks }
  blocks : List.Forall₂ (fun e e' => e'.1 = e.1 ∧ Fold.RewritesBlock H g.Sets e.2 e'.2)
    f.blocks.entries g.blocks.entries

/-- The pass rewrites expressions by literals that the folded function sets. -/
theorem foldsTo_of_fold {H : Bytes → Bytes} {f g : Func} (h : f.fold H = .ok g) :
    FoldsTo H f g := by
  simp only [fold, foldBy, bind_eq_ok_iff, pure_eq_ok_iff] at h
  obtain ⟨⟨blocks, known⟩, hb, rfl⟩ := h
  refine ⟨rfl, Fold.entries_rewrites (IdMap.mapState_eq_ok_iff.1 hb) (by simp) ?_⟩
  exact fun e he v l hv => ⟨e, he, hv⟩

end Func

/-! ### What stays -/

theorem Operand.eq_literal_of_literal? {o : Operand} {l : Literal} (h : o.literal? = some l) :
    o = .literal l := by
  cases o <;> simp_all [literal?]

namespace Fold

variable {i i' : Instr} {b b' : Block}

theorem Rewrites.isPhi_eq (h : Rewrites H P i i') : i'.isPhi = i.isPhi := by
  cases h <;> rfl

theorem Rewrites.definitions_eq (h : Rewrites H P i i') : i'.definitions = i.definitions := by
  cases h <;> rfl

theorem takeWhile_isPhi_eq {is is' : List Instr} (h : List.Forall₂ (Rewrites H P) is is') :
    is'.takeWhile Instr.isPhi = is.takeWhile Instr.isPhi := by
  induction h with
  | nil => rfl
  | cons hi _ ih =>
    cases hi with
    | keep => rw [List.takeWhile_cons, List.takeWhile_cons, ih]
    | set => rfl

namespace RewritesBlock

variable (h : RewritesBlock H P b b')

include h

theorem phis_eq : b'.phis = b.phis := by
  rw [Block.phis, Block.phis, takeWhile_isPhi_eq h.instructions]

theorem definitions_eq : b'.definitions = b.definitions := by
  have hdefs := map_eq_of_forall₂ h.instructions fun _ _ hi => hi.definitions_eq
  rw [Block.definitions, Block.definitions, List.flatMap_def, List.flatMap_def, hdefs]

end RewritesBlock

end Fold

namespace Func.FoldsTo

variable {H : Bytes → Bytes} {f g : Func} (h : FoldsTo H f g)

include h

theorem entry_eq : g.entry = f.entry := by rw [h.rest_eq]

theorem get?_rewrites (id : BlockId) :
    (f.blocks.get? id = none ∧ g.blocks.get? id = none) ∨
      ∃ b b', f.blocks.get? id = some b ∧ g.blocks.get? id = some b' ∧
        Fold.RewritesBlock H g.Sets b b' :=
  lookup_of_forall₂ h.blocks id

theorem definitions_eq : g.definitions = f.definitions := by
  have hdefs := map_eq_of_forall₂ h.blocks fun _ _ he => he.2.definitions_eq
  simp only [definitions, IdMap.values, List.flatMap_def, List.map_map]
  exact congrArg List.flatten hdefs

end Func.FoldsTo

end ContractIR
