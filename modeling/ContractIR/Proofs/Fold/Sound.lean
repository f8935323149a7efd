import ContractIR.Digest.Keccak
import ContractIR.Proofs.Fold.Expr
import ContractIR.Proofs.WellFormed
import Mathlib.Data.List.Pairwise

/-!
# ContractIR.Proofs.Fold.Sound — folding keeps every run

The pass learns literals in the order in which blocks were added, which is not the order in which a
run visits them.  What ties the two together is single assignment: whenever a variable that the
folded function sets to a literal has a value, that value is the literal (`Agrees`).  A run of the
folded function keeps this, and where it holds, one step of the folded function is one step of the
original.
-/

namespace ContractIR

/-! ### Folding succeeds -/

/-- Wherever the function sets a variable, the integer types of the literals there have at least two
bits. -/
def Func.Wide (f : Func) : Prop :=
  ∀ b ∈ f.blocks.values, ∀ r e, .set r e ∈ b.instructions → e.Wide

namespace Fold

variable {H : Bytes → Bytes} {known : Constants}

theorem operands_substitute (known : Constants) (e : Expr) :
    (substitute known e).operands = e.operands.map (replace known) ∨ substitute known e = e := by
  cases e with
  | binary op left right => exact .inl rfl
  | unary op operand => exact .inl rfl
  | widthChange change operand type => exact .inl rfl
  | keccak256 args => exact .inl rfl
  | _ => exact .inr rfl

theorem form_substitute (e : Expr) : (substitute known e).form = e.form := by
  cases e with
  | keccak256 args => simp only [substitute, Expr.form, List.map_map, Function.comp_def]
  | _ => rfl

theorem wide_substitute (hknown : ∀ v l, known.lookup v = some l → l.Wide) {e : Expr}
    (he : e.Wide) : (substitute known e).Wide := by
  refine ⟨fun l hl => ?_, fun l hl => ?_, fun change o t ht => ?_⟩
  · cases e <;> simp only [substitute, reduceCtorEq] at hl
    exact he.value l hl
  · rcases operands_substitute known e with ho | ho
    · rw [ho] at hl
      obtain ⟨o, hmem, hreplace⟩ := List.mem_map.1 hl
      cases o with
      | var id =>
        simp only [replace] at hreplace
        cases hlook : known.lookup id with
        | none => simp [hlook] at hreplace
        | some k =>
          rw [hlook] at hreplace
          obtain rfl := Operand.literal.inj hreplace
          exact hknown id k hlook
      | literal k =>
        obtain rfl := Operand.literal.inj hreplace
        exact he.operands k hmem
      | unknown kind => cases hreplace
    · rw [ho] at hl
      exact he.operands l hl
  · cases e <;> simp only [substitute, reduceCtorEq, Expr.widthChange.injEq] at ht
    obtain ⟨-, -, rfl⟩ := ht
    exact he.target _ _ _ rfl

/-- Wide instructions are folded without failing; they stay wide, and so does what is learned. -/
theorem instrs_wide {is : List Instr} (his : ∀ r e, .set r e ∈ is → e.Wide)
    (hknown : ∀ v l, known.lookup v = some l → l.Wide) :
    ∃ is' known', instrs (Expr.fold H) known is = .ok (is', known') ∧
      (∀ r e, .set r e ∈ is' → e.Wide) ∧ ∀ v l, known'.lookup v = some l → l.Wide := by
  induction is generalizing known with
  | nil => exact ⟨[], known, rfl, by simp, hknown⟩
  | cons i is ih =>
    have hrest := fun r e he => his r e (List.mem_cons_of_mem i he)
    by_cases hi : ∃ r e, i = .set r e
    · obtain ⟨r, e, rfl⟩ := hi
      obtain ⟨e', he', hwide, -⟩ := Expr.fold_eq_ok (wide_substitute hknown (his r e (by simp)))
      have hlearn := learn_sound (P := fun _ l => l.Wide) (r := r) hknown hwide.value
      obtain ⟨is', known', h, hset, hk⟩ := ih hrest hlearn
      refine ⟨.set r e' :: is', known', ?_, fun r' x hx => ?_, hk⟩
      · simp only [instrs, instr, bind_eq_ok_iff, pure_eq_ok_iff]
        exact ⟨_, ⟨e', he', rfl⟩, _, h, rfl⟩
      · rcases List.mem_cons.1 hx with hx | hx
        · obtain ⟨-, rfl⟩ := Instr.set.inj hx
          exact hwide
        · exact hset r' x hx
    · obtain ⟨is', known', h, hset, hk⟩ := ih hrest hknown
      refine ⟨i :: is', known', ?_, fun r x hx => ?_, hk⟩
      · have hkeep : instr (Expr.fold H) known i = .ok (i, known) := by
          cases i <;> first | rfl | simp at hi
        simp only [instrs, bind_eq_ok_iff, pure_eq_ok_iff]
        exact ⟨_, hkeep, _, h, rfl⟩
      · rcases List.mem_cons.1 hx with rfl | hx
        · exact absurd ⟨r, x, rfl⟩ hi
        · exact hset r x hx

theorem entries_wide {es : List (BlockId × Block)}
    (hes : ∀ p ∈ es, ∀ r e, .set r e ∈ p.2.instructions → e.Wide)
    (hknown : ∀ v l, known.lookup v = some l → l.Wide) :
    ∃ es' known', IdMap.mapEntries (block (Expr.fold H)) known es = .ok (es', known') ∧
      ∀ p ∈ es', ∀ r e, .set r e ∈ p.2.instructions → e.Wide := by
  induction es generalizing known with
  | nil => exact ⟨[], known, rfl, by simp⟩
  | cons p es ih =>
    obtain ⟨is', known₁, his, hset, hk⟩ := instrs_wide (hes p (by simp)) hknown
    obtain ⟨es', known', h, hset'⟩ := ih (fun q hq => hes q (List.mem_cons_of_mem p hq)) hk
    refine ⟨(p.1, { p.2 with instructions := is' }) :: es', known', ?_, ?_⟩
    · simp only [IdMap.mapEntries, block, bind_eq_ok_iff, pure_eq_ok_iff]
      exact ⟨_, ⟨_, his, rfl⟩, _, h, rfl⟩
    · rw [List.forall_mem_cons]
      exact ⟨hset, hset'⟩

end Fold

/-- A wide function is folded without failing, and stays wide. -/
theorem Func.fold_eq_ok {H : Bytes → Bytes} {f : Func} (hf : f.Wide) :
    ∃ g, f.fold H = .ok g ∧ g.Wide := by
  have hes : ∀ p ∈ f.blocks.entries, ∀ r e, .set r e ∈ p.2.instructions → e.Wide :=
    fun p hp => hf p.2 (List.mem_map_of_mem hp)
  have hnone : ∀ v l, ([] : Fold.Constants).lookup v = some l → l.Wide := by simp
  obtain ⟨es, known, hmap, hwide⟩ := Fold.entries_wide hes hnone
  have hkeys := IdMap.keys_mapEntries hmap
  let blocks : IdMap Block := ⟨es, hkeys ▸ f.blocks.nodup⟩
  refine ⟨{ f with blocks := blocks }, ?_, fun b hb => ?_⟩
  · simp only [fold, foldBy, bind_eq_ok_iff, pure_eq_ok_iff]
    exact ⟨(blocks, known), IdMap.mapState_eq_ok_iff.2 hmap, rfl⟩
  · obtain ⟨p, hp, rfl⟩ := List.mem_map.1 hb
    exact hwide p hp

/-! ### One instruction -/

namespace Interp

variable {H : Bytes → Bytes} {I : Interp H} {env : I.Env} {m : I.State}

/-- Every variable that has a value and that `P` ties to a literal has the value of the literal. -/
def Agrees (P : VarId → Literal → Prop) (env : I.Env) : Prop :=
  ∀ v l x, P v l → env v = some x → x = I.const l.denote

theorem mapM_read_cases (env : I.Env) (os : List Operand) :
    (∃ xs, os.mapM (read env) = .ok xs) ∨ ∃ v, os.mapM (read env) = .error (.unassigned v) := by
  induction os with
  | nil => exact .inl ⟨[], rfl⟩
  | cons o os ih =>
    rw [List.mapM_cons]
    have ho : (∃ x, read env o = .ok x) ∨ ∃ v, read env o = .error (.unassigned v) := by
      cases o with
      | var id =>
        cases hv : env id with
        | none => exact .inr ⟨id, by simp only [read, hv]⟩
        | some x => exact .inl ⟨x, by simp only [read, hv]⟩
      | literal l => exact .inl ⟨_, rfl⟩
      | unknown kind => exact .inl ⟨_, rfl⟩
    obtain ⟨x, hx⟩ | ⟨v, hv⟩ := ho
    · rw [hx]
      obtain ⟨xs, hxs⟩ | ⟨v, hv⟩ := ih
      · exact .inl ⟨x :: xs, by rw [hxs]; rfl⟩
      · exact .inr ⟨v, by rw [hv]; rfl⟩
    · exact .inr ⟨v, by rw [hv]; rfl⟩

theorem read_replace {known : Fold.Constants} {P : VarId → Literal → Prop}
    (hknown : ∀ v l, known.lookup v = some l → P v l) (henv : Agrees P env) {o : Operand}
    {x : I.Value} (h : read env o = .ok x) : read env (Fold.replace known o) = .ok x := by
  cases o with
  | var id =>
    simp only [Fold.replace]
    cases hlook : known.lookup id with
    | none => exact h
    | some l =>
      simp only [read] at h
      split at h
      · rename_i y hy
        obtain rfl := Except.ok.inj h
        rw [henv id l y (hknown id l hlook) hy]
        rfl
      · cases h
  | _ => exact h

/-- Known literals in place of variables do not change an outcome. -/
theorem eval_substitute {known : Fold.Constants} {P : VarId → Literal → Prop}
    (hknown : ∀ v l, known.lookup v = some l → P v l) (henv : Agrees P env) {e : Expr}
    {o : Outcome I.State I.Halt I.Value} (h : eval env m e = .ok o) :
    eval env m (Fold.substitute known e) = .ok o := by
  rcases Fold.operands_substitute known e with hops | hsame
  · simp only [eval, bind_eq_ok_iff, pure_eq_ok_iff, mapM_eq_ok_iff] at h ⊢
    obtain ⟨xs, hxs, rfl⟩ := h
    refine ⟨xs, ?_, by rw [Fold.form_substitute]⟩
    rw [hops, List.forall₂_map_left_iff]
    exact hxs.imp fun o x hx => read_replace hknown henv hx
  · rwa [hsame]

/-- A rewritten instruction has the effect of the original, if the original has one. -/
theorem effect_rewrites {P : VarId → Literal → Prop} {i i' : Instr}
    {o : Outcome I.State I.Halt (List I.Value)} (hi : Fold.Rewrites H P i i')
    (hP : ∀ v l, P v l → l.Wide) (hwide : ∀ r e, i = .set r e → e.Wide) (henv : Agrees P env)
    (h : effect env m i = .ok o) : effect env m i' = .ok o := by
  cases hi with
  | keep => exact h
  | @set r e e' known hknown he =>
    have hsub := Fold.wide_substitute (fun v l hl => hP v l (hknown v l hl)) (hwide r e rfl)
    obtain ⟨e₁, he₁, -, heval⟩ := Expr.fold_eq_ok hsub
    obtain rfl := Except.ok.inj (he.symm.trans he₁)
    simp only [effect, bind_eq_ok_iff, pure_eq_ok_iff] at h
    obtain ⟨xs, hxs, rfl⟩ := h
    have heval' : eval env m e' = .ok (I.expr e.form xs m) := by
      rw [heval I env m]
      apply eval_substitute hknown henv
      rw [eval, show e.operands.mapM (read env) = .ok xs from hxs]
      rfl
    simp only [eval, bind_eq_ok_iff, pure_eq_ok_iff] at heval'
    obtain ⟨xs', hxs', hexpr⟩ := heval'
    simp only [effect, bind_eq_ok_iff, pure_eq_ok_iff]
    exact ⟨xs', hxs', by rw [act, act, hexpr]⟩

theorem effect_cases (env : I.Env) (m : I.State) (i : Instr) :
    (∃ o, effect env m i = .ok o) ∨ ∃ v, effect env m i = .error (.unassigned v) := by
  obtain ⟨xs, hxs⟩ | ⟨v, hv⟩ := mapM_read_cases env i.operands
  · exact .inl ⟨_, by rw [effect, hxs]; rfl⟩
  · exact .inr ⟨v, by rw [effect, hv]; rfl⟩

end Interp

/-! ### One step -/

theorem Func.mem_values_of_get? {f : Func} {id : BlockId} {b : Block}
    (h : f.blocks.get? id = some b) : b ∈ f.blocks.values :=
  List.mem_map.2 ⟨(id, b), IdMap.get?_eq_some_iff.1 h, rfl⟩

theorem Func.exists_block_of_instr? {f : Func} {id : BlockId} {index : Nat} {i : Instr}
    (h : f.instr? id index = some i) : ∃ b ∈ f.blocks.values, i ∈ b.instructions := by
  obtain ⟨b, hb, hi⟩ := Option.bind_eq_some_iff.1 h
  exact ⟨b, mem_values_of_get? hb, List.mem_of_getElem? hi⟩

theorem Func.FoldsTo.instr?_rewrites {H : Bytes → Bytes} {f g : Func} (h : f.FoldsTo H g)
    (id : BlockId) (index : Nat) :
    (f.instr? id index = none ∧ g.instr? id index = none) ∨
      ∃ i i', f.instr? id index = some i ∧ g.instr? id index = some i' ∧
        Fold.Rewrites H g.Sets i i' := by
  unfold Func.instr?
  obtain ⟨h1, h2⟩ | ⟨b, b', h1, h2, hb⟩ := h.get?_rewrites id
  · exact .inl ⟨by rw [h1]; rfl, by rw [h2]; rfl⟩
  · rw [h1, h2]
    exact getElem?_of_forall₂ hb.instructions index

namespace Interp

variable {H : Bytes → Bytes} {I : Interp H} {f g : Func}

theorem enter_fold (h : f.FoldsTo H g) (source : Option BlockId) (target : BlockId) (env : I.Env)
    (m : I.State) : I.enter g source target env m = I.enter f source target env m := by
  unfold enter
  obtain ⟨h1, h2⟩ | ⟨b, b', h1, h2, hb⟩ := h.get?_rewrites target
  · rw [h1, h2]
  · rw [h1, h2]
    dsimp only
    rw [hb.phis_eq]

theorem perform_fold (h : f.FoldsTo H g) {c : I.Config} {i i' : Instr}
    (hi : Fold.Rewrites H g.Sets i i') (hg : ∀ v l, g.Sets v l → l.Wide)
    (hwide : ∀ r e, i = .set r e → e.Wide) (henv : Agrees g.Sets c.env)
    (hne : ∀ v, I.perform f c i ≠ .error (.unassigned v)) :
    I.perform g c i' = I.perform f c i := by
  have heffect : ∀ o, effect c.env c.state i = .ok o → effect c.env c.state i' = .ok o :=
    fun o ho => effect_rewrites hi hg hwide henv ho
  cases hi with
  | @keep i hi =>
    cases i with
    | terminate t => simp only [perform, enter_fold h]
    | _ => rfl
  | @set r e e' known hknown he =>
    obtain ⟨o, ho⟩ | ⟨v, hv⟩ := effect_cases c.env c.state (.set r e)
    · rw [perform, perform, ho, heffect o ho]
      · rfl
      all_goals nofun
    · refine absurd ?_ (hne v)
      rw [perform, hv]
      · rfl
      all_goals nofun

/-- Where the environment agrees with the literals that are set, a step of the folded function is a
step of the original, unless that reads a variable without a value. -/
theorem step_fold (h : f.FoldsTo H g) (hg : ∀ v l, g.Sets v l → l.Wide) (hf : f.Wide) {c : I.Config}
    (henv : Agrees g.Sets c.env) (hne : ∀ v, I.step f c ≠ .error (.unassigned v)) :
    I.step g c = I.step f c := by
  unfold step at hne ⊢
  obtain ⟨h1, h2⟩ | ⟨i, i', h1, h2, hi⟩ := h.instr?_rewrites c.block c.index
  · rw [h1, h2]
  · rw [h1] at hne
    rw [h1, h2]
    refine perform_fold h hi hg (fun r e he => ?_) henv hne
    subst he
    obtain ⟨b, hb, hmem⟩ := Func.exists_block_of_instr? h1
    exact hf b hb r e hmem

end Interp

/-! ### Values of single assignment -/

/-- A variable that is assigned once is defined by one instruction. -/
theorem Func.eq_of_mem_definitions {g : Func} (hnd : g.definitions.Nodup) {b b' : Block}
    {i i' : Instr} {v : VarId} (hb : b ∈ g.blocks.values) (hb' : b' ∈ g.blocks.values)
    (hi : i ∈ b.instructions) (hi' : i' ∈ b'.instructions) (hv : v ∈ i.definitions)
    (hv' : v ∈ i'.definitions) : i = i' := by
  have hflat : g.definitions = (g.blocks.values.flatMap Block.instructions).flatMap
      Instr.definitions := by
    rw [List.flatMap_assoc]
    rfl
  rw [hflat] at hnd
  have hpair := (List.nodup_flatMap.1 hnd).2
  have hsymm : Std.Symm (Function.onFun List.Disjoint Instr.definitions) :=
    ⟨fun _ _ h => List.disjoint_symm h⟩
  by_contra hne
  exact hpair.forall (List.mem_flatMap.2 ⟨b, hb, hi⟩) (List.mem_flatMap.2 ⟨b', hb', hi'⟩) hne hv hv'

/-- If the instruction defines a variable that the function sets to a literal, it is that `set`. -/
theorem Func.Sets.eq_of_mem_definitions {g : Func} (hnd : g.definitions.Nodup) {b : Block}
    {i : Instr} {v : VarId} {l : Literal} (hset : g.Sets v l) (hb : b ∈ g.blocks.values)
    (hi : i ∈ b.instructions) (hv : v ∈ i.definitions) : i = .set v (.literal l) := by
  obtain ⟨e, he, hmem⟩ := hset
  exact Func.eq_of_mem_definitions hnd hb (List.mem_map_of_mem he) hi hmem hv
    (List.mem_singleton_self v)

namespace Interp

variable {H : Bytes → Bytes} {I : Interp H} {g : Func}

theorem Agrees.assign {P : VarId → Literal → Prop} {env : I.Env} {values : List (VarId × I.Value)}
    (henv : Agrees P env) (h : ∀ v x l, (v, x) ∈ values → P v l → x = I.const l.denote) :
    Agrees P (env.assign values) := by
  intro v l x hl hx
  simp only [Env.assign] at hx
  cases hlook : values.lookup v with
  | none =>
    rw [hlook] at hx
    exact henv v l x hl hx
  | some y =>
    rw [hlook] at hx
    obtain rfl := Option.some.inj hx
    obtain ⟨l₁, l₂, rfl, -⟩ := List.lookup_eq_some_iff.1 hlook
    exact h v y l (by simp) hl

theorem mem_instructions_of_mem_phis {b : Block} {v : VarId} {inputs : List PhiInput}
    (h : (v, inputs) ∈ b.phis) : .phi v inputs ∈ b.instructions := by
  obtain ⟨i, hi, hphi⟩ := List.mem_filterMap.1 h
  have hmem := (List.takeWhile_prefix Instr.isPhi).subset hi
  cases i with
  | phi r js =>
    obtain ⟨rfl, rfl⟩ := Prod.mk.inj (Option.some.inj hphi)
    exact hmem
  | _ => cases hphi

theorem enter_agrees (hnd : g.definitions.Nodup) {source : Option BlockId} {target : BlockId}
    {env : I.Env} {m : I.State} {c : I.Config} (henv : Agrees g.Sets env)
    (h : I.enter g source target env m = .ok (.running c)) : Agrees g.Sets c.env := by
  unfold enter at h
  split at h
  · cases h
  · rename_i b hb
    simp only [bind_eq_ok_iff, pure_eq_ok_iff, Status.running.injEq, mapM_eq_ok_iff] at h
    obtain ⟨values, hvalues, rfl⟩ := h
    have hfst : values.map Prod.fst = b.phis.map Prod.fst := by
      refine map_eq_of_forall₂ hvalues fun p q hpq => ?_
      obtain ⟨x, -, hq⟩ := hpq
      rw [← hq]
    refine henv.assign fun v x l hmem hset => ?_
    -- a phi is no `set`, so no literal is known for what it defines
    have hv : v ∈ b.phis.map Prod.fst := hfst ▸ List.mem_map_of_mem hmem
    obtain ⟨⟨v', inputs⟩, hphi, rfl⟩ := List.mem_map.1 hv
    have heq := hset.eq_of_mem_definitions hnd (Func.mem_values_of_get? hb)
      (mem_instructions_of_mem_phis hphi) (List.mem_singleton_self v')
    cases heq

/-- What a step that does not end the run can do. -/
theorem perform_eq_running {f : Func} {c c' : I.Config} {i : Instr}
    (h : I.perform f c i = .ok (.running c')) :
    (∃ target m, I.enter f (some c.block) target c.env m = .ok (.running c')) ∨
      ∃ xs m, effect c.env c.state i = .ok (.next xs m) ∧
        c'.env = c.env.assign (i.definitions.zip xs) := by
  have hplain : (do return c.proceed i.definitions (← effect c.env c.state i)) =
      Except.ok (Status.running c') → ∃ xs m, effect c.env c.state i = .ok (.next xs m) ∧
        c'.env = c.env.assign (i.definitions.zip xs) := by
    intro h
    simp only [bind_eq_ok_iff, pure_eq_ok_iff] at h
    obtain ⟨o, ho, hc⟩ := h
    cases o with
    | next xs m =>
      obtain rfl := Status.running.inj hc
      exact ⟨xs, m, ho, rfl⟩
    | halt reason m => cases hc
  cases i with
  | phi r inputs => cases h
  | terminate t =>
    simp only [perform, bind_eq_ok_iff] at h
    obtain ⟨xs, -, h⟩ := h
    split at h
    · exact .inl ⟨_, _, h⟩
    · cases h
  | _ => exact .inr (hplain h)

/-- A step keeps the agreement of the environment with the literals that are set. -/
theorem step_agrees (hnd : g.definitions.Nodup) {c c' : I.Config} (henv : Agrees g.Sets c.env)
    (h : I.step g c = .ok (.running c')) : Agrees g.Sets c'.env := by
  unfold step at h
  split at h
  · cases h
  · rename_i i hi
    obtain ⟨b, hb, hmem⟩ := Func.exists_block_of_instr? hi
    obtain ⟨target, m, henter⟩ | ⟨xs, m, heffect, hc⟩ := perform_eq_running h
    · exact enter_agrees hnd henv henter
    · rw [hc]
      refine henv.assign fun v x l hvx hset => ?_
      obtain rfl := hset.eq_of_mem_definitions hnd hb hmem (List.of_mem_zip hvx).1
      have hlit : effect c.env c.state (.set v (.literal l)) =
          .ok (.next [I.const l.denote] c.state) :=
        congrArg (fun o => Except.ok (Outcome.map (fun x => [x]) o)) (I.expr_literal l c.state)
      rw [hlit] at heffect
      cases heffect
      simpa [Instr.definitions] using hvx

/-! ### Whole runs -/

/-- A run of the folded function is the run of the original, step for step, as long as that reads no
variable without a value; and it keeps the agreement. -/
theorem run_fold {f : Func} (h : f.FoldsTo H g) (hnd : f.definitions.Nodup)
    (hg : ∀ v l, g.Sets v l → l.Wide) (hf : f.Wide) (m : I.State) (n : Nat)
    (hne : ∀ v, I.run f m n ≠ .error (.unassigned v)) :
    I.run g m n = I.run f m n ∧ ∀ c, I.run g m n = .ok (.running c) → Agrees g.Sets c.env := by
  have hnd' : g.definitions.Nodup := h.definitions_eq ▸ hnd
  induction n with
  | zero =>
    refine ⟨?_, fun c hc => enter_agrees hnd' (fun v l x _ hx => by cases hx) hc⟩
    rw [run, run, enter_fold h, h.entry_eq]
  | succ n ih =>
    have hne' : ∀ v, I.run f m n ≠ .error (.unassigned v) := by
      intro v hv
      apply hne v
      rw [run, hv]
      rfl
    obtain ⟨heq, hagrees⟩ := ih hne'
    rw [run] at hne
    rw [run, run, heq]
    cases hrun : I.run f m n with
    | error e => exact ⟨rfl, nofun⟩
    | ok status =>
      rw [hrun] at hne heq
      cases status with
      | halted reason c => exact ⟨rfl, nofun⟩
      | running c =>
        have henv := hagrees c heq
        exact ⟨step_fold h hg hf henv hne, fun c' hc' => step_agrees hnd' henv hc'⟩

end Interp

namespace Func

/-- Folding is sound.  A function that passes validation and whose integer types have at least two
bits is folded without failing (within the limits on the size of integers, the result is the same).
This is so whatever function `H` hashes bytes.  Under every interpretation with that function, from
every machine state and after every number of steps, the folded function has come as far as the
original, at the same position with the same environment and machine state, unless the original has
read a variable without a value. -/
theorem run_fold_eq {H : Bytes → Bytes} {f : Func} (hvalid : f.validate.errors = [])
    (hwide : f.Wide) :
    ∃ g, f.fold H = .ok g ∧ (∀ g', f.foldWithin H = .ok g' → g' = g) ∧
      ∀ (I : Interp H) (m : I.State) (n : Nat),
        (∀ v, I.run f m n ≠ .error (.unassigned v)) → I.run g m n = I.run f m n := by
  obtain ⟨g, hfold, hg⟩ := fold_eq_ok hwide
  refine ⟨g, hfold, fun g' hg' => ?_, fun I m n hne => ?_⟩
  · exact Except.ok.inj ((fold_of_foldWithin hg').symm.trans hfold)
  · have hwf : f.WellFormed := by
      rwa [validate, Report.errors_eq_nil_iff, clean_diagnostics_iff] at hvalid
    have hsets : ∀ v l, g.Sets v l → l.Wide := by
      rintro v l ⟨e, he, hset⟩
      exact (hg e.2 (List.mem_map_of_mem he) _ _ hset).value l rfl
    exact (Interp.run_fold (foldsTo_of_fold hfold) hwf.assignedOnce hsets hwide m n hne).1

/-- A loop that counts down from 44, which is 200 + 100 in eight bits, to 40; then 200 is hashed and
divided by zero. -/
def countdown : Func where
  id := 0
  name := "countdown"
  params := []
  returns := []
  entry := 7
  blocks := ⟨[
    (9, { id := 9, instructions :=
      [.phi 2 [⟨.var 1, 7⟩, ⟨.var 3, 9⟩],
       .set 3 (.binary (.sub true) (.var 2) (.number (.uint 8) 1)),
       .set 4 (.binary .ugt (.var 3) (.number (.uint 8) 40)),
       .terminate (.branchCond (.var 4) 9 8)] }),
    (7, { id := 7, instructions :=
      [.set 0 (.number (.uint 8) 200),
       .set 1 (.binary (.add false) (.var 0) (.number (.uint 8) 100)),
       .terminate (.branch 9)] }),
    (8, { id := 8, instructions :=
      [.set 6 (.keccak256 [.var 0]),
       .set 5 (.binary .udiv (.var 0) (.number (.uint 8) 0)),
       .terminate (.ret [])] })], by decide⟩
  table := ⟨#[⟨.uint 8, none⟩, ⟨.uint 8, none⟩, ⟨.uint 8, none⟩, ⟨.uint 8, none⟩, ⟨.bool, none⟩,
    ⟨.uint 8, none⟩, ⟨.byteArray 32, none⟩]⟩

theorem countdown_wide : countdown.Wide := by
  have hlit : ∀ n, (Literal.number (.uint 8) n).Wide := by
    intro n i hi
    rw [← Option.some.inj hi]
    decide
  have hbinary : ∀ op v n, (Expr.binary op (.var v) (.number (.uint 8) n)).Wide := by
    refine fun op v n => ⟨by simp, fun l hl => ?_, by simp⟩
    obtain rfl : l = .number (.uint 8) n := by simpa [Expr.operands] using hl
    exact hlit n
  intro b hb r e he
  simp only [countdown, IdMap.values, List.map_cons, List.map_nil, List.mem_cons,
    List.not_mem_nil, or_false] at hb
  rcases hb with rfl | rfl | rfl <;>
    simp only [List.mem_cons, reduceCtorEq, Instr.set.injEq, List.not_mem_nil, or_false,
      false_or] at he
  · rcases he with ⟨-, rfl⟩ | ⟨-, rfl⟩ <;> exact hbinary _ _ _
  · rcases he with ⟨-, rfl⟩ | ⟨-, rfl⟩
    · exact ⟨fun l hl => Expr.literal.inj hl ▸ hlit 200, by simp [Expr.operands], by simp⟩
    · exact hbinary _ _ _
  · rcases he with ⟨-, rfl⟩ | ⟨-, rfl⟩
    · exact ⟨by simp, by simp [Expr.operands], by simp⟩
    · exact hbinary _ _ _

theorem run_fold_eq_countdown :
    countdown.validate.errors = [] ∧ countdown.Wide ∧ ∃ g c,
      countdown.fold Keccak.digest = .ok g ∧
      g.instr? 7 1 = some (.set 1 (.number (.uint 8) 44)) ∧
      g.instr? 8 0 = some (.set 6 (.bytes (.byteArray 32) (Keccak.digest [200]))) ∧
      (Interp.plain Keccak.digest).run g [] 17 = .ok (.halted () c) ∧ c.block = 8 ∧
      c.env 3 = some (.const (.word ⟨false, 8⟩ 40)) ∧
      c.env 6 = some (.bytes (Keccak.digest [200])) := by
  have hvalid : countdown.validate.errors = [] := by
    rw [errors_validate rfl]
    rfl
  obtain ⟨g, hfold, -, hrun⟩ := run_fold_eq (H := Keccak.digest) hvalid countdown_wide
  obtain ⟨c, hc, hblock, henv⟩ : ∃ c,
      (Interp.plain Keccak.digest).run countdown [] 17 = .ok (.halted () c) ∧ c.block = 8 ∧
        c.env 3 = some (.const (.word ⟨false, 8⟩ 40)) ∧
        c.env 6 = some (.bytes (Keccak.digest [200])) := ⟨_, rfl, rfl, rfl, rfl⟩
  have hsum : ((countdown.fold Keccak.digest).toOption.bind fun g => g.instr? 7 1) =
      some (.set 1 (.number (.uint 8) 44)) := rfl
  have hhash : ((countdown.fold Keccak.digest).toOption.bind fun g => g.instr? 8 0) =
      some (.set 6 (.bytes (.byteArray 32) (Keccak.digest [200]))) := rfl
  rw [hfold] at hsum hhash
  refine ⟨hvalid, countdown_wide, g, c, hfold, hsum, hhash, ?_, hblock, henv⟩
  rw [hrun (.plain Keccak.digest) [] 17 (by simp [hc]), hc]

end Func

end ContractIR
