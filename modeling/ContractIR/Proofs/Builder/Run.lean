import ContractIR.Builder
import Mathlib.Data.List.Induction

/-!
# ContractIR.Proofs.Builder.Run — sequences of calls on a builder

A session is a builder together with a record of the calls made on it so far and of how each of them
ended, well or badly.  `Builder.effect` says once what a call can do to the builder; whatever holds
along a session is derived from it (`Builder.session_induction`).
-/

namespace ContractIR.Builder

/-! ### Calls -/

/-- A call on a builder. -/
inductive Call
  | createBlock (name : Option String)
  | switchTo (id : BlockId)
  | emit (i : Instr)
  | setNew (e : Expr) (type : Ty) (name : Option String)
  | phi (type : Ty) (inputs : List PhiInput) (name : Option String)
  | declare (type : Ty) (name : Option String)
  | declareSource (type : SourceTy) (name : Option String)
  | typeOf (id : VarId)

/-- What a call returns. -/
inductive Answer
  | done
  | block (id : BlockId)
  | var (id : VarId)
  | type (t : Ty)

/-- The step that a call takes. -/
def Call.perform : Call → BuildM Answer
  | createBlock name => do return .block (← Builder.createBlock name)
  | switchTo id => do
    Builder.switchTo id
    return .done
  | emit i => do
    Builder.emit i
    return .done
  | setNew e type name => do return .var (← Builder.setNew e type name)
  | phi type inputs name => do return .var (← Builder.phi type inputs name)
  | declare type name => do return .var (← Builder.declare type name)
  | declareSource type name => do return .var (← Builder.declareSource type name)
  | typeOf id => do return .type (← lift ((← get).typeOf id))

/-- A call and how it ended. -/
structure Event where
  call : Call
  outcome : Except Diagnostic Answer

/-- A builder with a record of the calls that were made on it, the first one first. -/
structure Session where
  builder : Builder
  events : List Event

/-- Makes one more call. -/
def Session.call (s : Session) (c : Call) : Session where
  builder := (step c.perform s.builder).2
  events := s.events ++ [⟨c, (step c.perform s.builder).1⟩]

/-- The session of the given calls. -/
def session (b : Builder) (calls : List Call) : Session := calls.foldl Session.call ⟨b, []⟩

@[simp] theorem session_nil (b : Builder) : b.session [] = ⟨b, []⟩ := rfl

theorem session_concat (b : Builder) (calls : List Call) (c : Call) :
    b.session (calls ++ [c]) = (b.session calls).call c := by
  simp [session]

/-! ### What a call can do -/

/-- The builder with one more variable. -/
def withVar (b : Builder) (type : Ty) (name : Option String) : Builder :=
  { b with table := (b.table.declare type name).2 }

/-- The builder with one more block. -/
def withBlock (b : Builder) (name : Option String) : Builder :=
  { b with blocks := b.blocks.insert b.blocks.size { id := b.blocks.size, name := name } }

/-- The builder with one more instruction in the block under `id`. -/
def withInstr (b : Builder) (id : BlockId) (block : Block) (i : Instr) : Builder :=
  { b with blocks := b.blocks.insert id (block.push i) }

/-- The instruction may be added to the selected block, which is the given one. -/
structure Accepts (b : Builder) (id : BlockId) (block : Block) (i : Instr) : Prop where
  get? : b.blocks.get? id = some block
  unterminated : block.isTerminated = false
  phi : i.isPhi = true → ∀ last, block.instructions.getLast? = some last → last.isPhi = true

/-- The call declares a variable and adds the instruction `make` of it. -/
inductive Call.Binds : Call → Ty → Option String → (VarId → Instr) → Prop
  | setNew {e : Expr} {type : Ty} {name : Option String} :
      Binds (.setNew e type name) type name (.set · e)
  | phi {type : Ty} {inputs : List PhiInput} {name : Option String} :
      Binds (.phi type inputs name) type name (.phi · inputs)

/-- The variable that the call declares for an instruction of its own. -/
def Call.newVar? : Call → Option Variable
  | setNew _ type name | phi type _ name => some ⟨type, name⟩
  | _ => none

theorem Call.Binds.newVar? {c : Call} {type : Ty} {name : Option String}
    {make : VarId → Instr} (h : c.Binds type name make) : c.newVar? = some ⟨type, name⟩ := by
  cases h <;> rfl

theorem Call.Binds.definitions {c : Call} {type : Ty} {name : Option String}
    {make : VarId → Instr} (h : c.Binds type name make) (x : VarId) :
    (make x).definitions = [x] := by
  cases h <;> rfl

/-- Whether the call declares a variable and does nothing else. -/
def Call.declares : Call → Bool
  | declare _ _ | declareSource _ _ => true
  | _ => false

/-- Whether the call creates a block. -/
def Call.createsBlock : Call → Bool
  | createBlock _ => true
  | _ => false

/-- What an event does to a builder.  A call that is to bind a new variable and fails leaves the
variable behind; any other call that fails leaves nothing behind. -/
inductive Effect (b : Builder) : Event → Builder → Prop
  | failed {c : Call} {d : Diagnostic} : c.createsBlock = false → c.newVar? = none →
      Effect b ⟨c, .error d⟩ b
  | answered {id : VarId} {t : Ty} : Effect b ⟨.typeOf id, .ok (.type t)⟩ b
  | created {name : Option String} :
      Effect b ⟨.createBlock name, .ok (.block b.blocks.size)⟩ (b.withBlock name)
  | selected {id : BlockId} : Effect b ⟨.switchTo id, .ok .done⟩ { b with current := some id }
  | declared {c : Call} {type : Ty} {name : Option String} : c.declares = true →
      Effect b ⟨c, .ok (.var b.table.size)⟩ (b.withVar type name)
  | emitted {i : Instr} {id : BlockId} {block : Block} : b.Accepts id block i →
      Effect b ⟨.emit i, .ok .done⟩ (b.withInstr id block i)
  | bound {c : Call} {type : Ty} {name : Option String} {make : VarId → Instr} {id : BlockId}
      {block : Block} : c.Binds type name make → b.Accepts id block (make b.table.size) →
      Effect b ⟨c, .ok (.var b.table.size)⟩
        ((b.withVar type name).withInstr id block (make b.table.size))
  | unbound {c : Call} {type : Ty} {name : Option String} {make : VarId → Instr}
      {d : Diagnostic} : c.Binds type name make → Effect b ⟨c, .error d⟩ (b.withVar type name)

theorem accepts_of_refusal? {b : Builder} {id : BlockId} {block : Block} {i : Instr}
    (hget : b.blocks.get? id = some block) (h : b.refusal? block i = none) :
    b.Accepts id block i := by
  unfold refusal? at h
  dsimp only at h
  cases hopen : block.isTerminated with
  | true => simp [hopen] at h
  | false =>
    refine ⟨hget, hopen, fun hi last hlast => ?_⟩
    cases i with
    | phi result inputs => simpa [hopen, hlast] using h
    | _ => cases hi

theorem step_bind_of_ok {α β : Type} {x : BuildM α} {f : α → BuildM β} {b b' : Builder} {a : α}
    (h : step x b = (.ok a, b')) : step (x >>= f) b = step (f a) b' := by
  rw [step_bind, h]

theorem step_bind_of_error {α β : Type} {x : BuildM α} {f : α → BuildM β} {b b' : Builder}
    {d : Diagnostic} (h : step x b = (.error d, b')) : step (x >>= f) b = (.error d, b') := by
  rw [step_bind, h]

/-- An instruction is refused, or added to the selected block. -/
theorem step_emit (i : Instr) (b : Builder) :
    (∃ d, step (emit i) b = (.error d, b)) ∨
      ∃ id block, b.Accepts id block i ∧ step (emit i) b = (.ok (), b.withInstr id block i) := by
  have hget : step get b = (.ok b, b) := rfl
  rw [emit, step_bind_of_ok hget]
  cases hsel : b.selected? with
  | none => exact .inl ⟨_, rfl⟩
  | some p =>
    obtain ⟨id, block⟩ := p
    have hget : b.blocks.get? id = some block := by
      unfold selected? at hsel
      obtain ⟨id', -, hmap⟩ := Option.bind_eq_some_iff.1 hsel
      obtain ⟨block', hget, heq⟩ := Option.map_eq_some_iff.1 hmap
      obtain ⟨rfl, rfl⟩ := Prod.mk.inj heq
      exact hget
    cases href : b.refusal? block i with
    | some d => exact .inl ⟨d, by simp [href]⟩
    | none =>
      refine .inr ⟨id, block, accepts_of_refusal? hget href, ?_⟩
      simp [href]
      rfl

/-- Binding a new variable declares it first, whatever becomes of the instruction. -/
theorem effect_of_binds {c : Call} {type : Ty} {name : Option String} {make : VarId → Instr}
    (hc : c.Binds type name make) (b : Builder)
    (hperform : c.perform = do
      let result ← declare type name
      emit (make result)
      return .var result) :
    Effect b ⟨c, (step c.perform b).1⟩ (step c.perform b).2 := by
  rw [hperform, step_bind_of_ok (step_declare type name b)]
  rcases step_emit (make b.table.size) (b.withVar type name) with ⟨d, hd⟩ | ⟨id, block, ha, hok⟩
  · have hstep := step_bind_of_error (f := fun _ => pure (Answer.var b.table.size)) hd
    exact hstep ▸ .unbound hc
  · have hstep := step_bind_of_ok (f := fun _ => pure (Answer.var b.table.size)) hok
    exact hstep ▸ .bound hc ⟨ha.get?, ha.unterminated, ha.phi⟩

/-- What a call can do to a builder. -/
theorem effect (b : Builder) (c : Call) :
    Effect b ⟨c, (step c.perform b).1⟩ (step c.perform b).2 := by
  cases c with
  | createBlock name => exact .created
  | declare type name => exact .declared rfl
  | setNew e type name =>
    refine effect_of_binds .setNew b ?_
    simp [Call.perform, Builder.setNew]
  | phi type inputs name =>
    refine effect_of_binds .phi b ?_
    simp [Call.perform, Builder.phi]
  | switchTo id =>
    have hstep := step_switchTo id b
    by_cases hid : b.blocks.contains id = true
    · rw [if_pos hid] at hstep
      rw [Call.perform, step_bind_of_ok hstep]
      exact .selected
    · rw [if_neg hid] at hstep
      rw [Call.perform, step_bind_of_error hstep]
      exact .failed rfl rfl
  | emit i =>
    rcases step_emit i b with ⟨d, hd⟩ | ⟨id, block, ha, hok⟩
    · rw [Call.perform, step_bind_of_error hd]
      exact .failed rfl rfl
    · rw [Call.perform, step_bind_of_ok hok]
      exact .emitted ha
  | declareSource type name =>
    have hget : step get b = (.ok b, b) := rfl
    cases hlower : type.lower b.target (some b.location) with
    | error d =>
      have hfail : step (Builder.declareSource type name) b = (.error d, b) := by
        rw [Builder.declareSource, step_bind_of_ok hget, hlower]
        exact step_bind_of_error (step_lift _ b)
      rw [Call.perform, step_bind_of_error hfail]
      exact .failed rfl rfl
    | ok t =>
      have hok : step (Builder.declareSource type name) b =
          (.ok b.table.size, b.withVar t name) := by
        rw [Builder.declareSource, step_bind_of_ok hget, hlower, step_bind_of_ok (step_lift _ b)]
        rfl
      rw [Call.perform, step_bind_of_ok hok]
      exact .declared rfl
  | typeOf id =>
    have hget : step get b = (.ok b, b) := rfl
    cases htype : b.typeOf id with
    | error d =>
      rw [Call.perform, step_bind_of_ok hget, htype, step_bind_of_error (step_lift _ b)]
      exact .failed rfl rfl
    | ok t =>
      rw [Call.perform, step_bind_of_ok hget, htype, step_bind_of_ok (step_lift _ b)]
      exact .answered

/-- What holds at first and is kept by every effect holds after every session. -/
theorem session_induction {P : Session → Prop} {b : Builder} (start : P ⟨b, []⟩)
    (keep : ∀ s e b', P s → Effect s.builder e b' → P ⟨b', s.events ++ [e]⟩)
    (calls : List Call) : P (b.session calls) := by
  induction calls using List.reverseRecOn with
  | nil => exact start
  | append_singleton calls c ih =>
    rw [session_concat]
    exact keep _ _ _ ih (effect _ c)

end ContractIR.Builder
