import ContractIR.Printer
import ContractIR.Proofs.Except
import ContractIR.Proofs.Validator

/-!
# ContractIR.Proofs.Printer.Sheet — the lines that a printer writes

A printer adds line after line, at an indentation that it keeps track of.
`Printer.Writes j P x out k Q` says that the piece `x`, begun `j` steps in and at a location with
`P`, adds the lines `out` and ends `k` steps in and at a location with `Q`, or that it fails as
`out` does.  With one rule for each form of a piece, the writers are shown to add what is listed
here line by line, however far in they begin and wherever the printer stood before.

* `Printer.writes_block`, `writes_table`, `writes_func`, `writes_module`: one writer each.
* `Block.text_eq`, `Func.text_eq`, `Module.text_eq`: the text is the lines, joined.
-/

namespace ContractIR

/-! ### Lines by themselves -/

/-- The line as it stands at an indentation; an empty line stays empty. -/
def Printer.shift (indent : Nat) (text : String) : String :=
  if text = "" then "" else margin indent ++ text

namespace Block

/-- The line at the head of the block. -/
def label (b : Block) : String := blockText b.id ++ ((b.name.map fun n => " " ++ n).getD "") ++ ":"

/-- The texts of the instructions; a failure is reported as a part of the given function. -/
def body (function : Option String) (b : Block) : Except Diagnostic (List String) :=
  b.instructions.zipIdx.mapM fun e => e.1.text ⟨function, some b.id, some e.2⟩

/-- The lines of the block as a part of the given function. -/
def lines (function : Option String) (b : Block) : Except Diagnostic (List String) := do
  return b.label :: (← b.body function).map (Printer.shift 1)

end Block

/-- The line of a variable. -/
def Variable.line (id : VarId) (v : Variable) : Except Diagnostic String := do
  return varText id ++ ": " ++ (← v.type.text) ++ ((v.name.map fun n => " " ++ n).getD "")

/-- The lines of the table; there are none if it is empty. -/
def VarTable.lines (t : VarTable) : Except Diagnostic (List String) :=
  if 0 < t.size then do
    let body ← t.entries.mapM fun e => e.2.line e.1
    return "vars \x7b" :: body.map (Printer.shift 1) ++ ["\x7d"]
  else .ok []

namespace Func

/-- The line at the head of the function. -/
def signature (f : Func) : Except Diagnostic String := do
  let params ← Ty.texts f.params
  let returns ← Ty.texts f.returns
  return funcText f.id ++ " " ++ f.name ++ "(" ++ ", ".intercalate params ++ ") -> (" ++
    ", ".intercalate returns ++ ") \x7b"

/-- The blocks in the order in which they are printed. -/
def printed (f : Func) : List Block := f.printOrder.filterMap f.blocks.get?

/-- The lines of the function. -/
def lines (f : Func) : Except Diagnostic (List String) := do
  let signature ← f.signature
  let table ← f.table.lines
  let blocks ← f.printed.mapM (Block.lines (some f.name))
  return signature :: (table ++ blocks.flatten).map (Printer.shift 1) ++ ["\x7d"]

end Func

namespace Module

/-- The line at the head of the module. -/
def header (m : Module) : String := "module " ++ m.name ++ " (" ++ m.target.name ++ ") \x7b"

/-- The lines of the module. -/
def lines (m : Module) : Except Diagnostic (List String) := do
  let functions ← m.functions.values.mapM Func.lines
  return m.header :: ([""].intercalate functions).map (Printer.shift 1) ++ ["\x7d"]

end Module

namespace Printer

open Validator (Within)

theorem margin_add (m n : Nat) : margin (m + n) = margin m ++ margin n := by
  rw [margin, List.replicate_add, String.join_append]
  rfl

@[simp] theorem shift_zero (text : String) : shift 0 text = text := by
  unfold shift
  split
  next h => exact h.symm
  next => simp [margin]

theorem shift_shift (m n : Nat) (text : String) : shift m (shift n text) = shift (m + n) text := by
  by_cases h : text = ""
  · simp [shift, h]
  · simp [shift, h, margin_add, String.append_assoc]

theorem use_bind_error {α β : Type} {x : PrintM α} {p : Printer} {d : Diagnostic}
    (h : (use x p).1 = .error d) (f : α → PrintM β) : (use (x >>= f) p).1 = .error d := by
  rcases hu : use x p with ⟨r, p'⟩
  obtain rfl : r = .error d := by rw [← h, hu]
  rw [use_bind, hu]

/-! ### Pieces of printing -/

section Rules

variable {α ι : Type} {j k n : Nat} {P Q Q' R : Location → Prop} {x y : PrintM Unit}
  {out out' : Except Diagnostic (List String)}

/-- Begun `j` steps in from some indentation, at a location with `P`, the piece `x` adds the lines
`out` and ends `k` steps in, at a location with `Q`; or it fails as `out` does.  The lines are as
they would stand if that indentation were none. -/
def Writes (j : Nat) (P : Location → Prop) (x : PrintM Unit) (out : Except Diagnostic (List String))
    (k : Nat) (Q : Location → Prop) : Prop :=
  ∀ indent sheet l, P l →
    match out with
    | .ok lines => ∃ l', Q l' ∧ use x ⟨indent + j, sheet, l⟩ =
        (.ok (), ⟨indent + k, sheet ++ (lines.map (shift indent)).toArray, l'⟩)
    | .error d => (use x ⟨indent + j, sheet, l⟩).1 = .error d

/-- Lines followed by lines, unless one of them fails. -/
def followed (out out' : Except Diagnostic (List String)) : Except Diagnostic (List String) := do
  return (← out) ++ (← out')

theorem followed_nil : followed (.ok []) out = out := by cases out <;> rfl

theorem Writes.congr (h : Writes j P x out k Q) (heq : out = out') : Writes j P x out' k Q :=
  heq ▸ h

theorem Writes.weaken (h : Writes j P x out k Q) (hQ : ∀ l, Q l → Q' l) :
    Writes j P x out k Q' := by
  intro indent sheet l hl
  have h := h indent sheet l hl
  cases out with
  | error d => exact h
  | ok ls =>
    obtain ⟨l', hl', h⟩ := h
    exact ⟨l', hQ l' hl', h⟩

theorem writes_pure : Writes k P (pure ()) (.ok []) k P := by
  intro indent sheet l hl
  exact ⟨l, hl, by simp⟩

theorem Writes.seq (hx : Writes j P x out k Q) (hy : Writes k Q y out' n R) :
    Writes j P (x >>= fun _ => y) (followed out out') n R := by
  intro indent sheet l hl
  have hx := hx indent sheet l hl
  cases out with
  | error d => exact use_bind_error hx _
  | ok ls =>
    obtain ⟨l', hl', hx⟩ := hx
    have hy := hy indent (sheet ++ (ls.map (shift indent)).toArray) l' hl'
    cases out' with
    | error d =>
      show (use (x >>= fun _ => y) ⟨indent + j, sheet, l⟩).1 = .error d
      rw [use_bind, hx]
      exact hy
    | ok ls' =>
      obtain ⟨l'', hl'', hy⟩ := hy
      refine ⟨l'', hl'', ?_⟩
      rw [use_bind, hx, List.map_append, ← List.append_toArray, ← Array.append_assoc]
      exact hy

theorem writes_line (text : String) : Writes k P (line text) (.ok [shift k text]) k P := by
  intro indent sheet l hl
  refine ⟨l, hl, ?_⟩
  rw [List.map_singleton, shift_shift, ← Array.push_eq_append]
  rfl

theorem writes_indented : Writes k P indented (.ok []) (k + 1) P := by
  intro indent sheet l hl
  exact ⟨l, hl, by simp [indented, Nat.add_assoc]⟩

theorem writes_dedented : Writes (k + 1) P dedented (.ok []) k P := by
  intro indent sheet l hl
  exact ⟨l, hl, by simp [dedented]⟩

theorem writes_move {g : Location → Location} (h : ∀ l, P l → Q (g l)) :
    Writes k P (move g) (.ok []) k Q := by
  intro indent sheet l hl
  exact ⟨g l, h l hl, by simp [move]⟩

/-- A computation that needs no printer. -/
theorem writes_lift {e : Except Diagnostic α} {f : α → PrintM Unit}
    {g : α → Except Diagnostic (List String)} (h : ∀ a, Writes j P (f a) (g a) k Q) :
    Writes j P (lift e >>= f) (e >>= g) k Q := by
  cases e with
  | error d => exact fun _ _ _ _ => rfl
  | ok a => exact h a

/-- The printer may be looked at for the location where it stands. -/
theorem writes_get {l : Location} {f : Printer → PrintM Unit}
    (h : ∀ p, p.location = l → Writes j (· = l) (f p) out k Q) :
    Writes j (· = l) (get >>= f) out k Q := by
  rintro indent sheet l rfl
  have h := h ⟨indent + j, sheet, l⟩ rfl indent sheet l rfl
  cases out <;> exact h

/-- What each round writes is written by the loop. -/
theorem writes_forM {as : List ι} {x : ι → PrintM Unit} {f : ι → Except Diagnostic α}
    {lines : α → List String} (h : ∀ a ∈ as, Writes k P (x a) (do return lines (← f a)) k P) :
    Writes k P (as.forM x) (do return (← as.mapM f).flatMap lines) k P := by
  induction as with
  | nil => exact writes_pure
  | cons a as ih =>
    obtain ⟨ha, has⟩ := List.forall_mem_cons.1 h
    refine (ha.seq (ih has)).congr ?_
    rw [List.mapM_cons]
    cases f a with
    | error d => rfl
    | ok b => cases as.mapM f <;> rfl

/-- A piece that keeps the indentation writes the same lines further in. -/
theorem Writes.deeper (h : Writes 0 P x out 0 Q) (k : Nat) :
    Writes k P x (do return (← out).map (shift k)) k Q := by
  intro indent sheet l hl
  have h := h (indent + k) sheet l hl
  cases out with
  | error d => exact h
  | ok ls =>
    obtain ⟨l', hl', h⟩ := h
    refine ⟨l', hl', ?_⟩
    have hshift : shift (indent + k) = shift indent ∘ shift k :=
      funext fun s => (shift_shift indent k s).symm
    rw [List.map_map, ← hshift]
    exact h

end Rules

/-! ### Writers -/

section Writers

variable {k : Nat} {P : Location → Prop}

theorem writes_instr (place : Location) (index : Nat) (i : Instr) :
    Writes k (Within place) (writeInstr index i)
      (do return [shift k (← i.text { place with instruction := some index })])
      k (Within place) := by
  have hmove : ∀ l, Within place l → { l with instruction := some (index : Int) } =
      { place with instruction := some (index : Int) } := by
    rintro l ⟨hf, hb⟩
    rw [hf, hb]
  have hthere : ∀ l, l = { place with instruction := some (index : Int) } → Within place l := by
    rintro _ rfl
    exact ⟨rfl, rfl⟩
  refine ((writes_move hmove).seq (writes_get fun p hp => ?_)).congr followed_nil
  rw [hp]
  exact (writes_lift fun s => writes_line s).weaken hthere

/-- A block is written wherever in its function the printer stands, and the printer leaves the
block. -/
theorem writes_block (function : Option String) (b : Block) :
    Writes 0 (·.function = function) (writeBlock b) (b.lines function) 0
      (·.function = function) := by
  let place : Location := ⟨function, some b.id, none⟩
  have hbody : Writes 1 (Within place) (b.instructions.zipIdx.forM fun e => writeInstr e.2 e.1)
      (do return (← b.body function).flatMap fun s => [shift 1 s]) 1 (Within place) :=
    writes_forM fun e _ => writes_instr place e.2 e.1
  refine ((writes_move fun l hl => ⟨hl, rfl⟩).seq ((writes_line _).seq (writes_indented.seq
    (hbody.seq (writes_dedented.seq (writes_move fun l hl => hl.1)))))).congr ?_
  rw [Block.lines]
  cases b.body function with
  | error d => rfl
  | ok texts => exact congrArg Except.ok (by simp [Block.label, ← List.map_eq_flatMap])

theorem writes_variable (id : VarId) (v : Variable) :
    Writes k P (writeVariable id v) (do return [shift k (← v.line id)]) k P := by
  refine (writes_lift fun t => writes_line _).congr ?_
  rw [Variable.line]
  cases v.type.text <;> rfl

theorem writes_table (t : VarTable) : Writes 0 P (writeTable t) t.lines 0 P := by
  have hbody : Writes 1 P (t.entries.forM fun e => writeVariable e.1 e.2)
      (do return (← t.entries.mapM fun e => e.2.line e.1).flatMap fun s => [shift 1 s]) 1 P :=
    writes_forM fun e _ => writes_variable e.1 e.2
  unfold writeTable VarTable.lines
  split
  · refine ((writes_line _).seq (writes_indented.seq (hbody.seq
      (writes_dedented.seq (writes_line _))))).congr ?_
    cases t.entries.mapM fun e => e.2.line e.1 with
    | error d => rfl
    | ok texts => exact congrArg Except.ok (by simp [← List.map_eq_flatMap])
  · exact writes_pure

/-- A function is written wherever the printer stands. -/
theorem writes_func (f : Func) :
    Writes 0 (fun _ => True) (writeFunc f) f.lines 0 (fun _ => True) := by
  have hblocks : Writes 1 (·.function = some f.name) (f.printed.forM writeBlock)
      (do return (← f.printed.mapM (Block.lines (some f.name))).flatMap (List.map (shift 1))) 1
      (·.function = some f.name) :=
    writes_forM fun b _ => (writes_block (some f.name) b).deeper 1
  have henter : Writes 0 (fun _ => True) (move fun _ => { function := some f.name }) (.ok []) 0
      (·.function = some f.name) := writes_move fun _ _ => rfl
  refine (henter.seq (writes_lift fun params => writes_lift fun returns =>
    (writes_line _).seq (writes_indented.seq (((writes_table f.table).deeper 1).seq
      (hblocks.seq (writes_dedented.seq (writes_line _)))))) |>.weaken fun _ _ => trivial).congr ?_
  rw [followed_nil, Func.lines, Func.signature]
  cases Ty.texts f.params with
  | error d => rfl
  | ok params =>
    cases Ty.texts f.returns with
    | error d => rfl
    | ok returns =>
      cases f.table.lines with
      | error d => rfl
      | ok table =>
        cases f.printed.mapM (Block.lines (some f.name)) with
        | error d => rfl
        | ok blocks => exact congrArg Except.ok (by simp [List.map_flatten, List.flatMap])

/-- Functions are written with an empty line between them. -/
theorem writes_funcs (fs : List Func) :
    Writes 0 (fun _ => True) (writeFuncs fs) (do return [""].intercalate (← fs.mapM Func.lines)) 0
      (fun _ => True) := by
  induction fs with
  | nil => exact writes_pure
  | cons f fs ih =>
    cases fs with
    | nil =>
      refine (writes_func f).congr ?_
      rw [List.mapM_cons]
      cases f.lines with
      | error d => rfl
      | ok ls => exact congrArg Except.ok (by simp)
    | cons g gs =>
      refine ((writes_func f).seq ((writes_line "").seq ih)).congr ?_
      conv_rhs => rw [List.mapM_cons]
      cases f.lines with
      | error d => rfl
      | ok ls =>
        rcases hrest : (g :: gs).mapM Func.lines with d | lss
        · rfl
        · obtain ⟨ls', lss', -, -, rfl⟩ := List.forall₂_cons_left_iff.1 (mapM_eq_ok_iff.1 hrest)
          exact congrArg Except.ok (by simp)

theorem writes_module (m : Module) :
    Writes 0 (fun _ => True) (writeModule m) m.lines 0 (fun _ => True) := by
  refine ((writes_line _).seq (writes_indented.seq (((writes_funcs _).deeper 1).seq
    (writes_dedented.seq (writes_line _))))).congr ?_
  rw [Module.lines]
  cases m.functions.values.mapM Func.lines with
  | error d => rfl
  | ok functions => exact congrArg Except.ok (by simp [Module.header])

end Writers

/-! ### Texts -/

/-- The text that a piece leaves on a clean sheet is its lines, joined. -/
theorem fresh_render {P Q : Location → Prop} {x : PrintM Unit}
    {out : Except Diagnostic (List String)} (h : Writes 0 P x out 0 Q) (hP : P {}) :
    fresh (render x) = out.map "\n".intercalate := by
  have h := h 0 #[] {} hP
  show (use x {}).1.map (fun _ => "\n".intercalate (use x {}).2.lines.toList) = _
  cases out with
  | error d =>
    have h : (use x {}).1 = .error d := h
    rw [h]
    rfl
  | ok ls =>
    obtain ⟨l, -, h⟩ := h
    have h : use x {} = _ := h
    have hlines : ls.map (shift 0) = ls := List.map_id'' shift_zero ls
    rw [h]
    exact congrArg Except.ok (by simp [hlines])

end Printer

theorem Block.text_eq (b : Block) : b.text = (b.lines none).map "\n".intercalate :=
  Printer.fresh_render (Printer.writes_block none b) rfl

theorem Func.text_eq (f : Func) : f.text = f.lines.map "\n".intercalate :=
  Printer.fresh_render (Printer.writes_func f) trivial

theorem Module.text_eq (m : Module) : m.text = m.lines.map "\n".intercalate :=
  Printer.fresh_render (Printer.writes_module m) trivial

end ContractIR
