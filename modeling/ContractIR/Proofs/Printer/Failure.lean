import ContractIR.Proofs.Flow.Order
import ContractIR.Proofs.Printer.Sheet
import ContractIR.Proofs.Text.Printable

/-!
# ContractIR.Proofs.Printer.Failure — where printing fails

A function that is built from known kinds fails to print at its misprints, the places where a
buffer has a type that is no pointer.  `Printer.FailsAt x places` says that the computation `x`
fails at the first of the places and succeeds if there are none; the places of a sequence are those
of its parts, in order.  So the failure of a function is that of its first misprint, and the failure
of a module is that of its first function that fails.

* `Printer.failsAt_func`: a function fails at its first misprint.
* `Module.text_eq_error_iff`: a module fails as the first of its functions that does.
* `printing_fails_at_first_misprint`: both together.
-/

namespace ContractIR

open Text

/-! ### Misprints -/

/-- Where in the block a buffer has a type that is no pointer. -/
def Block.misprints (function : Option String) (b : Block) : List Location :=
  b.instructions.zipIdx.flatMap fun e =>
    if e.1.misallocates then [⟨function, some b.id, some e.2⟩] else []

/-- The misprints of all blocks, in the order in which they are printed. -/
def Func.misprints (f : Func) : List Location :=
  f.printed.flatMap (Block.misprints (some f.name))

theorem Instr.misallocates_iff {i : Instr} :
    i.misallocates = true ↔ ∃ x type size contents,
      i = .set x (.allocDynamicBytes type size contents) ∧ ∀ pointee, type ≠ .ptr pointee := by
  constructor
  · intro h
    cases i with
    | set x e =>
      cases e with
      | allocDynamicBytes type size contents =>
        refine ⟨x, type, size, contents, rfl, ?_⟩
        rintro pointee rfl
        cases h
      | _ => cases h
    | _ => cases h
  · rintro ⟨x, type, size, contents, rfl, h⟩
    cases type with
    | ptr pointee => exact absurd rfl (h pointee)
    | _ => rfl

theorem Func.printed_perm (f : Func) : f.printed.Perm f.blocks.values := by
  rw [printed, ← f.blocks.filterMap_get?_keys]
  exact f.printOrder_perm.filterMap _

theorem Block.misprints_eq_nil_iff {function : Option String} {b : Block} :
    b.misprints function = [] ↔ ∀ i ∈ b.instructions, i.misallocates = false := by
  conv_rhs => rw [← List.zipIdx_map_fst 0 b.instructions, List.forall_mem_map]
  simp [misprints]

/-- Printing visits every block, so that a misprint in any of them is found. -/
theorem Func.misprints_ne_nil_iff {f : Func} : f.misprints ≠ [] ↔
    ∃ b ∈ f.blocks.values, ∃ x type size contents,
      .set x (.allocDynamicBytes type size contents) ∈ b.instructions ∧
        ∀ pointee, type ≠ .ptr pointee := by
  have hnil : f.misprints = [] ↔
      ∀ b ∈ f.blocks.values, ∀ i ∈ b.instructions, i.misallocates = false := by
    rw [misprints, List.flatMap_eq_nil_iff]
    simp only [f.printed_perm.mem_iff, Block.misprints_eq_nil_iff]
  rw [ne_eq, hnil]
  push Not
  simp only [Bool.not_eq_false, Instr.misallocates_iff]
  constructor
  · rintro ⟨b, hb, _, hi, x, type, size, contents, rfl, hptr⟩
    exact ⟨b, hb, x, type, size, contents, hi, hptr⟩
  · rintro ⟨b, hb, x, type, size, contents, hi, hptr⟩
    exact ⟨b, hb, _, hi, x, type, size, contents, rfl, hptr⟩

/-! ### Heads and tables -/

theorem Text.IsLine.shift_eq {s : String} (h : IsLine s) : Printer.shift 1 s = "  " ++ s :=
  if_neg h.2

theorem Text.IsLine.shift {s : String} (h : IsLine s) : IsLine (Printer.shift 1 s) := by
  rw [h.shift_eq]
  simp +decide [IsLine, h.1]

theorem Func.gives_signature (f : Func) :
    Gives (Ty.allKnown f.params = true ∧ Ty.allKnown f.returns = true)
      (fun s => OneLine f.name → IsLine s) f.signature := by
  refine ((gives_tys f.params).mono And.left).bind fun params hparams => ?_
  refine ((gives_tys f.returns).mono And.right).bind fun returns hreturns => .ok fun hname => ?_
  have hparams := oneLine_intercalate (w := ", ") (by decide) hparams
  have hreturns := oneLine_intercalate (w := ", ") (by decide) hreturns
  simp +decide [IsLine, hname, hparams, hreturns]

/-- The name, if there is one, is a single line. -/
def Text.OneLineName (name : Option String) : Prop := ∀ n ∈ name, OneLine n

theorem Text.OneLineName.oneLine {name : Option String} (h : OneLineName name) :
    OneLine ((name.map fun n => " " ++ n).getD "") := by
  cases name with
  | none => decide
  | some n => simp +decide [h n rfl]

theorem Variable.gives_line (id : VarId) (v : Variable) :
    Gives (v.type.isKnown = true) (fun s => OneLineName v.name → IsLine s) (v.line id) := by
  refine (gives_ty v.type).bind fun t ht => .ok fun hname => ?_
  simp +decide [IsLine, ht, hname.oneLine]

theorem VarTable.mem_vars_of_mem_entries {t : VarTable} {e : VarId × Variable}
    (h : e ∈ t.entries) : e.2 ∈ t.vars := by
  obtain ⟨p, hp, rfl⟩ := List.mem_map.1 h
  exact Array.mem_toList_iff.1 (List.fst_mem_of_mem_zipIdx hp)

theorem VarTable.gives_lines (t : VarTable) :
    Gives (t.vars.all (·.type.isKnown) = true)
      (fun ls => (∀ v ∈ t.vars, OneLineName v.name) → ∀ s ∈ ls, IsLine s) t.lines := by
  have hbody : ∀ e ∈ t.entries, Gives (t.vars.all (·.type.isKnown) = true)
      (fun s => (∀ v ∈ t.vars, OneLineName v.name) → IsLine s) (e.2.line e.1) := by
    intro e he
    have hmem := mem_vars_of_mem_entries he
    exact ((e.2.gives_line e.1).mono fun hknown => Array.all_eq_true'.1 hknown e.2 hmem).imp
      fun s hs hnames => hs (hnames e.2 hmem)
  unfold lines
  split
  · refine (Gives.mapM hbody).bind fun texts htexts => .ok fun hnames => ?_
    have hvars : ∀ s ∈ texts.map (Printer.shift 1), IsLine s :=
      List.forall_mem_map.2 fun s hs => (htexts s hs hnames).shift
    rw [List.cons_append, List.forall_mem_cons, List.forall_mem_append, List.forall_mem_singleton]
    exact ⟨by simp +decide [IsLine], hvars, by simp +decide [IsLine]⟩
  · exact .ok (by simp)

namespace Printer

/-! ### The first failure -/

section FailsAt

variable {α β : Type} {x : Except Diagnostic α} {f : α → Except Diagnostic β}
  {places places' : List Location}

/-- The computation fails at the first of the places, and succeeds if there are none. -/
def FailsAt (x : Except Diagnostic α) : List Location → Prop
  | [] => ∃ a, x = .ok a
  | place :: _ => ∃ type, x = .error (Expr.allocFailure type place)

theorem FailsAt.bind (hx : FailsAt x places) (hf : ∀ a, FailsAt (f a) places') :
    FailsAt (x >>= f) (places ++ places') := by
  cases places with
  | nil =>
    obtain ⟨a, rfl⟩ := hx
    exact hf a
  | cons place places =>
    obtain ⟨type, rfl⟩ := hx
    exact ⟨type, rfl⟩

theorem FailsAt.map (hx : FailsAt x places) (g : α → β) : FailsAt (x.map g) places := by
  cases places with
  | nil =>
    obtain ⟨a, rfl⟩ := hx
    exact ⟨g a, rfl⟩
  | cons place places =>
    obtain ⟨type, rfl⟩ := hx
    exact ⟨type, rfl⟩

/-- The places of a sequence are those of its parts, in order. -/
theorem failsAt_mapM {as : List α} {places : α → List Location}
    (h : ∀ a ∈ as, FailsAt (f a) (places a)) : FailsAt (as.mapM f) (as.flatMap places) := by
  induction as with
  | nil => exact ⟨[], rfl⟩
  | cons a as ih =>
    obtain ⟨ha, has⟩ := List.forall_mem_cons.1 h
    rw [List.mapM_cons, List.flatMap_cons]
    refine ha.bind fun b => ?_
    rw [← List.append_nil (as.flatMap places)]
    exact (ih has).bind fun bs => ⟨_, rfl⟩

/-- Something fails exactly if there is a place, and then at the first one. -/
theorem FailsAt.exists_error_iff (h : FailsAt x places) :
    (∃ d, x = .error d) ↔ places ≠ [] := by
  cases places with
  | nil =>
    obtain ⟨a, rfl⟩ := h
    simp
  | cons place places =>
    obtain ⟨type, rfl⟩ := h
    simp

theorem FailsAt.error (h : FailsAt x places) {d : Diagnostic} (hd : x = .error d) :
    d.code = IRFault.unsupportedPrint.code ∧ d.location = places.head? := by
  cases places with
  | nil =>
    obtain ⟨a, rfl⟩ := h
    cases hd
  | cons place places =>
    obtain ⟨type, rfl⟩ := h
    cases hd
    exact ⟨rfl, rfl⟩

end FailsAt

/-! ### Functions -/

theorem failsAt_instr {i : Instr} (hknown : i.isKnown = true) (place : Location) :
    FailsAt (i.text place) (if i.misallocates then [place] else []) := by
  cases hi : i.misallocates with
  | false => exact (i.gives_text place).succeeds ⟨hknown, hi⟩
  | true => exact Instr.text_of_misallocates hknown hi place

theorem failsAt_block {b : Block} (hknown : b.isKnown = true) (function : Option String) :
    FailsAt (b.lines function) (b.misprints function) := by
  have hbody : FailsAt (b.body function) (b.misprints function) := by
    refine failsAt_mapM fun e he => failsAt_instr ?_ _
    exact List.all_eq_true.1 hknown e.1 (List.fst_mem_of_mem_zipIdx he)
  exact hbody.map _

/-- A function of known kinds fails at its first misprint. -/
theorem failsAt_func {f : Func} (hknown : f.isKnown = true) : FailsAt f.text f.misprints := by
  simp only [Func.isKnown, Bool.and_eq_true] at hknown
  obtain ⟨⟨⟨hparams, hreturns⟩, hvars⟩, hblocks⟩ := hknown
  have hsignature : FailsAt f.signature [] := f.gives_signature.succeeds ⟨hparams, hreturns⟩
  have htable : FailsAt f.table.lines [] := f.table.gives_lines.succeeds hvars
  have hblocks : FailsAt (f.printed.mapM (Block.lines (some f.name))) f.misprints := by
    refine failsAt_mapM fun b hb => failsAt_block ?_ _
    exact List.all_eq_true.1 hblocks b (f.printed_perm.mem_iff.1 hb)
  have hlines : FailsAt f.lines ([] ++ ([] ++ (f.misprints ++ []))) :=
    hsignature.bind fun _ => htable.bind fun _ => hblocks.bind fun _ => ⟨_, rfl⟩
  rw [List.append_nil] at hlines
  rw [Func.text_eq]
  exact hlines.map _

end Printer

/-! ### Modules -/

theorem Func.text_eq_error_iff {f : Func} {d : Diagnostic} :
    f.text = .error d ↔ f.lines = .error d := by
  rw [text_eq, map_eq_error_iff]

theorem Func.exists_text_iff {f : Func} : (∃ s, f.text = .ok s) ↔ ∃ ls, f.lines = .ok ls := by
  simp [text_eq]

theorem Module.text_eq_error_iff {m : Module} {d : Diagnostic} :
    m.text = .error d ↔ m.functions.values.mapM Func.lines = .error d := by
  rw [text_eq, map_eq_error_iff]
  exact map_eq_error_iff

/-- A function of known kinds fails to print exactly if one of its blocks, reachable or not, sets a
variable to a buffer whose type is no pointer, and the failure is at the first such instruction in
the order of printing.  A module fails exactly if one of its functions does, and as the first of
these. -/
theorem printing_fails_at_first_misprint :
    (∀ f : Func, f.isKnown = true →
      ((∃ d, f.text = .error d) ↔ ∃ b ∈ f.blocks.values, ∃ x type size contents,
        .set x (.allocDynamicBytes type size contents) ∈ b.instructions ∧
          ∀ pointee, type ≠ .ptr pointee) ∧
      ∀ d, f.text = .error d →
        d.code = IRFault.unsupportedPrint.code ∧ d.location = f.misprints.head?) ∧
    ∀ m : Module,
      ((∃ d, m.text = .error d) ↔ ∃ f ∈ m.functions.values, ∃ d, f.text = .error d) ∧
      ∀ d, m.text = .error d → ∃ before f after, m.functions.values = before ++ f :: after ∧
        (∀ g ∈ before, ∃ s, g.text = .ok s) ∧ f.text = .error d := by
  refine ⟨fun f hknown => ?_, fun m => ⟨?_, fun d hd => ?_⟩⟩
  · have hfails := Printer.failsAt_func hknown
    refine ⟨?_, fun d => hfails.error⟩
    rw [hfails.exists_error_iff, Func.misprints_ne_nil_iff]
  · simp only [Module.text_eq_error_iff, Func.text_eq_error_iff]
    exact exists_mapM_eq_error_iff
  · simp only [Func.exists_text_iff, Func.text_eq_error_iff]
    exact mapM_eq_error_iff.1 (Module.text_eq_error_iff.1 hd)

/-- Buffers whose types are no pointers, in the block that control goes to from the entry and in one
that was added before it and is never reached. -/
def scattered : Func where
  id := 0
  name := "scattered"
  params := []
  returns := []
  entry := 0
  blocks := ⟨[
    (0, { id := 0, instructions := [.terminate (.branch 2)] }),
    (1, { id := 1, instructions := [.set 0 (.allocDynamicBytes .bool (.var 0) none)] }),
    (2, { id := 2, instructions :=
      [.set 0 (.allocDynamicBytes (.ptr .bool) (.var 1) none),
        .set 1 (.allocDynamicBytes (.slice .bool) (.var 0) none), .terminate (.ret [])] })],
    by decide⟩
  table := ⟨#[⟨.ptr .bool, none⟩, ⟨.slice .bool, none⟩]⟩

/-- The failure is in the block that is printed first, not in the one that was added first. -/
theorem printing_fails_at_first_misprint_scattered :
    scattered.isKnown = true ∧ ∃ d, scattered.text = .error d ∧ d.code = "IR012" ∧
      d.location = some ⟨some "scattered", some 2, some 1⟩ := by
  have hknown : scattered.isKnown = true := by
    simp +decide [Func.isKnown, scattered, IdMap.values]
  have hplaces : scattered.misprints.head? = some ⟨some "scattered", some 2, some 1⟩ := by
    have hsearch : scattered.Search [] [0] _ _ :=
      .enter (by decide) rfl (.enter (by decide) rfl (.nil _) (.nil _)) (.nil _)
    rw [Func.misprints, Func.printed, Func.printOrder_of_search hsearch]
    rfl
  obtain ⟨hiff, herror⟩ := printing_fails_at_first_misprint.1 scattered hknown
  have hbuffer : ∃ b ∈ scattered.blocks.values, ∃ x type size contents,
      .set x (.allocDynamicBytes type size contents) ∈ b.instructions ∧
        ∀ pointee, type ≠ .ptr pointee :=
    ⟨_, .tail _ (.head _), 0, .bool, .var 0, none, .head _, fun _ h => by cases h⟩
  obtain ⟨d, hd⟩ := hiff.2 hbuffer
  exact ⟨hknown, d, hd, (herror d hd).1, (herror d hd).2.trans hplaces⟩

end ContractIR
