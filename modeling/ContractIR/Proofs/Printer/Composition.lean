import ContractIR.Proofs.Printer.Failure

/-!
# ContractIR.Proofs.Printer.Composition — a text is put together from the texts of the parts

If no name runs over the end of a line, the lines of a text can be told from it, and all of them
but the ones between functions are not empty.  So the text of a module consists of the texts of its
functions, and the text of a function of those of its blocks, as they are printed on their own, with
every line one step further in.

* `Text.lines_intercalate`: the lines that were joined can be told from the text.
* `Block.text_of_lines`, `Func.text_of_lines`: the lines of the text of a part on its own.
* `printing_is_compositional`: both compositions.
-/

namespace ContractIR

open Text

/-! ### Lines of a text -/

namespace Text

/-- The lines of a text. -/
def lines (s : String) : List String := (s.toList.splitOn '\n').map String.ofList

/-- The lines two blanks further in. -/
def inset (ls : List String) : List String := ls.map ("  " ++ ·)

theorem lines_intercalate {ls : List String} (hne : ls ≠ []) (h : ∀ s ∈ ls, OneLine s) :
    lines ("\n".intercalate ls) = ls := by
  have hsplit : ("\n".intercalate ls).toList.splitOn '\n' = ls.map String.toList := by
    rw [String.toList_intercalate]
    exact List.splitOn_intercalate '\n' (List.forall_mem_map.2 h) (by simpa using hne)
  rw [lines, hsplit, List.map_map]
  exact List.map_id'' (fun s => String.ofList_toList) ls

/-- The lines that a text was joined from can be told from it. -/
theorem exists_text_of_lines {text : Except Diagnostic String}
    {out : Except Diagnostic (List String)} {ls : List String}
    (htext : text = out.map "\n".intercalate) (hout : out = .ok ls) (hne : ls ≠ [])
    (h : ∀ s ∈ ls, OneLine s) : ∃ t, text = .ok t ∧ lines t = ls :=
  ⟨"\n".intercalate ls, by rw [htext, hout]; rfl, lines_intercalate hne h⟩

theorem map_intercalate {α β : Type} (g : α → β) (sep : List α) (ls : List (List α)) :
    (sep.intercalate ls).map g = (sep.map g).intercalate (ls.map (List.map g)) := by
  induction ls with
  | nil => rfl
  | cons l ls ih =>
    cases ls with
    | nil => simp
    | cons l' ls =>
      rw [List.map_cons, List.map_cons, List.intercalate_cons_cons, List.intercalate_cons_cons,
        List.map_append, List.map_append, ih, List.map_cons]

theorem map_shift_eq_inset {ls : List String} (h : ∀ s ∈ ls, IsLine s) :
    ls.map (Printer.shift 1) = inset ls :=
  List.map_congr_left fun s hs => (h s hs).shift_eq

end Text

/-! ### Names -/

/-- The names of the function, of its blocks and of its variables are single lines. -/
structure Func.HasOneLineNames (f : Func) : Prop where
  name : OneLine f.name
  blocks : ∀ b ∈ f.blocks.values, OneLineName b.name
  vars : ∀ v ∈ f.table.vars, OneLineName v.name

/-- The names of the module, of its target and of all in its functions are single lines. -/
structure Module.HasOneLineNames (m : Module) : Prop where
  name : OneLine m.name
  target : OneLine m.target.name
  functions : ∀ f ∈ m.functions.values, f.HasOneLineNames

/-! ### Blocks and functions on their own -/

namespace Block

variable {b : Block} {function : Option String} {ls : List String}

/-- The lines of a block do not depend on the function that it is printed in. -/
theorem lines_eq_ok_of_function (h : b.lines function = .ok ls) (function' : Option String) :
    b.lines function' = .ok ls := by
  simp only [lines, bind_eq_ok_iff, body, mapM_eq_ok_iff] at h ⊢
  obtain ⟨texts, htexts, h⟩ := h
  exact ⟨texts, htexts.imp fun e s hs => Instr.text_eq_ok_of_location hs _, h⟩

theorem isLine_of_mem_lines (hname : OneLineName b.name) (h : b.lines function = .ok ls) :
    ∀ s ∈ ls, IsLine s := by
  simp only [lines, bind_eq_ok_iff, pure_eq_ok_iff] at h
  obtain ⟨texts, htexts, rfl⟩ := h
  have hbody : ∀ s ∈ texts, IsLine s :=
    forall_mem_of_mapM_eq_ok (fun e _ => (e.1.gives_text _).holds) htexts
  refine List.forall_mem_cons.2 ⟨?_, List.forall_mem_map.2 fun s hs => (hbody s hs).shift⟩
  simp +decide [IsLine, label, hname.oneLine]

theorem text_of_lines (hname : OneLineName b.name) (h : b.lines function = .ok ls) :
    ∃ t, b.text = .ok t ∧ Text.lines t = ls := by
  have hne : ls ≠ [] := by
    obtain ⟨texts, -, rfl⟩ := map_eq_ok_iff.1 h
    simp
  exact exists_text_of_lines b.text_eq (lines_eq_ok_of_function h none) hne
    fun s hs => (isLine_of_mem_lines hname h s hs).1

end Block

namespace Func

variable {f : Func} {ls : List String}

theorem lines_eq_ok_iff : f.lines = .ok ls ↔ ∃ signature table blocks,
    f.signature = .ok signature ∧ f.table.lines = .ok table ∧
      f.printed.mapM (Block.lines (some f.name)) = .ok blocks ∧
      signature :: (table ++ blocks.flatten).map (Printer.shift 1) ++ ["\x7d"] = ls := by
  simp only [lines, bind_eq_ok_iff, pure_eq_ok_iff]
  grind

theorem oneLineName_of_mem_printed (hnames : f.HasOneLineNames) {b : Block} (hb : b ∈ f.printed) :
    OneLineName b.name :=
  hnames.blocks b (f.printed_perm.mem_iff.1 hb)

theorem isLine_of_mem_parts (hnames : f.HasOneLineNames) {table : List String}
    {blocks : List (List String)} (htable : f.table.lines = .ok table)
    (hblocks : f.printed.mapM (Block.lines (some f.name)) = .ok blocks) :
    ∀ s ∈ table ++ blocks.flatten, IsLine s := by
  have hlines : ∀ ls ∈ blocks, ∀ s ∈ ls, IsLine s :=
    forall_mem_of_mapM_eq_ok (fun b hb _ =>
      Block.isLine_of_mem_lines (oneLineName_of_mem_printed hnames hb)) hblocks
  exact List.forall_mem_append.2 ⟨f.table.gives_lines.holds table htable hnames.vars,
    List.forall_mem_flatten.2 hlines⟩

theorem isLine_of_mem_lines (hnames : f.HasOneLineNames) (h : f.lines = .ok ls) :
    ∀ s ∈ ls, IsLine s := by
  obtain ⟨signature, table, blocks, hsignature, htable, hblocks, rfl⟩ := lines_eq_ok_iff.1 h
  rw [List.cons_append, List.forall_mem_cons, List.forall_mem_append, List.forall_mem_map]
  refine ⟨f.gives_signature.holds signature hsignature hnames.name, fun s hs => ?_, ?_⟩
  · exact (isLine_of_mem_parts hnames htable hblocks s hs).shift
  · simp +decide [IsLine]

theorem text_of_lines (hnames : f.HasOneLineNames) (h : f.lines = .ok ls) :
    ∃ t, f.text = .ok t ∧ Text.lines t = ls := by
  have hne : ls ≠ [] := by
    obtain ⟨signature, table, blocks, -, -, -, rfl⟩ := lines_eq_ok_iff.1 h
    simp
  exact exists_text_of_lines f.text_eq h hne fun s hs => (isLine_of_mem_lines hnames h s hs).1

/-- There is a block for each place in the order of printing. -/
theorem map_get?_printOrder (f : Func) : f.printOrder.map f.blocks.get? = f.printed.map some := by
  have hsome : ∀ id ∈ f.printOrder, ∃ b, f.blocks.get? id = some b := by
    intro id hid
    have hkey := IdMap.contains_iff.2 (f.printOrder_perm.mem_iff.1 hid)
    exact Option.isSome_iff_exists.1 hkey
  rw [printed]
  generalize f.printOrder = order at hsome
  induction order with
  | nil => rfl
  | cons id order ih =>
    obtain ⟨⟨b, hb⟩, horder⟩ := List.forall_mem_cons.1 hsome
    rw [List.map_cons, List.filterMap_cons_some hb, List.map_cons, ih horder, hb]

/-- The text of a function is put together from the texts of its blocks. -/
theorem text_of_blocks (hnames : f.HasOneLineNames) (h : ∃ s, f.text = .ok s) :
    ∃ t signature table texts, f.text = .ok t ∧ f.signature = .ok signature ∧
      f.table.lines = .ok table ∧ f.printed.mapM Block.text = .ok texts ∧
      Text.lines t = signature :: inset table ++ (texts.flatMap fun u => inset (Text.lines u)) ++
        ["\x7d"] := by
  obtain ⟨ls, hls⟩ := exists_text_iff.1 h
  obtain ⟨t, ht, hlines⟩ := text_of_lines hnames hls
  obtain ⟨signature, table, blocks, hsignature, htable, hblocks, rfl⟩ := lines_eq_ok_iff.1 hls
  obtain ⟨texts, htexts, rfl⟩ := exists_mapM_of_mapM Text.lines (fun b hb _ =>
    Block.text_of_lines (oneLineName_of_mem_printed hnames hb)) hblocks
  refine ⟨t, signature, table, texts, ht, hsignature, htable, htexts, ?_⟩
  rw [hlines, map_shift_eq_inset (isLine_of_mem_parts hnames htable hblocks)]
  simp [inset, List.map_flatten, List.flatMap, Function.comp_def]

end Func

namespace Module

/-- The text of a module is put together from the texts of its functions. -/
theorem text_of_functions {m : Module} (hnames : m.HasOneLineNames)
    (h : ∀ f ∈ m.functions.values, ∃ s, f.text = .ok s) :
    ∃ s texts, m.text = .ok s ∧ m.functions.values.mapM Func.text = .ok texts ∧
      Text.lines s = m.header :: [""].intercalate (texts.map fun t => inset (Text.lines t)) ++
        ["\x7d"] := by
  obtain ⟨functions, hfunctions⟩ :=
    exists_mapM_eq_ok fun f hf => Func.exists_text_iff.1 (h f hf)
  obtain ⟨texts, htexts, rfl⟩ := exists_mapM_of_mapM Text.lines (fun f hf _ =>
    Func.text_of_lines (hnames.functions f hf)) hfunctions
  have hlines : ∀ ls ∈ texts.map Text.lines, ∀ s ∈ ls, IsLine s :=
    forall_mem_of_mapM_eq_ok (fun f hf _ =>
      Func.isLine_of_mem_lines (hnames.functions f hf)) hfunctions
  -- an empty line stays empty, and every other one gets two blanks in front of it
  have hinset : ([""].intercalate (texts.map Text.lines)).map (Printer.shift 1) =
      [""].intercalate (texts.map fun t => inset (Text.lines t)) := by
    rw [map_intercalate, List.map_map]
    refine congrArg _ (List.map_congr_left fun t ht => ?_)
    exact map_shift_eq_inset (hlines _ (List.mem_map_of_mem ht))
  have hm : m.lines = .ok (m.header ::
      [""].intercalate (texts.map fun t => inset (Text.lines t)) ++ ["\x7d"]) := by
    rw [lines, hfunctions, ← hinset]
    rfl
  have hinsets : ∀ ls ∈ texts.map fun t => inset (Text.lines t), ∀ s ∈ ls, OneLine s :=
    List.forall_mem_map.2 fun t ht => List.forall_mem_map.2 fun s hs => by
      simp +decide [(hlines _ (List.mem_map_of_mem ht) s hs).1]
  obtain ⟨s, hs, hslines⟩ := exists_text_of_lines m.text_eq hm (by simp) (by
    rw [List.cons_append, List.forall_mem_cons, List.forall_mem_append]
    exact ⟨by simp +decide [header, hnames.name, hnames.target],
      forall_mem_intercalate (by simp +decide) hinsets, by simp +decide⟩)
  exact ⟨s, texts, hs, htexts, hslines⟩

end Module

/-- The lines of a module are its head, the lines of each function as it is printed on its own, two
blanks further in and with an empty line between functions, and a closing brace.  In the same way
the lines of a function are its head, its variables, the lines of each block as it is printed on its
own, in the order of printing, and a closing brace. -/
theorem printing_is_compositional (m : Module) (hnames : m.HasOneLineNames)
    (hprints : ∀ f ∈ m.functions.values, ∃ s, f.text = .ok s) :
    (∃ s texts, m.text = .ok s ∧ m.functions.values.mapM Func.text = .ok texts ∧
      Text.lines s = ("module " ++ m.name ++ " (" ++ m.target.name ++ ") \x7b") ::
        [""].intercalate (texts.map fun t => (Text.lines t).map ("  " ++ ·)) ++ ["\x7d"]) ∧
    ∀ f ∈ m.functions.values, ∃ t signature table, ∃ blocks : List Block, ∃ texts,
      f.text = .ok t ∧ f.signature = .ok signature ∧ f.table.lines = .ok table ∧
      f.printOrder.map f.blocks.get? = blocks.map some ∧ blocks.mapM Block.text = .ok texts ∧
      Text.lines t = signature :: table.map ("  " ++ ·) ++
        (texts.flatMap fun u => (Text.lines u).map ("  " ++ ·)) ++ ["\x7d"] := by
  refine ⟨Module.text_of_functions hnames hprints, fun f hf => ?_⟩
  obtain ⟨t, signature, table, texts, ht, hsignature, htable, htexts, hlines⟩ :=
    Func.text_of_blocks (hnames.functions f hf) (hprints f hf)
  exact ⟨t, signature, table, f.printed, texts, ht, hsignature, htable, f.map_get?_printOrder,
    htexts, hlines⟩

/-- A function with a variable and two blocks, of which the entry was added last. -/
def seven : Func where
  id := 0
  name := "seven"
  params := []
  returns := [.uint 8]
  entry := 3
  blocks := ⟨[
    (4, { id := 4, instructions := [.terminate (.ret [.var 0])] }),
    (3, { id := 3, name := some "entry", instructions :=
      [.set 0 (.number (.uint 8) 7), .terminate (.branch 4)] })], by decide⟩
  table := ⟨#[⟨.uint 8, some "x"⟩]⟩

/-- A function with one block and no variables. -/
def idle : Func where
  id := 1
  name := "idle"
  params := []
  returns := []
  entry := 0
  blocks := ⟨[(0, { id := 0, instructions := [.terminate (.ret [])] })], by decide⟩
  table := ⟨#[]⟩

def couple : Module where
  name := "couple"
  target := .evm
  functions := ⟨[(0, seven), (1, idle)], by decide⟩

theorem printing_is_compositional_couple :
    couple.HasOneLineNames ∧ (∀ f ∈ couple.functions.values, ∃ s, f.text = .ok s) ∧
      ∃ s, couple.text = .ok s ∧ Text.lines s = [
        "module couple (evm) \x7b",
        "  function#0 seven() -> (uint8) \x7b",
        "    vars \x7b",
        "      %0: uint8 x",
        "    \x7d",
        "    block#3 entry:",
        "      %0 = uint8(7);",
        "      br block#4;",
        "    block#4:",
        "      return %0;",
        "  \x7d",
        "",
        "  function#1 idle() -> () \x7b",
        "    block#0:",
        "      return;",
        "  \x7d",
        "\x7d"] := by
  have hseven : seven.lines = .ok ["function#0 seven() -> (uint8) \x7b", "  vars \x7b",
      "    %0: uint8 x", "  \x7d", "  block#3 entry:", "    %0 = uint8(7);", "    br block#4;",
      "  block#4:", "    return %0;", "\x7d"] := by
    have hsearch : seven.Search [] [3] _ _ :=
      .enter (by decide) rfl (.enter (by decide) rfl (.nil _) (.nil _)) (.nil _)
    rw [Func.lines, Func.printed, Func.printOrder_of_search hsearch]
    rfl
  have hidle : idle.lines = .ok ["function#1 idle() -> () \x7b", "  block#0:", "    return;",
      "\x7d"] := by
    have hsearch : idle.Search [] [0] _ _ := .enter (by decide) rfl (.nil _) (.nil _)
    rw [Func.lines, Func.printed, Func.printOrder_of_search hsearch]
    rfl
  have hnames : seven.HasOneLineNames ∧ idle.HasOneLineNames := by
    refine ⟨⟨by decide, ?_, ?_⟩, ⟨by decide, ?_, ?_⟩⟩ <;>
      simp +decide [seven, idle, IdMap.values, OneLineName]
  obtain ⟨t, ht, htlines⟩ := Func.text_of_lines hnames.1 hseven
  obtain ⟨u, hu, hulines⟩ := Func.text_of_lines hnames.2 hidle
  have hcouple : couple.HasOneLineNames :=
    ⟨by decide, by decide, by simpa [couple, IdMap.values] using hnames⟩
  have hprints : ∀ f ∈ couple.functions.values, ∃ s, f.text = .ok s := by
    simp [couple, IdMap.values, ht, hu]
  obtain ⟨⟨s, texts, hs, htexts, hlines⟩, -⟩ := printing_is_compositional couple hcouple hprints
  have hboth : couple.functions.values.mapM Func.text = .ok [t, u] := by
    show [seven, idle].mapM Func.text = _
    rw [List.mapM_cons, List.mapM_cons, ht, hu]
    rfl
  obtain rfl : texts = [t, u] := Except.ok.inj (htexts.symm.trans hboth)
  refine ⟨hcouple, hprints, s, hs, hlines.trans ?_⟩
  rw [List.map_cons, List.map_singleton, htlines, hulines]
  rfl

end ContractIR
