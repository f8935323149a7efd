import ContractIR.Instr.Printer
import ContractIR.Proofs.Text.Ty

/-!
# ContractIR.Proofs.Text.Field — the parts of a line can be told from their texts

Operands, lists of operands and the other parts that stand between the fixed words of a line.  Each
kind of part names the characters that may follow it, and a part can be told from its text if one of
them does.
-/

namespace ContractIR

open Decimal

/-! ### Regular operands -/

/-- The number of a variable is a float, and the type of a literal is regular. -/
def Operand.Regular : Operand → Prop
  | var id => IsFloat id
  | literal (.number type _) => type.Regular
  | _ => True

namespace Text

/-! ### Openings -/

/-- The text begins with one of the openings. -/
def Opens (openings : List String) (s : List Char) : Prop := ∃ o ∈ openings, o.toList <+: s

/-- The bytes of a text. -/
def bytes (s : String) : List Nat := s.toByteArray.data.toList.map UInt8.toNat

/-- The lists differ before either of them ends. -/
def diverge : List Nat → List Nat → Bool
  | a :: as, b :: bs => !(a == b) || diverge as bs
  | _, _ => false

theorem diverge_comm (as bs : List Nat) : diverge as bs = diverge bs as := by
  induction as generalizing bs with
  | nil => cases bs <;> rfl
  | cons a as ih =>
    cases bs with
    | nil => rfl
    | cons b bs => rw [diverge, diverge, ih, Bool.beq_comm]

theorem diverge_append (as bs : List Nat) : diverge as (as ++ bs) = false := by
  induction as with
  | nil => rfl
  | cons a as ih => simp [diverge, ih]

theorem diverge_eq_false {s t : String} (h : s.toList <+: t.toList) :
    diverge (bytes s) (bytes t) = false := by
  obtain ⟨r, hr⟩ := h
  obtain rfl : s ++ String.ofList r = t := String.toList_inj.1 (by simpa using hr)
  have hbytes : bytes (s ++ String.ofList r) = bytes s ++ bytes (String.ofList r) := by simp [bytes]
  rw [hbytes]
  exact diverge_append ..

/-- No opening of one list begins one of the other.  It is enough to look at their bytes, which are
compared faster than characters. -/
def Apart (openings openings' : List String) : Prop :=
  ∀ o ∈ openings, ∀ o' ∈ openings', diverge (bytes o) (bytes o') = true

instance (openings openings' : List String) : Decidable (Apart openings openings') :=
  inferInstanceAs (Decidable (∀ o ∈ openings, ∀ o' ∈ openings',
    diverge (bytes o) (bytes o') = true))

theorem Opens.append {os : List String} {s : List Char} (h : Opens os s) (u : List Char) :
    Opens os (s ++ u) := by
  obtain ⟨o, ho, hs⟩ := h
  exact ⟨o, ho, hs.trans (List.prefix_append s u)⟩

theorem opens_append (o : String) (u : List Char) : Opens [o] (o.toList ++ u) :=
  ⟨o, List.mem_singleton_self o, List.prefix_append ..⟩

theorem Apart.symm {os os' : List String} (h : Apart os os') : Apart os' os :=
  fun o ho o' ho' => diverge_comm .. ▸ h o' ho' o ho

theorem Apart.not_opens {os os' : List String} {s : List Char} (h : Apart os os')
    (hs : Opens os s) : ¬ Opens os' s := by
  rintro ⟨o', ho', hs'⟩
  obtain ⟨o, ho, hs⟩ := hs
  have hdiverge := h o ho o' ho'
  rcases List.prefix_or_prefix_of_prefix hs hs' with h | h
  · rw [diverge_eq_false h] at hdiverge
    cases hdiverge
  · rw [diverge_comm, diverge_eq_false h] at hdiverge
    cases hdiverge

theorem Apart.append_ne {os os' : List String} {s t u v : List Char} (h : Apart os os')
    (hs : Opens os s) (ht : Opens os' t) : s ++ u ≠ t ++ v := by
  intro heq
  exact h.not_opens (hs.append u) (heq ▸ ht.append v)

theorem Opens.append_ne_cons {os : List String} {s u w : List Char} {c : Char} (hs : Opens os s)
    (h : Apart os [String.ofList [c]]) : s ++ u ≠ c :: w := by
  intro hw
  refine h.not_opens (hs.append u) ⟨String.ofList [c], List.mem_singleton_self _, ?_⟩
  rw [hw]
  simp

/-- The openings of types. -/
def tyOpenings : List String :=
  ["bool", "int", "uint", "bytes", "ptr<", "const_storage_ptr", "storage_ptr", "fn", "mapping",
    "struct.", "slice"]

theorem BaseText.opens {t : Ty} {w : Keyword} {r : List Char} (h : BaseText t w r) :
    Opens tyOpenings (w.text.toList ++ r) := by
  by_cases hw : w = .ptr
  · subst hw
    cases h with
    | ptr hs => exact ⟨"ptr<", by decide, by simp [Keyword.text]⟩
  · have hall : ∀ w ∈ Keyword.all, w ≠ .ptr → Opens tyOpenings w.text.toList := by
      unfold Opens
      decide +kernel
    exact (hall w w.mem_all hw).append r

theorem TyText.opens {t : Ty} {s : List Char} (h : TyText t s) : Opens tyOpenings s := by
  obtain ⟨w, r, d, hw, -, rfl⟩ := h.split
  exact hw.opens.append d

/-! ### Operands -/

/-- The text of a regular operand. -/
inductive OperandText : Operand → List Char → Prop
  | var {id : VarId} : IsFloat id → OperandText (.var id) ('%' :: (intText id).toList)
  | number {t : Ty} {s : List Char} {n : Int} : TyText t s →
      OperandText (.number t n) (s ++ '(' :: (toString n).toList ++ [')'])
  | bool {b : Bool} : OperandText (.bool b) (boolText b).toList

theorem operandText_of_text {o : Operand} {s : String} (h : o.Regular) (hs : o.text = .ok s) :
    OperandText o s.toList := by
  cases o with
  | var id =>
    simp only [Operand.text, varText, Except.ok.injEq] at hs
    subst hs
    simpa using OperandText.var h
  | literal l =>
    cases l with
    | number t n =>
      simp only [Operand.text, Literal.text, bind_eq_ok_iff, pure_eq_ok_iff] at hs
      obtain ⟨r, hr, rfl⟩ := hs
      simpa using OperandText.number (n := n) ⟨h, r, hr, rfl⟩
    | bool b =>
      simp only [Operand.text, Literal.text, Except.ok.injEq] at hs
      subst hs
      exact .bool
  | unknown kind => cases hs

theorem OperandText.opens_var {id : VarId} {s : List Char} (h : OperandText (.var id) s) :
    Opens ["%"] s := by
  cases h with
  | var _ => exact ⟨"%", by decide, by simp⟩

theorem OperandText.opens_number {t : Ty} {n : Int} {s : List Char}
    (h : OperandText (.number t n) s) : Opens tyOpenings s := by
  cases h with
  | number ht =>
    rw [List.append_assoc]
    exact ht.opens.append _

theorem OperandText.opens_bool {b : Bool} {s : List Char} (h : OperandText (.bool b) s) :
    Opens ["true", "false"] s := by
  cases h with
  | bool => exact ⟨boolText b, by cases b <;> decide, List.prefix_refl _⟩

theorem reads_operand : Reads OperandText (Stops isNumeric) := by
  intro a b s t u v hs ht hu hv h
  cases hs with
  | var hn =>
    have hopen := (OperandText.var hn).opens_var
    cases ht with
    | var hm =>
      obtain ⟨rfl, rfl⟩ := reads_intText _ ⟨hn, rfl⟩ ⟨hm, rfl⟩ hu hv (List.cons.inj h).2
      exact ⟨rfl, rfl⟩
    | number ht =>
      exact absurd h (Apart.append_ne (by decide) hopen (OperandText.number ht).opens_number)
    | bool => exact absurd h (Apart.append_ne (by decide) hopen OperandText.bool.opens_bool)
  | @number _ _ n hty =>
    have hopen := (OperandText.number (n := n) hty).opens_number
    cases ht with
    | var hm => exact absurd h (Apart.append_ne (by decide) hopen (OperandText.var hm).opens_var)
    | number hty' =>
      simp only [List.append_assoc, List.cons_append] at h
      obtain ⟨rfl, hrest⟩ := reads_ty _ hty hty' (endsType_cons rfl (by decide))
        (endsType_cons rfl (by decide)) h
      obtain ⟨rfl, hclose⟩ := reads_toString _ rfl rfl (stops_cons.2 rfl) (stops_cons.2 rfl)
        (List.cons.inj hrest).2
      exact ⟨rfl, (List.cons.inj hclose).2⟩
    | bool => exact absurd h (Apart.append_ne (by decide) hopen OperandText.bool.opens_bool)
  | @bool c =>
    have hopen := (OperandText.bool (b := c)).opens_bool
    cases ht with
    | var hm => exact absurd h (Apart.append_ne (by decide) hopen (OperandText.var hm).opens_var)
    | number hty' =>
      exact absurd h (Apart.append_ne (by decide) hopen (OperandText.number hty').opens_number)
    | @bool c' => cases c <;> cases c' <;> simp_all [boolText]

/-- The openings of operands. -/
def operandOpenings : List String := ["%", "true", "false"] ++ tyOpenings

theorem OperandText.opens {o : Operand} {s : List Char} (h : OperandText o s) :
    Opens operandOpenings s := by
  have hsub : ∀ {os : List String}, os ⊆ operandOpenings → Opens os s → Opens operandOpenings s :=
    fun hos ⟨o, ho, hs⟩ => ⟨o, hos ho, hs⟩
  cases h with
  | var hn => exact hsub (by decide) (OperandText.var hn).opens_var
  | number ht => exact hsub (List.subset_append_right ..) (OperandText.number ht).opens_number
  | bool => exact hsub (by decide) OperandText.bool.opens_bool

/-! ### Lists -/

/-- One of the characters follows. -/
def Next (ends : List Char) (u : List Char) : Prop := ∃ c w, u = c :: w ∧ c ∈ ends

/-- The characters that may follow a list. -/
def listEnds : List Char := [' ', ')', ']', ';']

/-- A list with commas can be told from its text, if its members can and none of them begins with a
character that may follow the list. -/
theorem reads_list {α : Type} {P : α → List Char → Prop} (hP : Reads P (Stops isNumeric))
    (hstart : ∀ {a s u}, P a s → ¬ Next listEnds (s ++ u)) :
    Reads (Joined ", ".toList P) (Next listEnds) := by
  intro as
  refine readsAt_joined (F := Stops isNumeric) (fun a _ => hP a) (fun u => stops_cons.2 rfl) ?_
    hstart
  rintro _ ⟨c, w, rfl, hc⟩
  have hall : ∀ c ∈ listEnds, isNumeric c = false ∧ c ≠ ',' := by simp [listEnds, isNumeric]
  refine ⟨stops_cons.2 (hall c hc).1, fun w' h => (hall c hc).2 ?_⟩
  simp only [String.reduceToList, List.cons_append, List.cons.injEq] at h
  exact h.1

theorem Opens.not_next {os : List String} {s u : List Char} {ends : List Char} (hs : Opens os s)
    (h : Apart os (ends.map fun c => String.ofList [c])) : ¬ Next ends (s ++ u) := by
  rintro ⟨c, w, hw, hc⟩
  refine hs.append_ne_cons (fun o ho o' ho' => h o ho o' ?_) hw
  rw [List.mem_singleton.1 ho']
  exact List.mem_map_of_mem hc

theorem reads_operands : Reads (Joined ", ".toList OperandText) (Next listEnds) :=
  reads_list reads_operand fun hs => hs.opens.not_next (by decide +kernel)

/-- The text of an argument of a formatted string. -/
inductive FormatArgText : FormatSpec × Operand → List Char → Prop
  | default {o : Operand} {s : List Char} : OperandText o s → FormatArgText (.default, o) s
  | binary {o : Operand} {s : List Char} : OperandText o s →
      FormatArgText (.binary, o) (':' :: 'b' :: ' ' :: s)
  | hex {o : Operand} {s : List Char} : OperandText o s →
      FormatArgText (.hex, o) (':' :: 'x' :: ' ' :: s)

theorem FormatArgText.opens {a : FormatSpec × Operand} {s : List Char} (h : FormatArgText a s) :
    Opens (":" :: operandOpenings) s := by
  cases h with
  | default hs =>
    obtain ⟨o, ho, hs⟩ := hs.opens
    exact ⟨o, List.mem_cons_of_mem _ ho, hs⟩
  | binary _ | hex _ => exact ⟨":", by decide, by simp⟩

theorem reads_formatArg : Reads FormatArgText (Stops isNumeric) := by
  intro a b s t u v hs ht hu hv h
  have hmark : Apart operandOpenings [String.ofList [':']] := by decide
  cases hs with
  | default hs =>
    cases ht with
    | default ht =>
      obtain ⟨rfl, rfl⟩ := reads_operand _ hs ht hu hv h
      exact ⟨rfl, rfl⟩
    | binary _ | hex _ => exact absurd h (hs.opens.append_ne_cons hmark)
  | binary hs =>
    cases ht with
    | default ht => exact absurd h.symm (ht.opens.append_ne_cons hmark)
    | binary ht =>
      obtain ⟨rfl, rfl⟩ := reads_operand _ hs ht hu hv (by simpa using h)
      exact ⟨rfl, rfl⟩
    | hex _ => simp at h
  | hex hs =>
    cases ht with
    | default ht => exact absurd h.symm (ht.opens.append_ne_cons hmark)
    | binary _ => simp at h
    | hex ht =>
      obtain ⟨rfl, rfl⟩ := reads_operand _ hs ht hu hv (by simpa using h)
      exact ⟨rfl, rfl⟩

/-- The text of a case of a switch. -/
inductive CaseText : Operand × BlockId → List Char → Prop
  | mk {o : Operand} {n : BlockId} {s : List Char} : OperandText o s → IsFloat n →
      CaseText (o, n) (s ++ " => block#".toList ++ (intText n).toList)

theorem CaseText.opens {c : Operand × BlockId} {s : List Char} (h : CaseText c s) :
    Opens operandOpenings s := by
  cases h with
  | mk ho _ =>
    rw [List.append_assoc]
    exact ho.opens.append _

theorem reads_case : Reads CaseText (Stops isNumeric) := by
  rintro _ _ _ _ u v ⟨ho, hn⟩ ⟨ho', hn'⟩ hu hv h
  simp only [String.reduceToList, List.append_assoc, List.cons_append, List.nil_append] at h
  obtain ⟨rfl, hrest⟩ := reads_operand _ ho ho' (stops_cons.2 rfl) (stops_cons.2 rfl) h
  simp only [List.cons.injEq, true_and] at hrest
  obtain ⟨rfl, rfl⟩ := reads_intText _ ⟨hn, rfl⟩ ⟨hn', rfl⟩ hu hv hrest
  exact ⟨rfl, rfl⟩

/-- The text of an input of a phi. -/
inductive PhiInputText : PhiInput → List Char → Prop
  | mk {o : Operand} {n : BlockId} {s : List Char} : OperandText o s → IsFloat n →
      PhiInputText ⟨o, n⟩ ('[' :: s ++ ", block#".toList ++ (intText n).toList ++ [']'])

theorem PhiInputText.opens {i : PhiInput} {s : List Char} (h : PhiInputText i s) :
    Opens ["["] s := by
  cases h with
  | mk _ _ => exact ⟨"[", by decide, by simp⟩

theorem reads_phiInput : Reads PhiInputText (Stops isNumeric) := by
  rintro _ _ _ _ u v ⟨ho, hn⟩ ⟨ho', hn'⟩ hu hv h
  simp only [String.reduceToList, List.append_assoc, List.cons_append, List.nil_append,
    List.cons.injEq, true_and] at h
  obtain ⟨rfl, hrest⟩ := reads_operand _ ho ho' (stops_cons.2 rfl) (stops_cons.2 rfl) h
  simp only [List.cons.injEq, true_and] at hrest
  obtain ⟨rfl, hclose⟩ := reads_intText _ ⟨hn, rfl⟩ ⟨hn', rfl⟩ (stops_cons.2 rfl) (stops_cons.2 rfl)
    hrest
  exact ⟨rfl, (List.cons.inj hclose).2⟩

/-! ### Bytes -/

theorem hexDigit_inj : ∀ m < 16, ∀ n < 16, Bytes.hexDigit m = Bytes.hexDigit n → m = n := by decide

theorem hexDigit_ne : ∀ n < 16, Bytes.hexDigit n ∉ ['"', '\x7d'] := by decide

/-- The text of a byte in hexadecimal. -/
def HexText (b : UInt8) (s : List Char) : Prop := (Bytes.hexByte b).toList = s

theorem reads_hex : Reads HexText fun _ => True := by
  rintro a b _ _ u v rfl rfl - - h
  simp only [Bytes.hexByte, String.toList_ofList, List.cons_append, List.nil_append,
    List.cons.injEq] at h
  obtain ⟨hhigh, hlow, rfl⟩ := h
  have ha := a.toNat_lt
  have hb := b.toNat_lt
  have hhigh := hexDigit_inj _ (by omega) _ (by omega) hhigh
  have hlow := hexDigit_inj _ (by omega) _ (by omega) hlow
  exact ⟨UInt8.toNat_inj.1 (by omega), rfl⟩

/-- Bytes in hexadecimal can be told from their text, if a quote or a brace follows and neither
begins the separator. -/
theorem reads_hexBytes {c : Char} {sep : List Char} (hsep : c ∉ ['"', '\x7d']) :
    Reads (Joined (c :: sep) HexText) (Next ['"', '\x7d']) := by
  intro bs
  refine readsAt_joined (F := fun _ => True) (fun b _ => reads_hex b) (fun _ => trivial) ?_ ?_
  · rintro _ ⟨d, w, rfl, hd⟩
    exact ⟨trivial, fun w' h => hsep ((List.cons.inj h).1 ▸ hd)⟩
  · rintro b _ u rfl ⟨d, w, hw, hd⟩
    have hb := b.toNat_lt
    simp only [Bytes.hexByte, String.toList_ofList, List.cons_append, List.cons.injEq] at hw
    rw [← hw.1] at hd
    exact hexDigit_ne _ (by omega) hd

/-- The text of a byte in decimal. -/
def ByteText (b : UInt8) (s : List Char) : Prop := (toString b).toList = s

theorem ByteText.eq_toDigits {b : UInt8} {s : List Char} (h : ByteText b s) :
    s = Nat.toDigits 10 b.toNat := by
  rw [← Nat.toList_repr]
  exact h.symm

theorem reads_byte : Reads ByteText (Stops isNumeric) := by
  intro a b s t u v hs ht hu hv h
  have hdigits : ∀ {w}, Stops isNumeric w → Stops Char.isDigit w :=
    fun hw => hw.mono fun c hc => by simp [isNumeric, hc]
  rw [hs.eq_toDigits, ht.eq_toDigits] at h
  obtain ⟨heq, hrest⟩ := run_inj (fun _ => isDigit_toDigits) (fun _ => isDigit_toDigits)
    (hdigits hu) (hdigits hv) h
  exact ⟨UInt8.toNat_inj.1 (toDigits_inj heq), hrest⟩

theorem ByteText.not_next {b : UInt8} {s u : List Char} (h : ByteText b s) :
    ¬ Next listEnds (s ++ u) := by
  rintro ⟨c, w, hw, hc⟩
  have hall : ∀ c ∈ listEnds, c.isDigit = false := by simp [listEnds]
  obtain ⟨c', r, hr, hdigit⟩ := beginsWithDigit_toDigits b.toNat
  rw [h.eq_toDigits, hr] at hw
  obtain ⟨rfl, -⟩ := List.cons.inj hw
  rw [hall _ hc] at hdigit
  cases hdigit

/-! ### Strings, callees and optional parts -/

/-- The text of a string operand. -/
inductive SourceText : StringSource → List Char → Prop
  | compileTime {bs : Bytes} {s : List Char} : Joined ", ".toList ByteText bs s →
      SourceText (.compileTime bs) ('"' :: '[' :: s ++ [']', '"'])
  | runTime {o : Operand} {s : List Char} : OperandText o s → SourceText (.runTime o) s

theorem reads_source : Reads SourceText (Stops isNumeric) := by
  intro a b s t u v hs ht hu hv h
  have hquote : Apart operandOpenings [String.ofList ['"']] := by decide
  cases hs with
  | compileTime hs =>
    cases ht with
    | compileTime ht =>
      simp only [List.cons_append, List.append_assoc, List.cons.injEq, true_and] at h
      obtain ⟨rfl, hrest⟩ := reads_list reads_byte ByteText.not_next _ hs ht
        ⟨_, _, rfl, by decide⟩ ⟨_, _, rfl, by decide⟩ h
      exact ⟨rfl, by simpa using hrest⟩
    | runTime ht => exact absurd h.symm (ht.opens.append_ne_cons hquote)
  | runTime hs =>
    cases ht with
    | compileTime _ => exact absurd h (hs.opens.append_ne_cons hquote)
    | runTime ht =>
      obtain ⟨rfl, rfl⟩ := reads_operand _ hs ht hu hv h
      exact ⟨rfl, rfl⟩

/-- The text of what is called. -/
inductive CalleeText : CallTarget → List Char → Prop
  | static {n : FuncId} : IsFloat n →
      CalleeText (.static n) ("function#".toList ++ (intText n).toList)
  | builtin {n : Int} : IsFloat n →
      CalleeText (.builtin n) ("builtin#".toList ++ (intText n).toList)
  | dynamic {o : Operand} {s : List Char} : OperandText o s → CalleeText (.dynamic o) s

theorem reads_callee : Reads CalleeText (Stops isNumeric) := by
  intro a b s t u v hs ht hu hv h
  have hstatic : Apart ["function#"] operandOpenings := by decide
  have hbuiltin : Apart ["builtin#"] operandOpenings := by decide
  cases hs with
  | static hn =>
    cases ht with
    | static hm =>
      rw [List.append_assoc, List.append_assoc] at h
      obtain ⟨rfl, rfl⟩ := reads_intText _ ⟨hn, rfl⟩ ⟨hm, rfl⟩ hu hv (List.append_cancel_left h)
      exact ⟨rfl, rfl⟩
    | builtin _ => simp at h
    | dynamic ht => exact absurd h (hstatic.append_ne (opens_append _ _) ht.opens)
  | builtin hn =>
    cases ht with
    | static _ => simp at h
    | builtin hm =>
      rw [List.append_assoc, List.append_assoc] at h
      obtain ⟨rfl, rfl⟩ := reads_intText _ ⟨hn, rfl⟩ ⟨hm, rfl⟩ hu hv (List.append_cancel_left h)
      exact ⟨rfl, rfl⟩
    | dynamic ht => exact absurd h (hbuiltin.append_ne (opens_append _ _) ht.opens)
  | dynamic hs =>
    cases ht with
    | static _ => exact absurd h.symm (hstatic.append_ne (opens_append _ _) hs.opens)
    | builtin _ => exact absurd h.symm (hbuiltin.append_ne (opens_append _ _) hs.opens)
    | dynamic ht =>
      obtain ⟨rfl, rfl⟩ := reads_operand _ hs ht hu hv h
      exact ⟨rfl, rfl⟩

/-- The text of an optional part: a bare `_` if it is absent. -/
inductive OptionText {α : Type} (P : α → List Char → Prop) : Option α → List Char → Prop
  | none : OptionText P none ['_']
  | some {a : α} {s : List Char} : P a s → OptionText P (some a) s

theorem reads_option {α : Type} {P : α → List Char → Prop} {F : List Char → Prop} (hP : Reads P F)
    (hstart : ∀ {a s u w}, P a s → s ++ u ≠ '_' :: w) : Reads (OptionText P) F := by
  intro a b s t u v hs ht hu hv h
  cases hs with
  | none =>
    cases ht with
    | none => exact ⟨rfl, (List.cons.inj h).2⟩
    | some ht => exact absurd h.symm (hstart ht)
  | some hs =>
    cases ht with
    | none => exact absurd h (hstart hs)
    | some ht =>
      obtain ⟨rfl, rfl⟩ := hP _ hs ht hu hv h
      exact ⟨rfl, rfl⟩

/-- What stands before an optional operand. -/
inductive Label
  | bare
  | address
  | accounts
  | seeds
  | flags
  | salt
  | value
deriving DecidableEq

/-- The text of a label. -/
def Label.text : Label → String
  | bare => ""
  | address => "address:"
  | accounts => "accounts:"
  | seeds => "seeds:"
  | flags => "flags:"
  | salt => "salt:"
  | value => "value:"

/-- The text of an operand behind a label. -/
def LabelledText (label : Label) (o : Operand) (s : List Char) : Prop :=
  ∃ r, OperandText o r ∧ s = label.text.toList ++ r

theorem reads_labelled (label : Label) : Reads (LabelledText label) (Stops isNumeric) := by
  rintro a b _ _ u v ⟨r, hr, rfl⟩ ⟨r', hr', rfl⟩ hu hv h
  rw [List.append_assoc, List.append_assoc] at h
  exact reads_operand a hr hr' hu hv (List.append_cancel_left h)

theorem LabelledText.ne_mark {label : Label} {o : Operand} {s u w : List Char}
    (h : LabelledText label o s) : s ++ u ≠ '_' :: w := by
  obtain ⟨r, hr, rfl⟩ := h
  cases label with
  | bare =>
    have hmark : Apart operandOpenings [String.ofList ['_']] := by decide
    simpa [Label.text] using hr.opens.append_ne_cons (u := u) (w := w) hmark
  | _ => simp [Label.text]

/-- The text of a function of a contract. -/
inductive ContractFunctionText : ContractFunction → List Char → Prop
  | mk {m n : Int} : IsFloat m → IsFloat n →
      ContractFunctionText ⟨m, n⟩ ("contract_function:(".toList ++ (intText m).toList ++
        ", ".toList ++ (intText n).toList ++ [')'])

theorem reads_contractFunction : Reads ContractFunctionText fun _ => True := by
  rintro _ _ _ _ u v ⟨hm, hn⟩ ⟨hm', hn'⟩ - - h
  simp only [String.reduceToList, List.append_assoc, List.cons_append, List.nil_append,
    List.cons.injEq, true_and] at h
  obtain ⟨rfl, hrest⟩ := reads_intText _ ⟨hm, rfl⟩ ⟨hm', rfl⟩ (stops_cons.2 rfl)
    (stops_cons.2 rfl) h
  simp only [List.cons.injEq, true_and] at hrest
  obtain ⟨rfl, hclose⟩ := reads_intText _ ⟨hn, rfl⟩ ⟨hn', rfl⟩ (stops_cons.2 rfl) (stops_cons.2 rfl)
    hrest
  exact ⟨rfl, (List.cons.inj hclose).2⟩

/-! ### Buffers -/

theorem OperandText.head {o : Operand} {s : List Char} (h : OperandText o s) :
    ∃ c r, s = c :: r ∧ (c == '%' || isLetter c) = true := by
  cases h with
  | var _ => exact ⟨_, _, rfl, rfl⟩
  | number ht =>
    obtain ⟨c, r, rfl, hc⟩ := ht.head
    exact ⟨c, _, rfl, by simp [hc]⟩
  | @bool b => cases b <;> exact ⟨_, _, rfl, rfl⟩

/-- A bracket with an operand behind it is no dimension. -/
theorem OperandText.endsType {o : Operand} {s : List Char} (h : OperandText o s) (u : List Char) :
    EndsType ('[' :: (s ++ u)) := by
  obtain ⟨c, r, rfl, hc⟩ := h.head
  refine endsType_bracket ?_ (by rintro rfl; cases hc) (by rintro rfl; cases hc)
  rw [Bool.or_eq_false_iff, beq_eq_false_iff_ne]
  refine ⟨Bool.eq_false_iff.2 fun hdigit => ?_, by rintro rfl; cases hc⟩
  rw [isLetter_of_isDigit hdigit, Bool.or_false, beq_iff_eq] at hc
  subst hc
  cases hdigit

/-- The text of a new buffer up to its closing bracket: what it holds, and its size. -/
inductive BufferText : Ty × Operand → List Char → Prop
  | mk {t : Ty} {o : Operand} {r s : List Char} : TyText t r → OperandText o s →
      BufferText (t, o) (r ++ '[' :: s)

theorem reads_buffer : Reads BufferText (Stops isNumeric) := by
  rintro _ _ _ _ u v ⟨ht, ho⟩ ⟨ht', ho'⟩ hu hv h
  simp only [List.append_assoc, List.cons_append] at h
  obtain ⟨rfl, hrest⟩ := reads_ty _ ht ht' (ho.endsType u) (ho'.endsType v) h
  obtain ⟨rfl, rfl⟩ := reads_operand _ ho ho' hu hv (List.cons.inj hrest).2
  exact ⟨rfl, rfl⟩

/-- The text of the bytes that a new buffer starts with, or nothing. -/
inductive ContentsText : Option Bytes → List Char → Prop
  | none : ContentsText none []
  | some {bs : Bytes} {s : List Char} : Joined ", ".toList HexText bs s →
      ContentsText (some bs) (' ' :: '\x7b' :: s ++ ['\x7d'])

theorem reads_contents : Reads ContentsText (Next [';']) := by
  intro a b s t u v hs ht hu hv h
  obtain ⟨c, w, rfl, hc⟩ := hu
  obtain ⟨c', w', rfl, hc'⟩ := hv
  rw [List.mem_singleton] at hc hc'
  subst hc hc'
  cases hs with
  | none =>
    cases ht with
    | none => exact ⟨rfl, h⟩
    | some _ => simp at h
  | some hs =>
    cases ht with
    | none => simp at h
    | some ht =>
      simp only [List.cons_append, List.append_assoc, List.cons.injEq, true_and] at h
      obtain ⟨rfl, hrest⟩ := reads_hexBytes (by decide) _ hs ht ⟨_, _, rfl, by decide⟩
        ⟨_, _, rfl, by decide⟩ h
      exact ⟨rfl, (List.cons.inj hrest).2⟩

/-! ### Kinds of parts -/

/-- The kinds of parts that a line can have. -/
inductive Kind
  | number
  | operand
  | type
  | buffer
  | contents
  | operands
  | source
  | formatArgs
  | hexBytes
  | callee
  | optional (label : Label)
  | optionalNumber
  | contractFunction
  | cases
  | phiInputs
deriving DecidableEq

namespace Kind

/-- What a part of the kind stands for. -/
def Value : Kind → Type
  | number => Int
  | operand => Operand
  | type => Ty
  | buffer => Ty × Operand
  | contents => Option Bytes
  | operands => List Operand
  | source => StringSource
  | formatArgs => List (FormatSpec × Operand)
  | hexBytes => Bytes
  | callee => CallTarget
  | optional _ => Option Operand
  | optionalNumber => Option Int
  | contractFunction => Option ContractFunction
  | cases => List (Operand × BlockId)
  | phiInputs => List PhiInput

/-- The text of a part. -/
def Written : (k : Kind) → k.Value → List Char → Prop
  | number => NumberText
  | operand => OperandText
  | type => TyText
  | buffer => BufferText
  | contents => ContentsText
  | operands => Joined ", ".toList OperandText
  | source => SourceText
  | formatArgs => Joined ", ".toList FormatArgText
  | hexBytes => Joined "_".toList HexText
  | callee => CalleeText
  | optional label => OptionText (LabelledText label)
  | optionalNumber => OptionText NumberText
  | contractFunction => OptionText ContractFunctionText
  | cases => Joined ", ".toList CaseText
  | phiInputs => Joined ", ".toList PhiInputText

/-- The characters that may follow a part. -/
def ends : Kind → List Char
  | contents => [';']
  | hexBytes => ['"']
  | operands | formatArgs | cases | phiInputs => listEnds
  | _ => ',' :: '(' :: listEnds

theorem stops_of_next {u : List Char} (h : Next (',' :: '(' :: listEnds) u) :
    Stops isNumeric u := by
  obtain ⟨c, w, rfl, hc⟩ := h
  have hall : ∀ c ∈ ',' :: '(' :: listEnds, isNumeric c = false := by simp [listEnds, isNumeric]
  exact stops_cons.2 (hall c hc)

theorem endsType_of_next {u : List Char} (h : Next (',' :: '(' :: listEnds) u) : EndsType u := by
  obtain ⟨c, w, rfl, hc⟩ := h
  have hall : ∀ c ∈ ',' :: '(' :: listEnds, isTypeChar c = false ∧ c ≠ '[' := by
    simp [listEnds, isTypeChar, isLetter, isNumeric]
  exact endsType_cons (hall c hc).1 (hall c hc).2

/-- A part can be told from its text. -/
theorem reads (k : Kind) : Reads k.Written (Next k.ends) := by
  cases k with
  | number => exact reads_intText.mono stops_of_next
  | operand => exact reads_operand.mono stops_of_next
  | type => exact reads_ty.mono endsType_of_next
  | buffer => exact reads_buffer.mono stops_of_next
  | contents => exact reads_contents
  | operands => exact reads_operands
  | source => exact reads_source.mono stops_of_next
  | formatArgs => exact reads_list reads_formatArg fun hs => hs.opens.not_next (by decide +kernel)
  | hexBytes =>
    refine (reads_hexBytes (by decide)).mono ?_
    rintro u ⟨c, w, rfl, hc⟩
    exact ⟨c, w, rfl, List.mem_cons.2 (.inl (List.mem_singleton.1 hc))⟩
  | callee => exact reads_callee.mono stops_of_next
  | optional label =>
    exact (reads_option (reads_labelled label) LabelledText.ne_mark).mono stops_of_next
  | optionalNumber =>
    refine (reads_option reads_intText ?_).mono stops_of_next
    rintro n _ u w ⟨hn, rfl⟩
    exact intText_append_ne_cons hn rfl
  | contractFunction =>
    refine (reads_option reads_contractFunction ?_).mono fun _ => trivial
    rintro _ _ u w ⟨_, _⟩
    simp
  | cases => exact reads_list reads_case fun hs => hs.opens.not_next (by decide +kernel)
  | phiInputs => exact reads_list reads_phiInput fun hs => hs.opens.not_next (by decide +kernel)

end Kind

end Text

end ContractIR
