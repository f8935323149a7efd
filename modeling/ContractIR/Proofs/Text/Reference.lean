import ContractIR.Proofs.Text.Field

/-!
# ContractIR.Proofs.Text.Reference — what a text refers to by number

A reference is a mark with a number behind it, and it may begin at any character of a text.  A text
is put together from words that hold no reference and from parts of which the references are known.
A part must not run on into what follows it, so a character that could neither go on with a number
nor with a mark has to stand there (`Breaks`).

* `references`: the numbers behind a mark, in the order in which they stand.
* `Refers.append`, `Refers.close`, `Refers.intercalate`: the references of a text from those of its
  parts.
* `Names.eq`: the numbers that a text names can be told from it.
-/

namespace ContractIR.Text

open Decimal

/-! ### Finding references -/

/-- What is referred to by number. -/
inductive Mark
  | var
  | block
deriving DecidableEq

/-- What stands in front of the number. -/
def Mark.chars : Mark → List Char
  | var => ['%']
  | block => ['b', 'l', 'o', 'c', 'k', '#']

/-- The digits that the text begins with, up to where a number ends. -/
def digits? (s : List Char) : Option (List Char) :=
  let run := s.takeWhile isNumeric
  if run.head?.any Char.isDigit then some run else none

/-- The number that the text begins with, as it is written. -/
def number? : List Char → Option (List Char)
  | '-' :: s => (digits? s).map ('-' :: ·)
  | s => digits? s

/-- The number of the reference that the text begins with. -/
def referenceAt? (mark : Mark) (s : List Char) : Option (List Char) :=
  if mark.chars.isPrefixOf s then number? (s.drop mark.chars.length) else none

/-- The numbers of all references in the text. -/
def references (mark : Mark) : List Char → List (List Char)
  | [] => []
  | c :: s => (referenceAt? mark (c :: s)).toList ++ references mark s

theorem references_cons_of_none {mark : Mark} {c : Char} {s : List Char}
    (h : referenceAt? mark (c :: s) = none) : references mark (c :: s) = references mark s := by
  rw [references, h]
  rfl

/-! ### Words -/

/-- No number begins with the character. -/
def noNumber (c : Char) : Bool := !(c.isDigit || c == '-')

/-- The rest of a mark does not stand at the head of the text, or no number stands behind it,
whatever follows the text. -/
def quietAt : List Char → List Char → Bool
  | _, [] => false
  | [], c :: _ => noNumber c
  | m :: ms, c :: s => m != c || quietAt ms s

/-- No reference begins in the text, whatever follows it. -/
def silent (mark : Mark) : List Char → Bool
  | [] => true
  | c :: s => quietAt mark.chars (c :: s) && silent mark s

theorem number?_eq_none {c : Char} {s : List Char} (h : noNumber c = true) :
    number? (c :: s) = none := by
  rw [noNumber, Bool.not_eq_true', Bool.or_eq_false_iff, beq_eq_false_iff_ne] at h
  unfold number?
  split
  next heq => exact absurd (List.cons.inj heq).1 h.2
  next =>
    unfold digits?
    rw [List.takeWhile_cons]
    split
    · simp [h.1]
    · rfl

theorem number?_drop_of_quietAt {ms s : List Char} (h : quietAt ms s = true) (u : List Char)
    (hpre : ms.isPrefixOf (s ++ u) = true) : number? ((s ++ u).drop ms.length) = none := by
  induction ms generalizing s with
  | nil =>
    cases s with
    | nil => cases h
    | cons c s => exact number?_eq_none h
  | cons m ms ih =>
    cases s with
    | nil => cases h
    | cons c s =>
      rw [quietAt, Bool.or_eq_true, bne_iff_ne] at h
      rw [List.cons_append, List.isPrefixOf_cons_cons, Bool.and_eq_true, beq_iff_eq] at hpre
      exact ih (h.resolve_left fun hne => hne hpre.1) hpre.2

theorem references_append_of_silent {mark : Mark} {s : List Char} (h : silent mark s = true)
    (u : List Char) : references mark (s ++ u) = references mark u := by
  induction s with
  | nil => rfl
  | cons c s ih =>
    rw [silent, Bool.and_eq_true] at h
    have hnone : referenceAt? mark (c :: s ++ u) = none := by
      unfold referenceAt?
      split
      next hpre => exact number?_drop_of_quietAt h.1 u hpre
      next => rfl
    exact (references_cons_of_none hnone).trans (ih h.2)

/-! ### Texts without references -/

/-- The character at which a mark is complete. -/
def Mark.closing : Mark → Char
  | var => '%'
  | block => '#'

/-- No mark is complete at the character, and no line ends there. -/
def isPlain (c : Char) : Bool := c != '%' && c != '#' && c != '\n'

/-- No mark can be completed in the text, and it is a single line. -/
def Plain (s : String) : Prop := ∀ c ∈ s.toList, isPlain c = true

instance (s : String) : Decidable (Plain s) :=
  decidable_of_iff (s.toList.all isPlain = true) List.all_eq_true

theorem Plain.closing_not_mem {s : String} (h : Plain s) (mark : Mark) :
    mark.closing ∉ s.toList := by
  intro hmem
  have hplain := h _ hmem
  cases mark <;> cases hplain

theorem plain_append {s t : String} : Plain (s ++ t) ↔ Plain s ∧ Plain t := by
  simp only [Plain, String.toList_append, List.forall_mem_append]

theorem plain_ofList {l : List Char} : Plain (String.ofList l) ↔ ∀ c ∈ l, isPlain c = true := by
  rw [Plain, String.toList_ofList]

theorem forall_mem_intercalate {α : Type} {P : α → Prop} {sep : List α} {ls : List (List α)}
    (hsep : ∀ a ∈ sep, P a) (h : ∀ l ∈ ls, ∀ a ∈ l, P a) : ∀ a ∈ sep.intercalate ls, P a := by
  induction ls with
  | nil => simp
  | cons l ls ih =>
    obtain ⟨hl, hls⟩ := List.forall_mem_cons.1 h
    cases ls with
    | nil => simpa using hl
    | cons l' ls =>
      rw [List.intercalate_cons_cons, List.forall_mem_append, List.forall_mem_append]
      exact ⟨⟨hl, hsep⟩, ih hls⟩

theorem plain_intercalate {w : String} {ss : List String} (hw : Plain w)
    (h : ∀ s ∈ ss, Plain s) : Plain (w.intercalate ss) := by
  rw [Plain, String.toList_intercalate]
  exact forall_mem_intercalate hw (List.forall_mem_map.2 h)

theorem isPlain_of_isDigit {c : Char} (h : c.isDigit = true) : isPlain c = true := by
  have hvar : c ≠ '%' := by
    rintro rfl
    cases h
  have hblock : c ≠ '#' := by
    rintro rfl
    cases h
  have hline : c ≠ '\n' := by
    rintro rfl
    cases h
  simp [isPlain, hvar, hblock, hline]

theorem isPlain_of_mem_toDigits {n : Nat} {c : Char} (h : c ∈ Nat.toDigits 10 n) :
    isPlain c = true :=
  isPlain_of_isDigit (isDigit_toDigits h)

theorem plain_layout {ds : List Char} (h : ∀ c ∈ ds, isPlain c = true) (point : Int) :
    Plain (layout ds point) := by
  have htake : ∀ k, ∀ c ∈ ds.take k, isPlain c = true :=
    fun k c hc => h c (List.mem_of_mem_take hc)
  have hdrop : ∀ k, ∀ c ∈ ds.drop k, isPlain c = true :=
    fun k c hc => h c (List.mem_of_mem_drop hc)
  have hzeros : ∀ k, ∀ c ∈ List.replicate k '0', isPlain c = true := by
    intro k c hc
    rw [List.eq_of_mem_replicate hc]
    rfl
  have hpoint : isPlain '.' = true := rfl
  unfold layout
  dsimp only
  split
  · exact plain_ofList.2 (List.forall_mem_append.2 ⟨h, hzeros _⟩)
  · split
    · exact plain_ofList.2 (List.forall_mem_append.2
        ⟨htake _, List.forall_mem_cons.2 ⟨hpoint, hdrop _⟩⟩)
    · split
      · exact plain_ofList.2 (List.forall_mem_append.2
          ⟨List.forall_mem_cons.2 ⟨rfl, List.forall_mem_cons.2 ⟨hpoint, hzeros _⟩⟩, h⟩)
      · refine plain_append.2 ⟨plain_append.2 ⟨plain_ofList.2 (List.forall_mem_append.2
          ⟨htake _, ?_⟩), ?_⟩, ?_⟩
        · split
          · simp
          · exact List.forall_mem_cons.2 ⟨hpoint, hdrop _⟩
        · split <;> decide
        · intro c hc
          rw [Nat.toString_eq_repr, Nat.toList_repr] at hc
          exact isPlain_of_mem_toDigits hc

theorem plain_toString (n : Int) : Plain (toString n) := by
  intro c hc
  rw [toString_toList] at hc
  rcases List.mem_append.1 hc with hc | hc
  · unfold sign at hc
    split at hc
    · rw [List.mem_singleton.1 hc]
      rfl
    · cases hc
  · exact isPlain_of_mem_toDigits hc

theorem plain_binary (b : Binary) : Plain b.text := by
  cases b with
  | nan => decide
  | infinite negative => cases negative <;> decide
  | finite negative m q =>
    rw [Binary.text]
    split
    · decide
    · refine plain_append.2 ⟨?_, plain_layout (fun c hc => ?_) _⟩
      · split <;> decide
      · exact isPlain_of_mem_toDigits (mem_of_mem_dropTrailingZeros hc)

theorem plain_intText (n : Int) : Plain (intText n) := by
  unfold intText
  split
  · exact plain_toString n
  · exact plain_binary _

theorem plain_eighthsText (n : Int) : Plain (eighthsText n) := by
  unfold eighthsText
  split
  · exact plain_intText _
  · exact plain_binary _

theorem plain_dim {d : Dim} {s : String} (hs : d.text = .ok s) : Plain s := by
  cases d with
  | fixed n =>
    simp only [Dim.text, Except.ok.injEq] at hs
    subst hs
    exact plain_append.2 ⟨plain_append.2 ⟨by decide, plain_intText n⟩, by decide⟩
  | dynamic | anyFixed =>
    simp only [Dim.text, Except.ok.injEq] at hs
    subst hs
    decide
  | unknown kind => cases hs

theorem plain_dims {ds : List Dim} {ss : List String}
    (h : List.Forall₂ (fun d s => d.text = .ok s) ds ss) : Plain (String.join ss) := by
  induction h with
  | nil => decide
  | cons hd _ ih =>
    rw [String.join_cons]
    exact plain_append.2 ⟨plain_dim hd, ih⟩

theorem plain_structTag {tag : StructTag} {s : String} (hs : tag.text = .ok s) : Plain s := by
  cases tag with
  | userDefined n =>
    simp only [StructTag.text, Except.ok.injEq] at hs
    subst hs
    exact plain_intText n
  | platform which =>
    simp only [StructTag.text, Except.ok.injEq] at hs
    subst hs
    cases which <;> decide
  | unknown kind => cases hs

theorem plain_bracketed {left right s : String} (hleft : Plain left) (hs : Plain s)
    (hright : Plain right) : Plain (left ++ s ++ right) :=
  plain_append.2 ⟨plain_append.2 ⟨hleft, hs⟩, hright⟩

mutual

theorem plain_ty (t : Ty) {s : String} (hs : t.text = .ok s) : Plain s := by
  match t with
  | .bool =>
    simp only [Ty.text, Except.ok.injEq] at hs
    subst hs
    decide
  | .int n | .uint n =>
    simp only [Ty.text, Except.ok.injEq] at hs
    subst hs
    exact plain_append.2 ⟨by decide, plain_intText n⟩
  | .bytes n =>
    simp only [Ty.text, Except.ok.injEq] at hs
    subst hs
    exact plain_append.2 ⟨by decide, plain_eighthsText n⟩
  | .ptr t | .vector t | .slice t =>
    simp only [Ty.text, bind_eq_ok_iff, pure_eq_ok_iff] at hs
    obtain ⟨r, hr, rfl⟩ := hs
    exact plain_bracketed (by decide) (plain_ty t hr) (by decide)
  | .storagePtr immutable t =>
    simp only [Ty.text, bind_eq_ok_iff, pure_eq_ok_iff] at hs
    obtain ⟨r, hr, rfl⟩ := hs
    exact plain_bracketed (by cases immutable <;> decide) (plain_ty t hr) (by decide)
  | .function ps rs =>
    simp only [Ty.text, bind_eq_ok_iff, pure_eq_ok_iff] at hs
    obtain ⟨ss, hss, ts, hts, rfl⟩ := hs
    exact plain_bracketed
      (plain_bracketed (by decide) (plain_intercalate (by decide) (plain_tys ps hss)) (by decide))
      (plain_intercalate (by decide) (plain_tys rs hts)) (by decide)
  | .mapping k v =>
    simp only [Ty.text, bind_eq_ok_iff, pure_eq_ok_iff] at hs
    obtain ⟨r, hr, r', hr', rfl⟩ := hs
    exact plain_bracketed (plain_bracketed (by decide) (plain_ty k hr) (by decide))
      (plain_ty v hr') (by decide)
  | .array e ds =>
    simp only [Ty.text, bind_eq_ok_iff, pure_eq_ok_iff, mapM_eq_ok_iff] at hs
    obtain ⟨r, hr, rs, hrs, rfl⟩ := hs
    exact plain_append.2 ⟨plain_ty e hr, plain_dims hrs⟩
  | .struct tag =>
    simp only [Ty.text, bind_eq_ok_iff, pure_eq_ok_iff] at hs
    obtain ⟨r, hr, rfl⟩ := hs
    exact plain_append.2 ⟨by decide, plain_structTag hr⟩
  | .unknown kind => cases hs

theorem plain_tys (ts : List Ty) {ss : List String} (hss : Ty.texts ts = .ok ss) :
    ∀ s ∈ ss, Plain s := by
  match ts with
  | [] =>
    simp only [Ty.texts, Except.ok.injEq] at hss
    subst hss
    simp
  | t :: ts =>
    simp only [Ty.texts, bind_eq_ok_iff, pure_eq_ok_iff] at hss
    obtain ⟨s, hs, ss, hss, rfl⟩ := hss
    exact List.forall_mem_cons.2 ⟨plain_ty t hs, plain_tys ts hss⟩

end

theorem plain_hexByte (b : UInt8) : Plain (Bytes.hexByte b) := by
  have hdigit : ∀ n < 16, isPlain (Bytes.hexDigit n) = true := by decide
  have hb := b.toNat_lt
  refine plain_ofList.2 (List.forall_mem_cons.2 ⟨hdigit _ (by omega), ?_⟩)
  exact List.forall_mem_cons.2 ⟨hdigit _ (by omega), by simp⟩

theorem plain_hexBytes {w : String} (hw : Plain w) (bs : Bytes) :
    Plain (w.intercalate (bs.map Bytes.hexByte)) := by
  refine plain_intercalate hw fun s hs => ?_
  obtain ⟨b, -, rfl⟩ := List.mem_map.1 hs
  exact plain_hexByte b

theorem plain_byte (b : UInt8) : Plain (toString b) := by
  intro c hc
  rw [ByteText.eq_toDigits (b := b) rfl] at hc
  exact isPlain_of_mem_toDigits hc

theorem plain_literal {l : Literal} {s : String} (hs : l.text = .ok s) : Plain s := by
  cases l with
  | number t n =>
    simp only [Literal.text, bind_eq_ok_iff, pure_eq_ok_iff] at hs
    obtain ⟨r, hr, rfl⟩ := hs
    exact plain_bracketed (plain_append.2 ⟨plain_ty t hr, by decide⟩) (plain_toString n) (by decide)
  | bool b =>
    simp only [Literal.text, Except.ok.injEq] at hs
    subst hs
    cases b <;> decide

/-! ### Parts -/

/-- A number or a mark that has begun could go on with the character. -/
def joins (c : Char) : Bool := isNumeric c || ['l', 'o', 'c', 'k', '#'].contains c

/-- What may follow a part. -/
def Breaks (u : List Char) : Prop := Stops joins u

theorem breaks_cons {c : Char} {u : List Char} : Breaks (c :: u) ↔ joins c = false := stops_cons

theorem Breaks.stops {u : List Char} (h : Breaks u) : Stops isNumeric u :=
  Stops.mono h fun c hc => by simp [joins, hc]

theorem Mark.closing_mem (mark : Mark) : mark.closing ∈ mark.chars := by cases mark <;> decide

theorem Mark.joins_of_mem_tail (mark : Mark) : ∀ c ∈ mark.chars.tail, joins c = true := by
  have hall : mark.chars.tail.all joins = true := by cases mark <;> decide
  exact List.all_eq_true.1 hall

/-- Without the last character of the mark there is no reference, not even one that begins here and
ends in what follows. -/
theorem referenceAt?_eq_none_of_not_mem {mark : Mark} {c : Char} {s u : List Char}
    (h : mark.closing ∉ c :: s) (hu : Breaks u) : referenceAt? mark (c :: s ++ u) = none := by
  refine if_neg fun hpre => ?_
  have hpre : mark.chars <+: c :: s ++ u := List.isPrefixOf_iff_prefix.1 hpre
  -- the mark stands in the text as a whole, or it goes on into what follows
  rcases List.prefix_or_prefix_of_prefix hpre (List.prefix_append (c :: s) u) with hle | ⟨t, ht⟩
  · exact h (hle.subset mark.closing_mem)
  · rw [← ht, List.prefix_append_right_inj] at hpre
    cases t with
    | nil =>
      rw [List.append_nil] at ht
      exact h (ht ▸ mark.closing_mem)
    | cons d t =>
      obtain ⟨v, rfl⟩ := hpre
      have hd : joins d = true := mark.joins_of_mem_tail d (by simp [← ht])
      rw [List.cons_append, breaks_cons, hd] at hu
      cases hu

theorem references_append_of_not_mem {mark : Mark} {s u : List Char} (h : mark.closing ∉ s)
    (hu : Breaks u) : references mark (s ++ u) = references mark u := by
  induction s with
  | nil => rfl
  | cons c s ih =>
    have hnone := referenceAt?_eq_none_of_not_mem h hu
    exact (references_cons_of_none hnone).trans (ih fun hmem => h (List.mem_cons_of_mem _ hmem))

/-- How an integer is written. -/
def numeral (n : Int) : List Char := (intText n).toList

theorem takeWhile_run {p : Char → Bool} {s u : List Char} (hs : ∀ c ∈ s, p c = true)
    (hu : Stops p u) : (s ++ u).takeWhile p = s := by
  rw [List.takeWhile_append_of_pos hs]
  cases u with
  | nil => simp
  | cons c u => rw [List.takeWhile_cons, stops_cons.1 hu]; simp

theorem number?_numeral {n : Int} (h : IsFloat n) {u : List Char} (hu : Stops isNumeric u) :
    number? (numeral n ++ u) = some (numeral n) := by
  obtain ⟨d, e, -, ⟨c, r, hchars, hc⟩, htext⟩ := exists_chars_of_isFloat h
  have hrun : digits? (chars d e ++ u) = some (chars d e) := by
    unfold digits?
    rw [takeWhile_run (fun _ => isNumeric_of_mem_chars) hu]
    simp [hchars, hc]
  rw [numeral, htext]
  unfold sign
  split
  · show (digits? (chars d e ++ u)).map _ = _
    rw [hrun]
    rfl
  · have hminus : c ≠ '-' := by
      rintro rfl
      cases hc
    rw [List.nil_append]
    unfold number?
    split
    next heq =>
      rw [hchars] at heq
      exact absurd (List.cons.inj heq).1 hminus
    next => exact hrun

/-- A mark with a number behind it. -/
theorem references_mark {mark : Mark} {n : Int} (h : IsFloat n) {u : List Char} (hu : Breaks u) :
    references mark (mark.chars ++ (numeral n ++ u)) = numeral n :: references mark u := by
  have hplain : mark.closing ∉ numeral n := (plain_intText n).closing_not_mem mark
  -- no other reference begins inside the mark or the number
  have hrest : references mark (mark.chars.tail ++ (numeral n ++ u)) = references mark u := by
    rw [references_append_of_silent (by cases mark <;> decide),
      references_append_of_not_mem hplain hu]
  have hat : referenceAt? mark (mark.chars ++ (numeral n ++ u)) = some (numeral n) := by
    rw [referenceAt?, if_pos (by simp), List.drop_left, number?_numeral h hu.stops]
  cases mark with
  | var => exact (congrArg₂ _ (congrArg _ hat) hrest :)
  | block => exact (congrArg₂ _ (congrArg _ hat) hrest :)

/-! ### Putting texts together -/

/-- The references in the text are those to `ids`, in order, if these are floats and what follows
the text satisfies `F`. -/
def Refers (mark : Mark) (F : List Char → Prop) (s : String) (ids : List Int) : Prop :=
  (∀ n ∈ ids, IsFloat n) → ∀ u, F u →
    references mark (s.toList ++ u) = ids.map numeral ++ references mark u

/-- The references in the text are those to `ids`, whatever follows. -/
abbrev RefersAlways (mark : Mark) (s : String) (ids : List Int) : Prop :=
  Refers mark (fun _ => True) s ids

/-- A word without references. -/
def isWord (w : String) : Bool := silent .var w.toList && silent .block w.toList

/-- A word without references at which every part ends. -/
def isSeparator (w : String) : Bool := isWord w && w.toList.head?.any fun c => !joins c

namespace Refers

variable {mark : Mark} {F : List Char → Prop} {s t w : String} {xs ys : List Int}

theorem of_eq (h : Refers mark F s xs) (heq : xs = ys) : Refers mark F s ys := heq ▸ h

theorem weaken (h : RefersAlways mark s xs) : Refers mark F s xs := fun hxs u _ => h hxs u trivial

theorem word (h : isWord w = true) : RefersAlways mark w [] := by
  intro _ u _
  rw [isWord, Bool.and_eq_true] at h
  cases mark with
  | var => exact references_append_of_silent h.1 u
  | block => exact references_append_of_silent h.2 u

theorem plain (h : Plain s) : Refers mark Breaks s [] :=
  fun _ _ hu => references_append_of_not_mem (h.closing_not_mem mark) hu

theorem append (hs : RefersAlways mark s xs) (ht : Refers mark F t ys) :
    Refers mark F (s ++ t) (xs ++ ys) := by
  intro h u hu
  rw [List.forall_mem_append] at h
  rw [String.toList_append, List.append_assoc, hs h.1 _ trivial, ht h.2 u hu, List.map_append,
    List.append_assoc]

/-- A part ends at a separator. -/
theorem close (hs : Refers mark Breaks s xs) (hw : isSeparator w = true) :
    RefersAlways mark (s ++ w) xs := by
  intro h u _
  rw [isSeparator, Bool.and_eq_true] at hw
  have hbreak : Breaks (w.toList ++ u) := by
    obtain ⟨c, hc, hjoins⟩ := (Option.any_eq_true ..).1 hw.2
    obtain ⟨r, hr⟩ := List.head?_eq_some_iff.1 hc
    rw [hr, List.cons_append, breaks_cons]
    simpa using hjoins
  have hword : references mark (w.toList ++ u) = references mark u := word hw.1 (by simp) u trivial
  rw [String.toList_append, List.append_assoc, hs h _ hbreak, hword]

/-- Parts with separators between them. -/
theorem intercalate {α : Type} {f : α → List Int} {as : List α} {ss : List String}
    (hw : isSeparator w = true)
    (h : List.Forall₂ (fun a s => Refers mark Breaks s (f a)) as ss) :
    Refers mark Breaks (w.intercalate ss) (as.flatMap f) := by
  induction h with
  | nil => exact plain (by simp [Plain])
  | @cons a s as ss ha hrest ih =>
    cases hrest with
    | nil => simpa using ha
    | cons _ _ =>
      rw [String.intercalate_cons_cons]
      exact (ha.close hw).append ih

end Refers

/-! ### The numbers that a text names -/

/-- The references in the text are those to `ids`. -/
def Names (mark : Mark) (s : String) (ids : List Int) : Prop :=
  (∀ n ∈ ids, IsFloat n) ∧ references mark s.toList = ids.map numeral

theorem Refers.names {mark : Mark} {s : String} {ids : List Int} (h : RefersAlways mark s ids)
    (hids : ∀ n ∈ ids, IsFloat n) : Names mark s ids := by
  have hrefs := h hids [] trivial
  rw [List.append_nil] at hrefs
  exact ⟨hids, hrefs.trans (List.append_nil _)⟩

theorem numeral_inj {m n : Int} (hm : IsFloat m) (hn : IsFloat n) (h : numeral m = numeral n) :
    m = n := by
  have hstop : Stops isNumeric [] := by simp [Stops]
  exact (reads_intText m ⟨hm, rfl⟩ ⟨hn, rfl⟩ hstop hstop (congrArg (· ++ []) h)).1

/-- A text names at most one list of numbers. -/
theorem Names.eq {mark : Mark} {s : String} {xs ys : List Int} (hxs : Names mark s xs)
    (hys : Names mark s ys) : xs = ys := by
  obtain ⟨hx, hrefs⟩ := hxs
  obtain ⟨hy, hrefs'⟩ := hys
  have heq := hrefs.symm.trans hrefs'
  clear hrefs hrefs'
  induction xs generalizing ys with
  | nil => simpa [eq_comm] using heq
  | cons m xs ih =>
    cases ys with
    | nil => cases heq
    | cons n ys =>
      rw [List.forall_mem_cons] at hx hy
      obtain ⟨hhead, htail⟩ := List.cons.inj heq
      rw [numeral_inj hx.1 hy.1 hhead, ih hx.2 hy.2 htail]

end ContractIR.Text
