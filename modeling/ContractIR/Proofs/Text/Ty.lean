import ContractIR.Proofs.Decimal.Whole
import ContractIR.Proofs.Except
import ContractIR.Ty.Printer

/-!
# ContractIR.Proofs.Text.Ty — types can be told from their texts

The text of a type is a word, what belongs to it, and the dimensions.  The word tells the kind of
the type below its dimensions, and the dimensions end where no further one follows.

* `Text.reads_ty`: the type and where its text ends, if what follows is no part of it.
* `Ty.text_eq_iff_equals`: the texts are the same exactly if the types are equal.
-/

namespace ContractIR

open Decimal

/-! ### Regular types -/

/-- The length, if there is one, is a float. -/
def Dim.Regular : Dim → Prop
  | fixed length => IsFloat length
  | _ => True

/-- The number, if there is one, is a float. -/
def StructTag.Regular : StructTag → Prop
  | userDefined id => IsFloat id
  | _ => True

/-- Widths, lengths and numbers are whole floats, and an array has at least one dimension and an
element that is no array. -/
inductive Ty.Regular : Ty → Prop
  | bool : Regular .bool
  | int {width : Int} : IsFloat width → Regular (.int width)
  | uint {width : Int} : IsFloat width → Regular (.uint width)
  | byteArray {n : Int} : IsFloat n → Regular (.byteArray n)
  | ptr {t : Ty} : Regular t → Regular (.ptr t)
  | storagePtr {immutable : Bool} {t : Ty} : Regular t → Regular (.storagePtr immutable t)
  | function {params returns : List Ty} : (∀ t ∈ params, Regular t) → (∀ t ∈ returns, Regular t) →
      Regular (.function params returns)
  | mapping {key value : Ty} : Regular key → Regular value → Regular (.mapping key value)
  | array {t : Ty} {dims : List Dim} : Regular t → (∀ t' dims', t ≠ .array t' dims') → dims ≠ [] →
      (∀ d ∈ dims, d.Regular) → Regular (.array t dims)
  | struct {tag : StructTag} : tag.Regular → Regular (.struct tag)
  | vector {t : Ty} : Regular t → Regular (.vector t)
  | slice {t : Ty} : Regular t → Regular (.slice t)

namespace Text

/-! ### Dimensions -/

/-- The text of a dimension. -/
inductive DimText : Dim → List Char → Prop
  | fixed {n : Int} : IsFloat n → DimText (.fixed n) ('[' :: (intText n).toList ++ [']'])
  | dynamic : DimText .dynamic ['[', ']']
  | anyFixed : DimText .anyFixed ['[', '?', ']']

theorem reads_dim : Reads DimText fun _ => True := by
  intro a b s t u v hs ht _ _ h
  cases hs with
  | fixed hn =>
    cases ht with
    | fixed hm =>
      simp only [List.cons_append, List.append_assoc, List.cons.injEq, true_and] at h
      obtain ⟨rfl, hrest⟩ := reads_intText _ ⟨hn, rfl⟩ ⟨hm, rfl⟩ (stops_cons.2 rfl)
        (stops_cons.2 rfl) h
      exact ⟨rfl, (List.cons.inj hrest).2⟩
    | _ =>
      simp only [List.cons_append, List.append_assoc, List.cons.injEq, true_and] at h
      exact absurd h (intText_append_ne_cons hn rfl)
  | dynamic =>
    cases ht with
    | fixed hm =>
      simp only [List.cons_append, List.append_assoc, List.cons.injEq, true_and] at h
      exact absurd h.symm (intText_append_ne_cons hm rfl)
    | dynamic => exact ⟨rfl, List.append_cancel_left h⟩
    | anyFixed => simp at h
  | anyFixed =>
    cases ht with
    | fixed hm =>
      simp only [List.cons_append, List.append_assoc, List.cons.injEq, true_and] at h
      exact absurd h.symm (intText_append_ne_cons hm rfl)
    | dynamic => simp at h
    | anyFixed => exact ⟨rfl, List.append_cancel_left h⟩

/-! ### Keywords -/

/-- A character of the word that begins a type. -/
def isLetter (c : Char) : Bool := c.isAlpha || c == '_' || c == '.'

/-- A character of the word that begins a type, or of the number behind it. -/
def isTypeChar (c : Char) : Bool := isLetter c || isNumeric c

theorem Stops.isLetter {u : List Char} (h : Stops isTypeChar u) : Stops isLetter u :=
  h.mono fun c hc => by simp [isTypeChar, hc]

theorem Stops.isNumeric {u : List Char} (h : Stops isTypeChar u) : Stops isNumeric u :=
  h.mono fun c hc => by simp [isTypeChar, hc]

/-- What may follow a type: neither more of it nor another dimension. -/
structure EndsType (u : List Char) : Prop where
  stops : Stops isTypeChar u
  noDim : ∀ {d s v}, DimText d s → u ≠ s ++ v

/-- The text of a regular type. -/
def TyText (t : Ty) (s : List Char) : Prop := t.Regular ∧ ∃ r, t.text = .ok r ∧ r.toList = s

/-- The words that begin a type. -/
inductive Keyword
  | bool
  | int
  | uint
  | bytes
  | ptr
  | storagePtr (immutable : Bool)
  | function
  | mapping
  | struct
  | platform (which : PlatformStruct)
  | vector
  | slice
deriving DecidableEq

/-- The letters of a word. -/
def Keyword.text : Keyword → String
  | bool => "bool"
  | int => "int"
  | uint => "uint"
  | bytes => "bytes"
  | ptr => "ptr"
  | storagePtr immutable => if immutable then "const_storage_ptr" else "storage_ptr"
  | function => "fn"
  | mapping => "mapping"
  | struct => "struct."
  | platform which => "struct." ++ which.text
  | vector => "struct.vector"
  | slice => "slice"

/-- The text of a type that is no array: a word and what belongs to it. -/
inductive BaseText : Ty → Keyword → List Char → Prop
  | bool : BaseText .bool .bool []
  | int {n : Int} : IsFloat n → BaseText (.int n) .int (intText n).toList
  | uint {n : Int} : IsFloat n → BaseText (.uint n) .uint (intText n).toList
  | byteArray {n : Int} : IsFloat n → BaseText (.byteArray n) .bytes (intText n).toList
  | ptr {t : Ty} {s : List Char} : TyText t s → BaseText (.ptr t) .ptr ('<' :: s ++ ['>'])
  | storagePtr {b : Bool} {t : Ty} {s : List Char} : TyText t s →
      BaseText (.storagePtr b t) (.storagePtr b) ('<' :: s ++ ['>'])
  | function {params returns : List Ty} {s t : List Char} : Joined ", ".toList TyText params s →
      Joined ", ".toList TyText returns t →
      BaseText (.function params returns) .function ('(' :: s ++ ") -> (".toList ++ t ++ [')'])
  | mapping {k v : Ty} {s t : List Char} : TyText k s → TyText v t →
      BaseText (.mapping k v) .mapping ('<' :: s ++ " -> ".toList ++ t ++ ['>'])
  | struct {n : Int} : IsFloat n → BaseText (.struct (.userDefined n)) .struct (intText n).toList
  | platform {which : PlatformStruct} :
      BaseText (.struct (.platform which)) (.platform which) []
  | vector {t : Ty} {s : List Char} : TyText t s → BaseText (.vector t) .vector ('<' :: s ++ ['>'])
  | slice {t : Ty} {s : List Char} : TyText t s → BaseText (.slice t) .slice ('<' :: s ++ ['>'])

/-- All words. -/
def Keyword.all : List Keyword :=
  [bool, int, uint, bytes, ptr, storagePtr true, storagePtr false, function, mapping, struct,
    platform .accountInfo, platform .accountMeta, platform .parameters, platform .externalFunction,
    vector, slice]

theorem Keyword.mem_all (w : Keyword) : w ∈ all := by
  cases w with
  | storagePtr immutable => cases immutable <;> decide
  | platform which => cases which <;> decide
  | _ => decide

/-- The letters tell the word. -/
theorem Keyword.text_inj {w w' : Keyword} (h : w.text.toList = w'.text.toList) : w = w' := by
  have hall : ∀ w ∈ all, ∀ w' ∈ all, w.text = w'.text → w = w' := by decide +kernel
  exact hall w w.mem_all w' w'.mem_all (String.toList_inj.1 h)

theorem Keyword.isLetter_of_mem {w : Keyword} {c : Char} (hc : c ∈ w.text.toList) :
    isLetter c = true := by
  have hall : ∀ w ∈ all, w.text.toList.all isLetter = true := by decide +kernel
  exact List.all_eq_true.1 (hall w w.mem_all) c hc

theorem isLetter_of_isDigit {c : Char} (h : c.isDigit = true) : isLetter c = false := by
  have hunder : (c == '_') = false := beq_eq_false_iff_ne.2 (by rintro rfl; cases h)
  have hpoint : (c == '.') = false := beq_eq_false_iff_ne.2 (by rintro rfl; cases h)
  have halpha : c.isAlpha = false := by
    simp only [Char.isDigit, Bool.and_eq_true, decide_eq_true_eq] at h
    change (decide (c.val ≥ 'A'.val ∧ c.val ≤ 'Z'.val) ||
      (c.val ≥ 'a'.val && c.val ≤ 'z'.val)) = false
    grind
  rw [isLetter, halpha, hunder, hpoint]
  rfl

theorem stops_intText {n : Int} (h : IsFloat n) (u : List Char) :
    Stops isLetter ((intText n).toList ++ u) := by
  obtain ⟨c, r, hr, hc⟩ := intText_head h
  rw [hr, List.cons_append, stops_cons]
  rcases Bool.or_eq_true_iff.1 hc with hc | hc
  · exact isLetter_of_isDigit hc
  · rw [beq_iff_eq.1 hc]
    rfl

/-- The word ends where what belongs to the type begins. -/
theorem BaseText.stops {t : Ty} {w : Keyword} {r u : List Char} (h : BaseText t w r)
    (hu : Stops isTypeChar u) : Stops isLetter (r ++ u) := by
  cases h with
  | bool | platform => exact hu.isLetter
  | int hn | uint hn | byteArray hn | struct hn => exact stops_intText hn u
  | ptr _ | storagePtr _ | function _ _ | mapping _ _ | vector _ | slice _ => simp [isLetter]

theorem texts_eq_ok_iff {ts : List Ty} {ss : List String} :
    Ty.texts ts = .ok ss ↔ List.Forall₂ (fun t s => t.text = .ok s) ts ss := by
  induction ts generalizing ss with
  | nil => simp [Ty.texts, eq_comm]
  | cons t ts ih =>
    simp only [Ty.texts, bind_eq_ok_iff, pure_eq_ok_iff, List.forall₂_cons_left_iff, ih]
    constructor
    · rintro ⟨s, hs, ss, hss, rfl⟩
      exact ⟨s, ss, hs, hss, rfl⟩
    · rintro ⟨s, ss, hs, hss, rfl⟩
      exact ⟨s, hs, ss, hss, rfl⟩

/-- The text of a list from the texts of its members. -/
theorem joined_of_forall₂ {α : Type} {P : α → List Char → Prop} {f : α → Except Diagnostic String}
    {as : List α} {ss : List String} (h : List.Forall₂ (fun a s => f a = .ok s) as ss)
    (hP : ∀ a ∈ as, ∀ s, f a = .ok s → P a s.toList) (sep : String) :
    Joined sep.toList P as (sep.intercalate ss).toList := by
  refine ⟨ss.map String.toList, ?_, by simp⟩
  rw [List.forall₂_map_right_iff]
  exact ((List.forall₂_and_left as ss).2 ⟨hP, h⟩).imp fun a s has => has.1 s has.2

theorem eighthsText_mul (n : Int) : eighthsText (8 * n) = intText n := by
  have hwhole : 8 * n % 8 = 0 := by omega
  have hquot : 8 * n / 8 = n := by omega
  rw [eighthsText, if_pos hwhole, hquot]

/-- A type that is no array begins with its word. -/
theorem exists_baseText {t : Ty} {s : String} (h : t.Regular) (hbase : ∀ e ds, t ≠ .array e ds)
    (hs : t.text = .ok s) : ∃ w r, BaseText t w r ∧ s.toList = w.text.toList ++ r := by
  cases h with
  | bool =>
    simp only [Ty.text, Except.ok.injEq] at hs
    subst hs
    exact ⟨_, _, .bool, by simp [Keyword.text]⟩
  | int hn =>
    simp only [Ty.text, Except.ok.injEq] at hs
    subst hs
    exact ⟨_, _, .int hn, by rw [String.toList_append, Keyword.text]⟩
  | uint hn =>
    simp only [Ty.text, Except.ok.injEq] at hs
    subst hs
    exact ⟨_, _, .uint hn, by rw [String.toList_append, Keyword.text]⟩
  | byteArray hn =>
    simp only [Ty.byteArray, Ty.text, eighthsText_mul, Except.ok.injEq] at hs
    subst hs
    exact ⟨_, _, .byteArray hn, by rw [String.toList_append, Keyword.text]⟩
  | ptr ht =>
    simp only [Ty.text, bind_eq_ok_iff, pure_eq_ok_iff] at hs
    obtain ⟨r, hr, rfl⟩ := hs
    exact ⟨_, _, .ptr ⟨ht, r, hr, rfl⟩, by simp [Keyword.text]⟩
  | @storagePtr immutable _ ht =>
    simp only [Ty.text, bind_eq_ok_iff, pure_eq_ok_iff] at hs
    obtain ⟨r, hr, rfl⟩ := hs
    refine ⟨_, _, .storagePtr ⟨ht, r, hr, rfl⟩, ?_⟩
    cases immutable <;> simp [Keyword.text]
  | function hps hrs =>
    simp only [Ty.text, bind_eq_ok_iff, pure_eq_ok_iff, texts_eq_ok_iff] at hs
    obtain ⟨ps, hps', rs, hrs', rfl⟩ := hs
    refine ⟨_, _, .function (joined_of_forall₂ hps' (fun t ht r hr => ⟨hps t ht, r, hr, rfl⟩) ", ")
      (joined_of_forall₂ hrs' (fun t ht r hr => ⟨hrs t ht, r, hr, rfl⟩) ", "), ?_⟩
    simp [Keyword.text]
  | mapping hk hv =>
    simp only [Ty.text, bind_eq_ok_iff, pure_eq_ok_iff] at hs
    obtain ⟨k, hk', v, hv', rfl⟩ := hs
    exact ⟨_, _, .mapping ⟨hk, k, hk', rfl⟩ ⟨hv, v, hv', rfl⟩, by simp [Keyword.text]⟩
  | array _ _ _ _ => exact absurd rfl (hbase _ _)
  | @struct tag htag =>
    simp only [Ty.text, bind_eq_ok_iff, pure_eq_ok_iff] at hs
    obtain ⟨r, hr, rfl⟩ := hs
    cases tag with
    | userDefined n =>
      simp only [StructTag.text, Except.ok.injEq] at hr
      subst hr
      exact ⟨_, _, .struct htag, by simp [Keyword.text]⟩
    | platform which =>
      simp only [StructTag.text, Except.ok.injEq] at hr
      subst hr
      exact ⟨_, _, .platform, by simp [Keyword.text]⟩
    | unknown kind => cases hr
  | vector ht =>
    simp only [Ty.text, bind_eq_ok_iff, pure_eq_ok_iff] at hs
    obtain ⟨r, hr, rfl⟩ := hs
    exact ⟨_, _, .vector ⟨ht, r, hr, rfl⟩, by simp [Keyword.text]⟩
  | slice ht =>
    simp only [Ty.text, bind_eq_ok_iff, pure_eq_ok_iff] at hs
    obtain ⟨r, hr, rfl⟩ := hs
    exact ⟨_, _, .slice ⟨ht, r, hr, rfl⟩, by simp [Keyword.text]⟩

/-! ### Types below their dimensions -/

end Text

/-- The type below the dimensions. -/
def Ty.base : Ty → Ty
  | array element _ => element
  | t => t

/-- The dimensions of the type. -/
def Ty.dims : Ty → List Dim
  | array _ dimensions => dimensions
  | _ => []

/-- The types that the type is built from. -/
def Ty.parts : Ty → List Ty
  | ptr t | storagePtr _ t | vector t | slice t => [t]
  | function params returns => params ++ returns
  | mapping key value => [key, value]
  | _ => []

/-- A type is an array, or lies below no dimensions. -/
theorem Ty.array_or_base (t : Ty) :
    (∃ e ds, t = .array e ds) ∨ t.base = t ∧ t.dims = [] ∧ ∀ e ds, t ≠ .array e ds := by
  cases t with
  | array e ds => exact .inl ⟨e, ds, rfl⟩
  | _ => exact .inr ⟨rfl, rfl, nofun⟩

theorem Ty.Regular.dims_ne_nil {e : Ty} {ds : List Dim} (h : (Ty.array e ds).Regular) :
    ds ≠ [] := by
  cases h with
  | array _ _ hne _ => exact hne

theorem Ty.Regular.eq_of_base_of_dims {t t' : Ty} (h : t.Regular) (h' : t'.Regular)
    (hbase : t.base = t'.base) (hdims : t.dims = t'.dims) : t = t' := by
  rcases t.array_or_base with ⟨e, ds, rfl⟩ | ⟨ht, hnil, -⟩ <;>
    rcases t'.array_or_base with ⟨e', ds', rfl⟩ | ⟨ht', hnil', -⟩
  · exact congrArg₂ Ty.array hbase hdims
  · exact absurd (hdims.trans hnil') h.dims_ne_nil
  · exact absurd (hdims.symm.trans hnil) h'.dims_ne_nil
  · rw [← ht, hbase, ht']

namespace Text

theorem dimText_of_text {d : Dim} {s : String} (h : d.Regular) (hs : d.text = .ok s) :
    DimText d s.toList := by
  cases d with
  | fixed n =>
    simp only [Dim.text, Except.ok.injEq] at hs
    subst hs
    simpa using DimText.fixed h
  | dynamic =>
    simp only [Dim.text, Except.ok.injEq] at hs
    subst hs
    simpa using DimText.dynamic
  | anyFixed =>
    simp only [Dim.text, Except.ok.injEq] at hs
    subst hs
    simpa using DimText.anyFixed
  | unknown kind => cases hs

/-- The text of a type is its word, what belongs to it, and the dimensions. -/
theorem TyText.split {t : Ty} {s : List Char} (h : TyText t s) :
    ∃ w r d, BaseText t.base w r ∧ Chained DimText t.dims d ∧ s = w.text.toList ++ r ++ d := by
  obtain ⟨hreg, s, hs, rfl⟩ := h
  rcases t.array_or_base with ⟨e, ds, rfl⟩ | ⟨hbase, hdims, hne⟩
  · cases hreg with
    | array he hne _ hds =>
      simp only [Ty.text, bind_eq_ok_iff, pure_eq_ok_iff, mapM_eq_ok_iff] at hs
      obtain ⟨r, hr, rs, hrs, rfl⟩ := hs
      obtain ⟨w, r', hw, hr'⟩ := exists_baseText he hne hr
      refine ⟨w, r', (rs.map String.toList).flatten, hw, ⟨_, ?_, rfl⟩, ?_⟩
      · rw [List.forall₂_map_right_iff]
        exact ((List.forall₂_and_left ds rs).2 ⟨hds, hrs⟩).imp
          fun d s hd => dimText_of_text hd.1 hd.2
      · rw [String.toList_append, String.toList_join, hr', List.flatMap]
  · obtain ⟨w, r, hw, hr⟩ := exists_baseText hreg hne hs
    exact ⟨w, r, [], hbase.symm ▸ hw, hdims.symm ▸ ⟨[], .nil, rfl⟩, by rw [hr, List.append_nil]⟩

/-- The type can be told from its text, if what follows is no part of its word or number. -/
def BaseReads (t : Ty) : Prop :=
  ∀ {t' : Ty} {w : Keyword} {r r' u v : List Char}, BaseText t w r → BaseText t' w r' →
    Stops isTypeChar u → Stops isTypeChar v → r ++ u = r' ++ v → t = t' ∧ u = v

theorem stops_dims {ds : List Dim} {d u : List Char} (hd : Chained DimText ds d)
    (hu : Stops isTypeChar u) : Stops isTypeChar (d ++ u) := by
  obtain ⟨ss, hss, rfl⟩ := hd
  cases hss with
  | nil => exact hu
  | cons hd _ => cases hd <;> simp [isTypeChar, isLetter, isNumeric]

theorem readsAt_of_baseReads {t : Ty} (hbase : BaseReads t.base) : ReadsAt TyText EndsType t := by
  intro t' s s' u v hs hs' hu hv h
  obtain ⟨w, r, d, hw, hd, rfl⟩ := hs.split
  obtain ⟨w', r', d', hw', hd', rfl⟩ := hs'.split
  have hstop := stops_dims hd hu.stops
  have hstop' := stops_dims hd' hv.stops
  simp only [List.append_assoc] at h
  obtain ⟨hword, hrest⟩ := run_inj (fun c => Keyword.isLetter_of_mem)
    (fun c => Keyword.isLetter_of_mem) (hw.stops hstop) (hw'.stops hstop') h
  obtain rfl := Keyword.text_inj hword
  obtain ⟨heq, hrest⟩ := hbase hw hw' hstop hstop' hrest
  have hnext : ∀ {d s u}, DimText d s → ¬ EndsType (s ++ u) := fun hs hu => hu.noDim hs rfl
  obtain ⟨hdims, rfl⟩ := reads_chained reads_dim hnext _ hd hd' hu hv hrest
  exact ⟨hs.1.eq_of_base_of_dims hs'.1 heq hdims, rfl⟩

theorem endsType_cons {c : Char} {u : List Char} (hc : isTypeChar c = false) (hne : c ≠ '[') :
    EndsType (c :: u) := by
  refine ⟨stops_cons.2 hc, fun hd h => hne ?_⟩
  cases hd <;> exact (List.cons.inj h).1

/-- A bracket is no dimension if no number, closing bracket or question mark stands behind it. -/
theorem endsType_bracket {c : Char} {u : List Char} (hc : (c.isDigit || c == '-') = false)
    (hclose : c ≠ ']') (hany : c ≠ '?') : EndsType ('[' :: c :: u) := by
  refine ⟨stops_cons.2 rfl, fun hd h => ?_⟩
  cases hd with
  | fixed hn =>
    simp only [List.cons_append, List.append_assoc, List.cons.injEq, true_and] at h
    exact absurd h.symm (intText_append_ne_cons hn hc)
  | dynamic => simp [hclose] at h
  | anyFixed => simp [hany] at h

/-! ### Reading types -/

theorem readsAt_bracketed {t t' : Ty} {s s' u v : List Char} (ht : ReadsAt TyText EndsType t)
    (hs : TyText t s) (hs' : TyText t' s') (h : '<' :: s ++ ['>'] ++ u = '<' :: s' ++ ['>'] ++ v) :
    t = t' ∧ u = v := by
  simp only [List.cons_append, List.append_assoc, List.cons.injEq, true_and] at h
  obtain ⟨rfl, hrest⟩ := ht hs hs' (endsType_cons rfl (by decide)) (endsType_cons rfl (by decide)) h
  exact ⟨rfl, (List.cons.inj hrest).2⟩

theorem TyText.head {t : Ty} {s : List Char} (h : TyText t s) :
    ∃ c r, s = c :: r ∧ isLetter c = true := by
  obtain ⟨w, r, d, -, -, rfl⟩ := h.split
  have hall : ∀ w ∈ Keyword.all, w.text.toList ≠ [] := by decide +kernel
  obtain ⟨c, l, hl⟩ := List.exists_cons_of_ne_nil (hall w w.mem_all)
  exact ⟨c, l ++ r ++ d, by rw [hl]; rfl, Keyword.isLetter_of_mem (w := w) (by simp [hl])⟩

/-- A list of types can be told from its text, if a bracket follows. -/
theorem readsAt_types {ts : List Ty} (hts : ∀ t ∈ ts, ReadsAt TyText EndsType t) :
    ReadsAt (Joined ", ".toList TyText) (fun u => ∃ w, u = ')' :: w) ts := by
  refine readsAt_joined (G := fun u => ∃ w, u = ')' :: w) hts
    (fun u => endsType_cons rfl (by decide)) ?_ ?_
  · rintro _ ⟨w, rfl⟩
    exact ⟨endsType_cons rfl (by decide), by simp⟩
  · rintro t s u hs ⟨w, hw⟩
    obtain ⟨c, r, rfl, hc⟩ := hs.head
    obtain ⟨rfl, -⟩ := List.cons.inj hw
    cases hc

/-- A type that is no array can be told from its text, if its parts can. -/
theorem baseReads_of_parts {t : Ty} (hparts : ∀ p ∈ t.parts, ReadsAt TyText EndsType p) :
    BaseReads t := by
  intro t' w r r' u v hr hr' hu hv h
  cases hr with
  | bool | platform =>
    cases hr'
    exact ⟨rfl, h⟩
  | int hn | uint hn | byteArray hn | struct hn =>
    cases hr'
    next hm =>
      obtain ⟨rfl, rfl⟩ := reads_intText _ ⟨hn, rfl⟩ ⟨hm, rfl⟩ hu.isNumeric hv.isNumeric h
      exact ⟨rfl, rfl⟩
  | ptr hs | storagePtr hs | vector hs | slice hs =>
    cases hr'
    next hs' =>
      obtain ⟨rfl, rfl⟩ := readsAt_bracketed (hparts _ (by simp [Ty.parts])) hs hs' h
      exact ⟨rfl, rfl⟩
  | mapping hk hx =>
    cases hr' with
    | mapping hk' hx' =>
      simp only [String.reduceToList, List.cons_append, List.nil_append, List.append_assoc,
        List.cons.injEq, true_and] at h
      obtain ⟨rfl, hrest⟩ := hparts _ (by simp [Ty.parts]) hk hk'
        (endsType_cons rfl (by decide)) (endsType_cons rfl (by decide)) h
      simp only [List.cons.injEq, true_and] at hrest
      obtain ⟨rfl, hrest⟩ := hparts _ (by simp [Ty.parts]) hx hx'
        (endsType_cons rfl (by decide)) (endsType_cons rfl (by decide)) hrest
      exact ⟨rfl, (List.cons.inj hrest).2⟩
  | function hps hrs =>
    cases hr' with
    | function hps' hrs' =>
      simp only [String.reduceToList, List.cons_append, List.nil_append, List.append_assoc,
        List.cons.injEq, true_and] at h
      obtain ⟨rfl, hrest⟩ := readsAt_types (fun t ht => hparts t (by simp [Ty.parts, ht])) hps hps'
        ⟨_, rfl⟩ ⟨_, rfl⟩ h
      simp only [List.cons.injEq, true_and] at hrest
      obtain ⟨rfl, hrest⟩ := readsAt_types (fun t ht => hparts t (by simp [Ty.parts, ht])) hrs hrs'
        ⟨_, rfl⟩ ⟨_, rfl⟩ hrest
      exact ⟨rfl, (List.cons.inj hrest).2⟩

theorem baseReads_of_regular {t : Ty} (h : t.Regular) : BaseReads t.base := by
  induction h with
  | bool | int _ | uint _ | byteArray _ | struct _ =>
    exact baseReads_of_parts fun p hp => absurd hp List.not_mem_nil
  | ptr _ ih | storagePtr _ ih | vector _ ih | slice _ ih =>
    refine baseReads_of_parts fun p hp => ?_
    rw [List.mem_singleton.1 hp]
    exact readsAt_of_baseReads ih
  | mapping _ _ ihk ihv =>
    refine baseReads_of_parts fun p hp => ?_
    rcases List.mem_pair.1 hp with rfl | rfl
    · exact readsAt_of_baseReads ihk
    · exact readsAt_of_baseReads ihv
  | function _ _ ihp ihr =>
    refine baseReads_of_parts fun p hp => ?_
    rcases List.mem_append.1 hp with hp | hp
    · exact readsAt_of_baseReads (ihp p hp)
    · exact readsAt_of_baseReads (ihr p hp)
  | @array e ds _ hne _ _ ih =>
    rcases e.array_or_base with ⟨e', ds', rfl⟩ | ⟨hbase, -, -⟩
    · exact absurd rfl (hne e' ds')
    · exact hbase ▸ ih

/-- Types can be told from their texts. -/
theorem reads_ty : Reads TyText EndsType := by
  intro t t' s s' u v hs
  exact readsAt_of_baseReads (baseReads_of_regular hs.1) hs

theorem endsType_nil : EndsType [] := by
  refine ⟨by simp [Stops], fun hd h => ?_⟩
  cases hd <;> cases h

end Text

/-! ### Texts and equality -/

/-- The dimension is of a kind that has a text. -/
def Dim.isKnown : Dim → Bool
  | unknown _ => false
  | _ => true

/-- The structure is of a kind that has a text. -/
def StructTag.isKnown : StructTag → Bool
  | unknown _ => false
  | _ => true

theorem Dim.exists_text {d : Dim} (h : d.isKnown = true) : ∃ s, d.text = .ok s := by
  cases d with
  | unknown kind => cases h
  | fixed _ | dynamic | anyFixed => exact ⟨_, rfl⟩

theorem StructTag.exists_text {tag : StructTag} (h : tag.isKnown = true) :
    ∃ s, tag.text = .ok s := by
  cases tag with
  | unknown kind => cases h
  | userDefined _ | platform _ => exact ⟨_, rfl⟩

namespace Ty

mutual

/-- The type and all that it is built from are of kinds that have texts. -/
def isKnown : Ty → Bool
  | bool | int _ | uint _ | bytes _ => true
  | ptr t | storagePtr _ t | vector t | slice t => t.isKnown
  | function params returns => allKnown params && allKnown returns
  | mapping key value => key.isKnown && value.isKnown
  | array element dims => element.isKnown && dims.all Dim.isKnown
  | struct tag => tag.isKnown
  | unknown _ => false

/-- Every type of the list is of a kind that has a text. -/
def allKnown : List Ty → Bool
  | [] => true
  | t :: ts => t.isKnown && allKnown ts

end

mutual

/-- A type of a known kind has a text. -/
theorem exists_text (t : Ty) (h : t.isKnown = true) : ∃ s, t.text = .ok s := by
  match t with
  | .bool | .int _ | .uint _ | .bytes _ => exact ⟨_, rfl⟩
  | .ptr t | .storagePtr _ t | .vector t | .slice t =>
    obtain ⟨s, hs⟩ := exists_text t h
    exact ⟨_, by rw [text, hs]; rfl⟩
  | .function params returns =>
    obtain ⟨hps, hrs⟩ := Bool.and_eq_true_iff.1 h
    obtain ⟨ps, hps⟩ := exists_texts params hps
    obtain ⟨rs, hrs⟩ := exists_texts returns hrs
    exact ⟨_, by rw [text, hps, hrs]; rfl⟩
  | .mapping key value =>
    obtain ⟨hk, hv⟩ := Bool.and_eq_true_iff.1 h
    obtain ⟨k, hk⟩ := exists_text key hk
    obtain ⟨v, hv⟩ := exists_text value hv
    exact ⟨_, by rw [text, hk, hv]; rfl⟩
  | .array element dims =>
    obtain ⟨he, hds⟩ := Bool.and_eq_true_iff.1 h
    obtain ⟨e, he⟩ := exists_text element he
    obtain ⟨ds, hds⟩ := exists_mapM_eq_ok fun d hd => Dim.exists_text (List.all_eq_true.1 hds d hd)
    exact ⟨_, by rw [text, he, hds]; rfl⟩
  | .struct tag =>
    obtain ⟨s, hs⟩ := StructTag.exists_text h
    exact ⟨_, by rw [text, hs]; rfl⟩
  | .unknown _ => cases h

theorem exists_texts (ts : List Ty) (h : allKnown ts = true) : ∃ ss, texts ts = .ok ss := by
  match ts with
  | [] => exact ⟨_, rfl⟩
  | t :: ts =>
    obtain ⟨ht, hts⟩ := Bool.and_eq_true_iff.1 h
    obtain ⟨s, hs⟩ := exists_text t ht
    obtain ⟨ss, hss⟩ := exists_texts ts hts
    exact ⟨_, by rw [texts, hs, hss]; rfl⟩

end

/-- Regular types of known kinds have texts, and the texts are the same exactly if the types are
equal. -/
theorem text_eq_iff_equals {a b : Ty} (ha : a.Regular) (hb : b.Regular) (hka : a.isKnown = true)
    (hkb : b.isKnown = true) :
    ∃ s r, a.text = .ok s ∧ b.text = .ok r ∧ (s = r ↔ a.equals b = true) := by
  obtain ⟨s, hs⟩ := a.exists_text hka
  obtain ⟨r, hr⟩ := b.exists_text hkb
  refine ⟨s, r, hs, hr, ?_⟩
  rw [equals_iff]
  constructor
  · rintro rfl
    have hread := Text.reads_ty a ⟨ha, s, hs, rfl⟩ ⟨hb, s, hr, rfl⟩ Text.endsType_nil
      Text.endsType_nil rfl
    exact hread.1
  · rintro rfl
    exact Except.ok.inj (hs.symm.trans hr)

/-- An array of functions and a function that returns an array, told apart by one bracket. -/
theorem text_eq_iff_equals_brackets :
    let a := ptr (.array (.function [] [.bool]) [.dynamic])
    let b := ptr (.function [] [.array .bool [.dynamic]])
    a.text = .ok "ptr<fn() -> (bool)[]>" ∧ b.text = .ok "ptr<fn() -> (bool[])>" ∧
      a.Regular ∧ b.Regular ∧ a.isKnown = true ∧ b.isKnown = true ∧ a.equals b = false := by
  intro a b
  have hdims : ∀ d ∈ [Dim.dynamic], d.Regular := by
    intro d hd
    rw [List.mem_singleton.1 hd]
    trivial
  have hbool : ∀ t ∈ [Ty.bool], t.Regular := by
    intro t ht
    rw [List.mem_singleton.1 ht]
    exact .bool
  have ha : a.Regular := .ptr (.array (.function (by simp) hbool) nofun (by simp) hdims)
  have hb : b.Regular := by
    refine .ptr (.function (by simp) fun t ht => ?_)
    rw [List.mem_singleton.1 ht]
    exact .array .bool nofun (by simp) hdims
  have hta : a.text = .ok "ptr<fn() -> (bool)[]>" := rfl
  have htb : b.text = .ok "ptr<fn() -> (bool[])>" := rfl
  obtain ⟨s, r, hs, hr, hiff⟩ := text_eq_iff_equals ha hb rfl rfl
  obtain rfl : s = _ := Except.ok.inj (hs.symm.trans hta)
  obtain rfl : r = _ := Except.ok.inj (hr.symm.trans htb)
  exact ⟨hta, htb, ha, hb, rfl, rfl, Bool.eq_false_iff.2 fun h => absurd (hiff.2 h) (by decide)⟩

end Ty

end ContractIR
