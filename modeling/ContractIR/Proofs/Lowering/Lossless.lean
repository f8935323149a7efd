import ContractIR.Proofs.Except
import ContractIR.Proofs.Lowering.Grammar
import ContractIR.Proofs.Word
import Mathlib.Order.Bounds.Basic

/-!
# ContractIR.Proofs.Lowering.Lossless — what lowering keeps

Nested arrays keep the size of every level, in order, and an enumeration gets an integer type with
room for each of its variants and no byte more than that takes.

* `SourceTy.lower_nest`: nested arrays over an element that is no array.
* `SourceTy.nested_arrays_lower`: they lower alike just when sizes and elements do.
* `enumWidth_isLeast`: the width of an enumeration.
* `enum_indices_in_range`: the same, with the indices of its variants.
-/

namespace ContractIR

/-! ### Nested arrays -/

theorem ArraySize.dim_injective : Function.Injective ArraySize.dim := by
  intro m n h
  cases m <;> cases n <;> cases h <;> rfl

namespace SourceTy

/-- An array type with one level for each size, the innermost first. -/
def nest (element : SourceTy) (sizes : List ArraySize) : SourceTy := sizes.foldl .array element

theorem nest_append (element : SourceTy) (ms ns : List ArraySize) :
    element.nest (ms ++ ns) = (element.nest ms).nest ns := List.foldl_append

/-- Every type is nested over one that is no array. -/
theorem exists_nest (t : SourceTy) :
    ∃ (element : SourceTy) (sizes : List ArraySize), element.class? ≠ some .array ∧
      t = element.nest sizes := by
  induction t using parts_induction with
  | h t ih =>
  by_cases ht : t.class? = some .array
  · cases t with
    | array inner size =>
      obtain ⟨element, sizes, helement, rfl⟩ := ih inner List.mem_cons_self
      refine ⟨element, sizes ++ [size], helement, ?_⟩
      rw [nest_append]
      rfl
    | _ => cases ht
  · exact ⟨t, [], ht, rfl⟩

variable {target : Target} {location : Option Location}

/-- Only arrays have dimensions. -/
theorem dims_eq_nil {t : SourceTy} {s : Shape} (ht : t.class? ≠ some .array)
    (h : shape target location t = .ok s) : s.dims = [] := by
  cases t with
  | array element size => exact absurd rfl ht
  | bytes bits => cases bits <;> cases h <;> rfl
  | mapping k v =>
    simp only [shape, bind_eq_ok_iff, pure_eq_ok_iff] at h
    obtain ⟨-, -, -, -, rfl⟩ := h
    rfl
  | function name params returns visibility =>
    cases visibility with
    | external =>
      cases h
      rfl
    | internal =>
      simp only [shape, bind_eq_ok_iff, pure_eq_ok_iff] at h
      obtain ⟨-, -, -, -, rfl⟩ := h
      rfl
  | userDefined name element | slice element =>
    simp only [shape, bind_eq_ok_iff, pure_eq_ok_iff] at h
    obtain ⟨-, -, rfl⟩ := h
    rfl
  | reference referent place immutable =>
    simp only [shape, bind_eq_ok_iff] at h
    obtain ⟨r, -, h⟩ := h
    cases place <;> cases h <;> rfl
  | failure message => cases h
  | foreign x => cases h
  | _ =>
    cases h
    rfl

/-- Each level adds its dimension after those of the levels inside. -/
theorem shape_nest (element : SourceTy) (sizes : List ArraySize) :
    shape target location (element.nest sizes) =
      (shape target location element).map fun s =>
        { s with dims := s.dims ++ sizes.map ArraySize.dim } := by
  induction sizes generalizing element with
  | nil =>
    show shape target location element = _
    cases shape target location element with
    | error d => rfl
    | ok s => simp [Except.map]
  | cons size sizes ih =>
    have hstep : element.nest (size :: sizes) = (element.array size).nest sizes := rfl
    rw [hstep, ih, shape]
    cases shape target location element with
    | error d => rfl
    | ok s =>
      show Except.ok _ = Except.ok _
      simp

theorem lower_eq_map (t : SourceTy) :
    t.lower target location = (shape target location t).map Shape.type := by
  unfold lower
  cases shape target location t <;> rfl

theorem lower_nest {element : SourceTy} (helement : element.class? ≠ some .array)
    {sizes : List ArraySize} (hsizes : sizes ≠ []) :
    (element.nest sizes).lower target location =
      (element.lower target location).map fun t => .ptr (.array t (sizes.map ArraySize.dim)) := by
  rw [lower_eq_map, lower_eq_map, shape_nest]
  cases hs : shape target location element with
  | error d => rfl
  | ok s =>
    have hdims : s.dims = [] := dims_eq_nil helement hs
    show Except.ok _ = Except.ok _
    simp [Shape.type, hdims, hsizes]

/-- An array type that is nested over an element that is no array is lowered to a pointer to one
array with the dimensions of all levels, innermost first.  So two such types are lowered alike just
when their sizes are the same and their elements are lowered alike; and every array type is one. -/
theorem nested_arrays_lower (target : Target) (location : Option Location) :
    (∀ element : SourceTy, element.class? ≠ some .array →
      ∀ t, element.lower target location = .ok t → ∀ sizes, sizes ≠ [] →
        (element.nest sizes).lower target location =
          .ok (.ptr (.array t (sizes.map ArraySize.dim)))) ∧
    (∀ a b : SourceTy, a.class? ≠ some .array → b.class? ≠ some .array →
      ∀ ms ns, ms ≠ [] → ns ≠ [] →
      ∀ r s, (a.nest ms).lower target location = .ok r →
        (b.nest ns).lower target location = .ok s →
        (r = s ↔ ms = ns ∧ ∃ t, a.lower target location = .ok t ∧
          b.lower target location = .ok t)) ∧
    ∀ t : SourceTy, t.class? = some .array →
      ∃ (element : SourceTy) (sizes : List ArraySize), element.class? ≠ some .array ∧
        sizes ≠ [] ∧ t = element.nest sizes := by
  refine ⟨fun element helement t ht sizes hsizes => ?_, ?_, fun t ht => ?_⟩
  · rw [lower_nest helement hsizes, ht]
    rfl
  · intro a b ha hb ms ns hms hns r s hr hs
    rw [lower_nest ha hms, map_eq_ok_iff] at hr
    rw [lower_nest hb hns, map_eq_ok_iff] at hs
    obtain ⟨t, ht, rfl⟩ := hr
    obtain ⟨u, hu, rfl⟩ := hs
    have hsizes : ms.map ArraySize.dim = ns.map ArraySize.dim ↔ ms = ns :=
      (List.map_injective_iff.2 ArraySize.dim_injective).eq_iff
    have helements : (∃ v, a.lower target location = .ok v ∧ b.lower target location = .ok v) ↔
        t = u := by
      rw [ht, hu]
      simp [eq_comm]
    rw [Ty.ptr.injEq, Ty.array.injEq, hsizes, helements]
    exact and_comm
  · obtain ⟨element, sizes, helement, rfl⟩ := exists_nest t
    refine ⟨element, sizes, helement, ?_, rfl⟩
    rintro rfl
    exact helement ht

/-- An alias of an array, which is no array itself. -/
def row : SourceTy := .userDefined "Row" (.array .bool (.fixed 2))

theorem nested_arrays_lower_row :
    row.class? ≠ some .array ∧
      row.lower .evm none = .ok (.ptr (.array .bool [.fixed 2])) ∧
      (row.nest [.dynamic, .any, .fixed 3]).lower .evm none =
        .ok (.ptr (.array (.ptr (.array .bool [.fixed 2])) [.dynamic, .anyFixed, .fixed 3])) ∧
      (row.nest [.dynamic, .fixed 3]).lower .evm none ≠
        (row.nest [.fixed 3, .dynamic]).lower .evm none := by
  have hrow : row.class? ≠ some .array := by decide
  have hlower : row.lower .evm none = .ok (.ptr (.array .bool [.fixed 2])) := rfl
  obtain ⟨hnest, halike, -⟩ := nested_arrays_lower .evm none
  refine ⟨hrow, hlower, hnest row hrow _ hlower _ (by decide), fun hsame => ?_⟩
  have hl := hnest row hrow _ hlower [.dynamic, .fixed 3] (by decide)
  have hr := hnest row hrow _ hlower [.fixed 3, .dynamic] (by decide)
  have hsizes := (halike row row hrow hrow _ _ (by decide) (by decide) _ _ hl hr).1
    (Except.ok.inj (hl.symm.trans (hsame.trans hr)))
  exact absurd hsizes.1 (by decide)

end SourceTy

/-! ### Enumerations -/

theorem le_modulus_enumWidthFrom (variants width : Nat) :
    variants ≤ Word.modulus (enumWidthFrom variants width) := by
  fun_induction enumWidthFrom variants width with
  | case1 width _ ih => exact ih
  | case2 width h => omega

/-- The search does not pass a width that is enough. -/
theorem enumWidthFrom_le {variants width w : Nat} (hwidth : 8 ∣ width) (hle : width ≤ w)
    (hw : 8 ∣ w) (henough : variants ≤ Word.modulus w) : enumWidthFrom variants width ≤ w := by
  fun_induction enumWidthFrom variants width with
  | case1 width hsmall ih =>
    have hne : width ≠ w := by
      rintro rfl
      omega
    exact ih (by omega) (by omega)
  | case2 width _ => exact hle

/-- The width is the least positive multiple of eight with at least as many words as variants. -/
theorem enumWidth_isLeast {n : Int} (hn : 0 ≤ n) :
    IsLeast {w : Nat | 0 < w ∧ 8 ∣ w ∧ n ≤ 2 ^ w} (enumWidth n) := by
  have henough : ∀ w : Nat, n ≤ 2 ^ w ↔ n.toNat ≤ Word.modulus w := by
    intro w
    rw [← Word.modulus_eq]
    omega
  constructor
  · have hle := le_enumWidthFrom n.toNat 8
    have hdvd := dvd_enumWidthFrom n.toNat 8 (Nat.dvd_refl 8)
    refine ⟨?_, hdvd, (henough _).2 (le_modulus_enumWidthFrom n.toNat 8)⟩
    unfold enumWidth
    omega
  · rintro w ⟨hpos, hdvd, hw⟩
    exact enumWidthFrom_le (Nat.dvd_refl 8) (by omega) hdvd ((henough w).1 hw)

/-- The width of an enumeration of `n` variants is the least positive number of whole bytes that has
room for them.  So the enumeration is lowered to an integer type without sign in which the index of
every variant is in range. -/
theorem enum_indices_in_range :
    (∀ n : Int, 0 ≤ n → IsLeast {w : Nat | 0 < w ∧ 8 ∣ w ∧ n ≤ 2 ^ w} (enumWidth n)) ∧
    ∀ (name : String) (variants : List String) (target : Target) (location : Option Location),
      ∃ t type format, (SourceTy.enum name variants).lower target location = .ok t ∧
        t = .uint (enumWidth variants.length) ∧ t.intTy? = some type ∧
        type.format = .ok format ∧
        ∀ i : Nat, i < variants.length → format.inRange i = true := by
  refine ⟨fun n hn => enumWidth_isLeast hn, fun name variants target location => ?_⟩
  have hwidth : IntTy.checkWidth (enumWidth variants.length) =
      .ok (enumWidth variants.length) := if_pos (Int.natCast_nonneg _)
  refine ⟨_, _, ⟨false, enumWidth variants.length⟩, rfl, rfl, rfl, ?_, fun i hi => ?_⟩
  · rw [IntTy.format, hwidth]
    rfl
  · have hroom : (variants.length : Int) ≤ 2 ^ enumWidth variants.length :=
      (enumWidth_isLeast (Int.natCast_nonneg _)).1.2.2
    have hlt : (i : Int) < 2 ^ enumWidth variants.length := by omega
    rw [Word.Format.inRange_iff]
    exact ⟨Int.natCast_nonneg i, hlt⟩

/-- One byte numbers 256 variants, and the next one takes another byte. -/
theorem enum_indices_in_range_bytes :
    enumWidth 256 = 8 ∧ enumWidth 257 = 16 ∧
      ∃ t type format,
        (SourceTy.enum "Suit" ["clubs", "hearts", "spades"]).lower .evm none = .ok t ∧
        t.intTy? = some type ∧ type.format = .ok format ∧ format.inRange 2 = true := by
  obtain ⟨hleast, hrange⟩ := enum_indices_in_range
  refine ⟨?_, ?_, ?_⟩
  · refine (hleast 256 (by decide)).unique ⟨⟨by decide, by decide, by decide⟩, ?_⟩
    rintro w ⟨hpos, hdvd, -⟩
    exact Nat.le_of_dvd hpos hdvd
  · refine (hleast 257 (by decide)).unique ⟨⟨by decide, by decide, by decide⟩, ?_⟩
    rintro w ⟨hpos, hdvd, hw⟩
    by_contra hlt
    obtain rfl : w = 8 := by omega
    exact absurd hw (by decide)
  · obtain ⟨t, type, format, hlower, -, htype, hformat, hin⟩ :=
      hrange "Suit" ["clubs", "hearts", "spades"] .evm none
    exact ⟨t, type, format, hlower, htype, hformat, hin 2 (by decide)⟩

end ContractIR
