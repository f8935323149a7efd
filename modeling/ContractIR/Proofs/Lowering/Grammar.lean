import ContractIR.Proofs.Lowering.Failure
import ContractIR.Proofs.Text.Ty
import Mathlib.Logic.Relation

/-!
# ContractIR.Proofs.Lowering.Grammar — the types that lowering returns

Lowered types have a grammar of two kinds of words: the types of values (`Ty.Value`), and what a
pointer to memory may point to beyond values (`Ty.Pointee`).  Arrays, structures, functions and
slices are of the second kind only, so they stand behind pointers and nowhere else.  The grammar
leaves open which integers and byte arrays there are; lowering takes them from the source type and
from the target (`SourceTy.scalar?`).

* `SourceTy.value_of_shape`: what is lowered keeps to the grammar.
* `Ty.Value.pointee_of_contains`: what occurs in a word of the grammar is a word of the grammar.
* `SourceTy.lower_keeps_grammar`: both together, with the widths of integers and byte arrays.
-/

namespace ContractIR

/-! ### Types inside a type -/

namespace Ty

/-- The types that the type is built from, the element of an array included. -/
def components : Ty → List Ty
  | array element _ => [element]
  | t => t.parts

/-- The other type is this one or occurs in it. -/
def Contains : Ty → Ty → Prop := Relation.ReflTransGen fun t u => u ∈ t.components

/-- Arrays, structures, functions and slices. -/
def IsAggregate : Ty → Prop
  | array _ _ | struct _ | vector _ | function _ _ | slice _ => True
  | _ => False

/-! ### The grammar -/

mutual

/-- The types of values, with integers and byte arrays that satisfy `Fits`. -/
inductive Value (Fits : Ty → Prop) : Ty → Prop
  | bool : Value Fits .bool
  | int {width : Int} : Fits (.int width) → Value Fits (.int width)
  | uint {width : Int} : Fits (.uint width) → Value Fits (.uint width)
  | bytes {bits : Int} : Fits (.bytes bits) → Value Fits (.bytes bits)
  | mapping {k v : Ty} : Value Fits k → Value Fits v → Value Fits (.mapping k v)
  | storagePtr {immutable : Bool} {t : Ty} : Value Fits t → Value Fits (.storagePtr immutable t)
  | ptr {t : Ty} : Pointee Fits t → Value Fits (.ptr t)

/-- What a pointer may point to. -/
inductive Pointee (Fits : Ty → Prop) : Ty → Prop
  | value {t : Ty} : Value Fits t → Pointee Fits t
  | array {element : Ty} {dims : List Dim} : Value Fits element → dims ≠ [] →
      Pointee Fits (.array element dims)
  | struct {tag : StructTag} : Pointee Fits (.struct tag)
  | vector : Value Fits (.byteArray 1) → Pointee Fits (.vector (.byteArray 1))
  | function {params returns : List Ty} : (∀ t ∈ params, Value Fits t) →
      (∀ t ∈ returns, Value Fits t) → Pointee Fits (.function params returns)
  | slice {element : Ty} : Value Fits element → Pointee Fits (.slice element)

end

variable {Fits : Ty → Prop}

theorem Value.not_isAggregate {t : Ty} (h : Value Fits t) : ¬ t.IsAggregate := by
  cases h <;> exact id

/-- The components of a word are values, except behind a pointer. -/
theorem Pointee.component {t u : Ty} (h : Pointee Fits t) (hu : u ∈ t.components) :
    Value Fits u ∨ t = .ptr u ∧ Pointee Fits u := by
  cases h with
  | value h =>
    cases h with
    | bool | int _ | uint _ | bytes _ => exact absurd hu List.not_mem_nil
    | mapping hk hv =>
      rcases List.mem_pair.1 hu with rfl | rfl
      · exact .inl hk
      · exact .inl hv
    | storagePtr ht =>
      rw [List.mem_singleton.1 hu]
      exact .inl ht
    | ptr ht =>
      rw [List.mem_singleton.1 hu]
      exact .inr ⟨rfl, ht⟩
  | array he _ | vector he | slice he =>
    rw [List.mem_singleton.1 hu]
    exact .inl he
  | struct => exact absurd hu List.not_mem_nil
  | function hps hrs =>
    rcases List.mem_append.1 hu with hu | hu
    · exact .inl (hps u hu)
    · exact .inl (hrs u hu)

theorem Value.pointee_of_contains {t u : Ty} (h : Value Fits t) (hu : t.Contains u) :
    Pointee Fits u := by
  induction hu with
  | refl => exact .value h
  | tail _ hlast ih =>
    rcases ih.component hlast with hvalue | ⟨-, hpointee⟩
    · exact .value hvalue
    · exact hpointee

/-- An aggregate inside a value stands behind a pointer. -/
theorem Value.eq_ptr {t s u : Ty} (h : Value Fits t) (hs : t.Contains s) (hu : u ∈ s.components)
    (haggregate : u.IsAggregate) : s = .ptr u := by
  rcases (h.pointee_of_contains hs).component hu with hvalue | ⟨heq, -⟩
  · exact absurd haggregate hvalue.not_isAggregate
  · exact heq

/-- What is no aggregate occurs in a value only as a value. -/
theorem Value.of_contains {t u : Ty} (h : Value Fits t) (hu : t.Contains u)
    (hvalue : ¬ u.IsAggregate) : Value Fits u := by
  have hpointee := h.pointee_of_contains hu
  cases hpointee with
  | value h => exact h
  | array _ _ | struct | vector _ | function _ _ | slice _ => exact absurd trivial hvalue

end Ty

/-! ### Lowering keeps to the grammar -/

theorem dvd_enumWidthFrom (variants width : Nat) (h : 8 ∣ width) :
    8 ∣ enumWidthFrom variants width := by
  fun_induction enumWidthFrom variants width with
  | case1 width _ ih => exact ih (Nat.dvd_add h (Nat.dvd_refl 8))
  | case2 width _ => exact h

theorem le_enumWidthFrom (variants width : Nat) : width ≤ enumWidthFrom variants width := by
  fun_induction enumWidthFrom variants width with
  | case1 width _ ih => exact (Nat.le_add_right width 8).trans ih
  | case2 width _ => exact Nat.le_refl width

namespace SourceTy

variable {target : Target} {location : Option Location}

/-- The integer or byte array that a type by itself becomes or points to, whatever its components
become. -/
def scalar? (target : Target) : SourceTy → Option Ty
  | uint bits => some (.uint (bits.getD 256))
  | int bits => some (.int (bits.getD 256))
  | bytes (some bits) => some (.bytes bits)
  | bytes none | string | bufferPointer => some (.byteArray 1)
  | address | contract _ => some (.byteArray target.addressLength)
  | value => some (.uint (target.valueLength * 8))
  | functionSelector => some (.uint (target.selectorLength * 8))
  | enum _ variants => some (.uint (enumWidth variants.length))
  | _ => none

/-- The scalar has its origin at a position of the source type. -/
def Scalar (target : Target) (t : SourceTy) (x : Ty) : Prop :=
  ∃ p u, t.at? p = some u ∧ u.scalar? target = some x

theorem forall_at?_iff {t : SourceTy} {P : SourceTy → Prop} :
    (∀ p u, t.at? p = some u → P u) ↔
      P t ∧ ∀ part ∈ t.parts, ∀ p u, part.at? p = some u → P u := by
  constructor
  · intro h
    refine ⟨h [] t rfl, fun part hpart p u hu => ?_⟩
    obtain ⟨i, hi⟩ := List.getElem?_of_mem hpart
    exact h (i :: p) u (by rw [at?, hi]; exact hu)
  · rintro ⟨ht, hparts⟩ p u hu
    cases p with
    | nil =>
      cases hu
      exact ht
    | cons i p =>
      rw [at?] at hu
      obtain ⟨part, hpart, hu⟩ := Option.bind_eq_some_iff.1 hu
      exact hparts part (List.mem_of_getElem? hpart) p u hu

theorem exists_shape_of_mem_shapes {ts : List SourceTy} {ss : List Shape} {s : Shape}
    (h : shapes target location ts = .ok ss) (hs : s ∈ ss) :
    ∃ t ∈ ts, shape target location t = .ok s := by
  induction ts generalizing ss with
  | nil =>
    cases h
    exact absurd hs List.not_mem_nil
  | cons t ts ih =>
    simp only [shapes, bind_eq_ok_iff, pure_eq_ok_iff] at h
    obtain ⟨r, hr, rs, hrs, rfl⟩ := h
    rcases List.mem_cons.1 hs with rfl | hs
    · exact ⟨t, List.mem_cons_self, hr⟩
    · obtain ⟨u, hu, hus⟩ := ih hrs hs
      exact ⟨u, List.mem_cons_of_mem t hu, hus⟩

/-- With dimensions, the type of a shape points to an array whose element is no array. -/
theorem Shape.value_type {Fits : Ty → Prop} {s : Shape} (h : Ty.Value Fits s.element) :
    Ty.Value Fits s.type := by
  unfold Shape.type
  split
  · exact h
  · next hdims => exact .ptr (.array h fun hnil => hdims (List.isEmpty_iff.2 hnil))

theorem value_of_shape {Fits : Ty → Prop} {t : SourceTy} {s : Shape}
    (hfits : ∀ p u, t.at? p = some u → ∀ x, u.scalar? target = some x → Fits x)
    (hs : shape target location t = .ok s) : Ty.Value Fits s.element := by
  induction t using parts_induction generalizing s with
  | h t ih =>
  obtain ⟨hself, hparts⟩ := forall_at?_iff.1 hfits
  -- the types of the parts are values, and a list of parts is lowered member by member
  have hpart : ∀ {u r}, u ∈ t.parts → shape target location u = .ok r → Ty.Value Fits r.type :=
    fun hu hr => Shape.value_type (ih _ hu (hparts _ hu) hr)
  have hlist : ∀ {us rs}, (∀ u ∈ us, u ∈ t.parts) → shapes target location us = .ok rs →
      ∀ x ∈ rs.map Shape.type, Ty.Value Fits x := by
    intro us rs hus hrs x hx
    obtain ⟨r, hr, rfl⟩ := List.mem_map.1 hx
    obtain ⟨u, hu, hur⟩ := exists_shape_of_mem_shapes hrs hr
    exact hpart (hus u hu) hur
  cases t with
  | uint bits =>
    cases hs
    exact .uint (hself _ rfl)
  | int bits =>
    cases hs
    exact .int (hself _ rfl)
  | bytes bits =>
    cases bits with
    | none =>
      cases hs
      exact .ptr (.vector (.bytes (hself _ rfl)))
    | some bits =>
      cases hs
      exact .bytes (hself _ rfl)
  | bool =>
    cases hs
    exact .bool
  | address | contract name =>
    cases hs
    exact .bytes (hself _ rfl)
  | string =>
    cases hs
    exact .ptr (.vector (.bytes (hself _ rfl)))
  | value | functionSelector | enum name variants =>
    cases hs
    exact .uint (hself _ rfl)
  | bufferPointer =>
    cases hs
    exact .ptr (.value (.bytes (hself _ rfl)))
  | array element size =>
    simp only [shape, bind_eq_ok_iff, pure_eq_ok_iff] at hs
    obtain ⟨r, hr, rfl⟩ := hs
    -- the dimensions grow, the element stays
    have helement : Ty.Value Fits r.element :=
      ih element List.mem_cons_self (hparts element List.mem_cons_self) hr
    exact helement
  | mapping k v =>
    simp only [shape, bind_eq_ok_iff, pure_eq_ok_iff] at hs
    obtain ⟨a, ha, b, hb, rfl⟩ := hs
    exact .mapping (hpart (by simp [parts]) ha) (hpart (by simp [parts]) hb)
  | struct name fields id platform =>
    cases hs
    exact .ptr .struct
  | function name params returns visibility =>
    cases visibility with
    | external =>
      cases hs
      exact .ptr .struct
    | internal =>
      simp only [shape, bind_eq_ok_iff, pure_eq_ok_iff] at hs
      obtain ⟨ps, hps, rs, hrs, rfl⟩ := hs
      exact .ptr (.function (hlist (fun u hu => List.mem_append_left returns hu) hps)
        (hlist (fun u hu => List.mem_append_right params hu) hrs))
  | userDefined name underlying =>
    simp only [shape, bind_eq_ok_iff, pure_eq_ok_iff] at hs
    obtain ⟨r, hr, rfl⟩ := hs
    exact hpart List.mem_cons_self hr
  | reference referent place immutable =>
    simp only [shape, bind_eq_ok_iff] at hs
    obtain ⟨r, hr, hs⟩ := hs
    have hvalue := hpart List.mem_cons_self hr
    cases place with
    | storage =>
      cases hs
      exact .storagePtr hvalue
    | memory =>
      cases hs
      exact .ptr (.value hvalue)
  | slice element =>
    simp only [shape, bind_eq_ok_iff, pure_eq_ok_iff] at hs
    obtain ⟨r, hr, rfl⟩ := hs
    exact .ptr (.slice (hpart List.mem_cons_self hr))
  | failure message => cases hs
  | foreign x => cases hs

theorem value_of_lower {t : SourceTy} {r : Ty} (h : t.lower target location = .ok r) :
    Ty.Value (t.Scalar target) r := by
  simp only [lower, bind_eq_ok_iff, pure_eq_ok_iff] at h
  obtain ⟨s, hs, rfl⟩ := h
  exact Shape.value_type (value_of_shape (fun p u hu x hx => ⟨p, u, hu, hx⟩) hs)

end SourceTy

/-! ### Widths -/

theorem Target.valid_of_define {name : String} {a v s : Float} {target : Target}
    (h : define name a v s = .ok target) :
    ValidLength target.addressLength ∧ ValidLength target.valueLength ∧
      ValidLength target.selectorLength := by
  have hcheck : ∀ {field x n}, checkLength name field x = .ok n → ValidLength n := by
    intro field x n hn
    unfold checkLength at hn
    split at hn
    · split at hn
      · next hvalid =>
        cases hn
        exact hvalid
      · cases hn
    · cases hn
  simp only [define, bind_eq_ok_iff, pure_eq_ok_iff] at h
  obtain ⟨address, ha, value, hv, selector, hs, rfl⟩ := h
  exact ⟨hcheck ha, hcheck hv, hcheck hs⟩

/-- The integers have a positive number of whole bytes, the byte arrays 1 to 32 of them. -/
def Ty.WholeBytes : Ty → Prop
  | int width | uint width => 0 < width ∧ 8 ∣ width
  | bytes bits => ∃ n, 1 ≤ n ∧ n ≤ 32 ∧ bits = 8 * n
  | _ => True

namespace SourceTy

/-- If a number of bits is given, integers have a positive number of whole bytes and byte arrays 1
to 32 of them. -/
def WholeBytes : SourceTy → Prop
  | uint (some bits) | int (some bits) => 0 < bits ∧ 8 ∣ bits
  | bytes (some bits) => ∃ n, 1 ≤ n ∧ n ≤ 32 ∧ bits = 8 * n
  | _ => True

theorem wholeBytes_scalar {target : Target} {t : SourceTy} {x : Ty}
    (haddress : Target.ValidLength target.addressLength)
    (hvalue : Target.ValidLength target.valueLength)
    (hselector : Target.ValidLength target.selectorLength) (ht : t.WholeBytes)
    (hx : t.scalar? target = some x) : x.WholeBytes := by
  unfold Target.ValidLength at haddress hvalue hselector
  cases t with
  | uint bits | int bits =>
    cases hx
    cases bits with
    | none => exact ⟨by decide, by decide⟩
    | some bits => exact ht
  | bytes bits =>
    cases bits with
    | none =>
      cases hx
      exact ⟨1, by decide, by decide, rfl⟩
    | some bits =>
      cases hx
      exact ht
  | address | contract name =>
    cases hx
    exact ⟨target.addressLength, haddress.1, haddress.2, rfl⟩
  | string | bufferPointer =>
    cases hx
    exact ⟨1, by decide, by decide, rfl⟩
  | value =>
    cases hx
    exact ⟨by omega, Int.dvd_mul_left ..⟩
  | functionSelector =>
    cases hx
    exact ⟨by omega, Int.dvd_mul_left ..⟩
  | enum name variants =>
    cases hx
    have hdvd := dvd_enumWidthFrom (variants.length : Int).toNat 8 (Nat.dvd_refl 8)
    have hle := le_enumWidthFrom (variants.length : Int).toNat 8
    exact ⟨by unfold enumWidth; omega, Int.natCast_dvd_natCast.2 hdvd⟩
  | bool | array element size | mapping k v | struct name fields id platform
  | function name params returns visibility | userDefined name underlying
  | reference referent place immutable | slice element | failure message | foreign x => cases hx

/-- In a lowered type, arrays, structures, functions and slices stand behind pointers and nowhere
else, every array has dimensions and an element that is no array, and every vector is one of bytes.
For a target that was checked, if the source type has integers of whole bytes and byte arrays of 1
to 32 bytes, then so has the lowered type.  Only the positions that are lowered matter for this. -/
theorem lower_keeps_grammar {target : Target} {location : Option Location} {t : SourceTy} {r : Ty}
    (h : t.lower target location = .ok r) :
    (¬ r.IsAggregate ∧
      ∀ s u, r.Contains s → u ∈ s.components → u.IsAggregate → s = .ptr u) ∧
    (∀ e ds, r.Contains (.array e ds) → ds ≠ [] ∧ ∀ e' ds', e ≠ .array e' ds') ∧
    (∀ e, r.Contains (.vector e) → e = .byteArray 1) ∧
    ((∃ name a v s, Target.define name a v s = .ok target) →
      (∀ p u, t.at? p = some u → u.WholeBytes) →
      (∀ bits, r.Contains (.bytes bits) → ∃ n, 1 ≤ n ∧ n ≤ 32 ∧ bits = 8 * n) ∧
      ∀ w, r.Contains (.int w) ∨ r.Contains (.uint w) → 0 < w ∧ 8 ∣ w) := by
  have hvalue := value_of_lower h
  refine ⟨⟨hvalue.not_isAggregate, fun s u => hvalue.eq_ptr⟩, fun e ds hc => ?_, fun e hc => ?_, ?_⟩
  · cases hvalue.pointee_of_contains hc with
    | value harray => exact absurd trivial harray.not_isAggregate
    | array he hds =>
      refine ⟨hds, ?_⟩
      rintro e' ds' rfl
      exact he.not_isAggregate trivial
  · cases hvalue.pointee_of_contains hc with
    | value hvector => exact absurd trivial hvector.not_isAggregate
    | vector _ => rfl
  · rintro ⟨name, a, v, s, hdefine⟩ hwhole
    obtain ⟨haddress, hlength, hselector⟩ := Target.valid_of_define hdefine
    have hscalar : ∀ {x}, t.Scalar target x → x.WholeBytes := by
      rintro x ⟨p, u, hu, hx⟩
      exact wholeBytes_scalar haddress hlength hselector (hwhole p u hu) hx
    refine ⟨fun bits hc => ?_, fun w hc => ?_⟩
    · cases hvalue.of_contains hc id with
      | bytes hbits => exact hscalar hbits
    · rcases hc with hc | hc
      · cases hvalue.of_contains hc id with
        | int hw => exact hscalar hw
      · cases hvalue.of_contains hc id with
        | uint hw => exact hscalar hw

/-- Arrays below an alias and below a reference, and a slice inside them. -/
def ledger : SourceTy :=
  .mapping (.userDefined "Key" (.array (.bytes (some 32)) .any))
    (.reference (.array (.array (.slice .string) (.fixed 3)) .dynamic) .storage true)

/-- The lowering of `ledger`. -/
def ledgerLowered : Ty :=
  .mapping (.ptr (.array (.bytes 32) [.anyFixed]))
    (.storagePtr true
      (.ptr (.array (.ptr (.slice .dynamicBytes)) [.fixed 3, .dynamic])))

theorem lower_keeps_grammar_ledger :
    Target.define "evm" 20 16 4 = .ok .evm ∧ ledger.lower .evm none = .ok ledgerLowered ∧
      (∀ p u, ledger.at? p = some u → u.WholeBytes) ∧
      (∀ s u, ledgerLowered.Contains s → u ∈ s.components → u.IsAggregate → s = .ptr u) ∧
      ∀ bits, ledgerLowered.Contains (.bytes bits) → ∃ n, 1 ≤ n ∧ n ≤ 32 ∧ bits = 8 * n := by
  have hdefine : Target.define "evm" 20 16 4 = .ok .evm := rfl
  have hlower : ledger.lower .evm none = .ok ledgerLowered := rfl
  have hone : ∀ {t part : SourceTy}, t.parts = [part] → t.WholeBytes →
      (∀ p u, part.at? p = some u → u.WholeBytes) → ∀ p u, t.at? p = some u → u.WholeBytes := by
    intro t part hparts ht hpart
    refine forall_at?_iff.2 ⟨ht, ?_⟩
    rwa [hparts, List.forall_mem_singleton]
  have hbytes : ∀ p u, (SourceTy.bytes (some 32)).at? p = some u → u.WholeBytes :=
    forall_at?_iff.2 ⟨⟨4, by decide, by decide, rfl⟩, by simp [parts]⟩
  have hstring : ∀ p u, SourceTy.string.at? p = some u → u.WholeBytes :=
    forall_at?_iff.2 ⟨trivial, by simp [parts]⟩
  have hwhole : ∀ p u, ledger.at? p = some u → u.WholeBytes := by
    refine forall_at?_iff.2
      ⟨trivial, List.forall_mem_cons.2 ⟨?_, List.forall_mem_singleton.2 ?_⟩⟩
    · exact hone rfl trivial (hone rfl trivial hbytes)
    · exact hone rfl trivial (hone rfl trivial (hone rfl trivial (hone rfl trivial hstring)))
  obtain ⟨⟨-, hbehind⟩, -, -, hwidths⟩ := lower_keeps_grammar hlower
  exact ⟨hdefine, hlower, hwhole, hbehind, (hwidths ⟨_, _, _, _, hdefine⟩ hwhole).1⟩

end SourceTy

end ContractIR
