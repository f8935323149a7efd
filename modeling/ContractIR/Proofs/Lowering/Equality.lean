import ContractIR.Proofs.Lowering.Failure
import Mathlib.Data.Quot
import Mathlib.Logic.Relation

/-!
# ContractIR.Proofs.Lowering.Equality — equal source types lower alike

Equality of source types looks at some of what a type is made of and not at the rest.  Taking the
rest away leaves the essence of a type (`SourceTy.essence`).  Of foreign types it is assumed that
their own equality is lawful (`ForeignTy.Lawful`); one of those that are equal stands for all of
them.  Two types are then equal just when their essences are the same and every foreign type in a
position that is compared is equal to itself.  Lowering and printing need not be compared with
equality any more, only with the essence.

* `ForeignTy.Lawful`: what is assumed of foreign types.
* `SourceTy.equals_iff`: equality through essences.
* `SourceTy.toOption_shape_essence`, `SourceTy.text_essence`: what lowering and printing see.
* `SourceTy.equals_congruence`: the laws of equality, and equal types in lowering and printing.
-/

namespace ContractIR

/-! ### Foreign types -/

namespace ForeignTy

/-- The laws of equality among foreign types: they are equal to foreign types only, by a symmetric
and transitive relation, and equal ones have the same text. -/
structure Lawful (own : ForeignTy → SourceTy → Bool) : Prop where
  foreign : ∀ {x t}, own x t = true → ∃ y, t = .foreign y
  symm : ∀ {x y}, own x (.foreign y) = true → own y (.foreign x) = true
  trans : ∀ {x y z}, own x (.foreign y) = true → own y (.foreign z) = true →
    own x (.foreign z) = true
  text : ∀ {x y}, own x (.foreign y) = true → x.text = y.text

namespace Lawful

variable {own : ForeignTy → SourceTy → Bool} (h : Lawful own) {x y : ForeignTy}

/-- Two foreign types are one and the same, or equal. -/
def setoid : Setoid ForeignTy where
  r x y := x = y ∨ own x (.foreign y) = true
  iseqv := by
    refine ⟨fun x => .inl rfl, ?_, ?_⟩
    · rintro x y (rfl | hxy)
      · exact .inl rfl
      · exact .inr (h.symm hxy)
    · rintro x y z (rfl | hxy) (rfl | hyz)
      · exact .inl rfl
      · exact .inr hyz
      · exact .inr hxy
      · exact .inr (h.trans hxy hyz)

/-- The one that stands for all the foreign types that are equal to a given one. -/
noncomputable def representative (x : ForeignTy) : ForeignTy := (Quotient.mk h.setoid x).out

theorem representative_cases (x : ForeignTy) :
    h.representative x = x ∨ own (h.representative x) (.foreign x) = true :=
  Quotient.mk_out (s := h.setoid) x

theorem representative_eq_iff :
    h.representative x = h.representative y ↔ x = y ∨ own x (.foreign y) = true :=
  Quotient.out_inj.trans Quotient.eq

include h

theorem self_left (hxy : own x (.foreign y) = true) : own x (.foreign x) = true :=
  h.trans hxy (h.symm hxy)

/-- Being equal is having the same representative, for a foreign type that is equal to itself. -/
theorem own_iff : own x (.foreign y) = true ↔
    h.representative x = h.representative y ∧ own x (.foreign x) = true := by
  rw [h.representative_eq_iff]
  constructor
  · intro hxy
    exact ⟨.inr hxy, h.self_left hxy⟩
  · rintro ⟨rfl | hxy, hx⟩
    · exact hx
    · exact hxy

theorem self_representative :
    own (h.representative x) (.foreign (h.representative x)) = true ↔
      own x (.foreign x) = true := by
  rcases h.representative_cases x with heq | hown
  · rw [heq]
  · exact iff_of_true (h.self_left hown) (h.self_left (h.symm hown))

theorem text_representative (x : ForeignTy) : (h.representative x).text = x.text := by
  rcases h.representative_cases x with heq | hown
  · rw [heq]
  · exact h.text hown

end Lawful

end ForeignTy

namespace SourceTy

/-! ### What equality compares -/

/-- The components of a type that equality compares.  These are the ones that are lowered, and the
signature of an external function. -/
def compared : SourceTy → List SourceTy
  | function _ params returns _ => params ++ returns
  | t => t.parts

/-- The other type is this one, or stands in it in a position that equality compares. -/
def Compares : SourceTy → SourceTy → Prop := Relation.ReflTransGen fun t u => u ∈ t.compared

theorem compares_iff {t u : SourceTy} : t.Compares u ↔ u = t ∨ ∃ c ∈ t.compared, c.Compares u :=
  Relation.ReflTransGen.cases_head_iff.trans (or_congr_left eq_comm)

/-- The property holds of every type in a position that is compared. -/
def Throughout (P : SourceTy → Prop) (t : SourceTy) : Prop := ∀ u, t.Compares u → P u

theorem throughout_iff {P : SourceTy → Prop} {t : SourceTy} :
    t.Throughout P ↔ P t ∧ ∀ u ∈ t.compared, u.Throughout P := by
  unfold Throughout
  constructor
  · intro h
    exact ⟨h t .refl, fun u hu v hv => h v (compares_iff.2 (.inr ⟨u, hu, hv⟩))⟩
  · rintro ⟨ht, hcs⟩ v hv
    rcases compares_iff.1 hv with rfl | ⟨u, hu, hv⟩
    · exact ht
    · exact hcs u hu v hv

theorem sizeOf_lt_of_mem_compared {t u : SourceTy} (h : u ∈ t.compared) : sizeOf u < sizeOf t := by
  cases t with
  | function name params returns visibility =>
    have hlt : sizeOf u < sizeOf params ∨ sizeOf u < sizeOf returns :=
      (List.mem_append.1 h).imp List.sizeOf_lt_of_mem List.sizeOf_lt_of_mem
    rw [function.sizeOf_spec]
    omega
  | _ => exact sizeOf_lt_of_mem_parts h

/-- What holds of a type as soon as it holds of the components that are compared holds of every
type. -/
theorem compared_induction {P : SourceTy → Prop} (h : ∀ t, (∀ u ∈ t.compared, P u) → P t)
    (t : SourceTy) : P t :=
  h t fun u _ => compared_induction h u
termination_by sizeOf t
decreasing_by exact sizeOf_lt_of_mem_compared ‹_›

/-! ### Essences -/

section Essence

variable (rep : ForeignTy → ForeignTy)

mutual

/-- A type without what equality ignores: the names of functions, the fields of structures and the
messages of failed types.  A foreign type gives way to its representative. -/
def essence : SourceTy → SourceTy
  | array element size => .array (essence element) size
  | mapping k v => .mapping (essence k) (essence v)
  | struct name _ id platform => .struct name [] id platform
  | function _ params returns visibility =>
    .function "" (essences params) (essences returns) visibility
  | userDefined name underlying => .userDefined name (essence underlying)
  | reference referent place immutable => .reference (essence referent) place immutable
  | slice element => .slice (essence element)
  | failure _ => .failure ""
  | foreign x => .foreign (rep x)
  | t => t

/-- The essences of a list of types. -/
def essences : List SourceTy → List SourceTy
  | [] => []
  | t :: ts => essence t :: essences ts

end

theorem essences_eq_map (ts : List SourceTy) : essences rep ts = ts.map (essence rep) := by
  induction ts with
  | nil => rfl
  | cons t ts ih => rw [essences, ih, List.map_cons]

theorem compared_essence (t : SourceTy) :
    (t.essence rep).compared = t.compared.map (essence rep) := by
  cases t with
  | function name params returns visibility =>
    simp only [essence, compared, essences_eq_map, List.map_append]
  | _ => simp [essence, compared, parts]

theorem class?_essence (t : SourceTy) : (t.essence rep).class? = t.class? := by
  cases t <;> rfl

variable {rep}

/-- What does not tell a type from its essence holds throughout the one if it does so throughout the
other. -/
theorem throughout_essence {P : SourceTy → Prop} (hP : ∀ u, P (u.essence rep) ↔ P u)
    {t : SourceTy} : (t.essence rep).Throughout P ↔ t.Throughout P := by
  induction t using compared_induction with
  | h t ih =>
  rw [throughout_iff, throughout_iff, hP, compared_essence, List.forall_mem_map]
  exact and_congr_right fun _ => forall₂_congr ih

theorem throughout_of_essence_eq {P : SourceTy → Prop} (hP : ∀ u, P (u.essence rep) ↔ P u)
    {a b : SourceTy} (h : a.essence rep = b.essence rep) (ha : a.Throughout P) :
    b.Throughout P := by
  rw [← throughout_essence hP, ← h, throughout_essence hP]
  exact ha

end Essence

/-! ### Equality through essences -/

section Equality

variable {own : ForeignTy → SourceTy → Bool}

/-- A foreign type that is equal to itself, or a type of any other kind. -/
def Settled (own : ForeignTy → SourceTy → Bool) : SourceTy → Prop
  | foreign x => own x (.foreign x) = true
  | _ => True

theorem throughout_settled_iff {t : SourceTy} :
    t.Throughout (Settled own) ↔ ∀ x, t.Compares (.foreign x) → own x (.foreign x) = true := by
  constructor
  · intro h x hx
    exact h (.foreign x) hx
  · intro h u hu
    cases u with
    | foreign x => exact h x hu
    | _ => trivial

variable (hown : ForeignTy.Lawful own)

include hown

theorem settled_essence (u : SourceTy) :
    Settled own (u.essence hown.representative) ↔ Settled own u := by
  cases u with
  | foreign x => exact hown.self_representative
  | _ => exact Iff.rfl

theorem equalsAll_iff {ts : List SourceTy} (us : List SourceTy)
    (h : ∀ t ∈ ts, ∀ u, t.equals own u = true ↔
      t.essence hown.representative = u.essence hown.representative ∧
        t.Throughout (Settled own)) :
    equalsAll own ts us = true ↔
      ts.map (essence hown.representative) = us.map (essence hown.representative) ∧
        ∀ t ∈ ts, t.Throughout (Settled own) := by
  induction ts generalizing us with
  | nil => cases us <;> simp [equalsAll]
  | cons t ts ih =>
    cases us with
    | nil => simp [equalsAll]
    | cons u us =>
      have ht := h t List.mem_cons_self u
      have hts := ih us fun v hv => h v (List.mem_cons_of_mem t hv)
      rw [equalsAll, Bool.and_eq_true, ht, hts, List.map_cons, List.map_cons, List.cons.injEq,
        List.forall_mem_cons]
      exact and_and_and_comm

theorem equals_iff {a b : SourceTy} :
    a.equals own b = true ↔
      a.essence hown.representative = b.essence hown.representative ∧
        a.Throughout (Settled own) := by
  induction a using compared_induction generalizing b with
  | h a ih =>
  rw [throughout_iff]
  -- types of different kinds are not equal, and neither are their essences
  cases a with
  | array s m =>
    have hs := @ih s List.mem_cons_self
    simp only [Settled, compared, parts, List.forall_mem_singleton]
    cases b <;> simp [equals, essence, hs, and_right_comm]
  | mapping k v =>
    have hk := @ih k List.mem_cons_self
    have hv := @ih v (List.mem_cons_of_mem k List.mem_cons_self)
    simp only [Settled, compared, parts, List.forall_mem_cons]
    cases b <;> simp [equals, essence, hk, hv, and_and_and_comm]
  | function name ps rs visibility =>
    cases b with
    | function name' ps' rs' visibility' =>
      have hps := equalsAll_iff hown ps' fun p hp u => @ih p (List.mem_append_left rs hp) u
      have hrs := equalsAll_iff hown rs' fun r hr u => @ih r (List.mem_append_right ps hr) u
      simp only [equals, Bool.and_eq_true, beq_iff_eq, hps, hrs, essence, essences_eq_map,
        function.injEq, Settled, compared, List.forall_mem_append]
      constructor
      · rintro ⟨⟨hvisibility, hp, hpl⟩, hr, hrl⟩
        exact ⟨⟨trivial, hp, hr, hvisibility⟩, trivial, hpl, hrl⟩
      · rintro ⟨⟨-, hp, hr, hvisibility⟩, -, hpl, hrl⟩
        exact ⟨⟨hvisibility, hp, hpl⟩, hr, hrl⟩
    | _ => simp [equals, essence]
  | userDefined name s | slice s =>
    have hs := @ih s List.mem_cons_self
    simp only [Settled, compared, parts, List.forall_mem_singleton]
    cases b <;> simp [equals, essence, hs, and_assoc]
  | reference s place immutable =>
    have hs := @ih s List.mem_cons_self
    simp only [Settled, compared, parts, List.forall_mem_singleton]
    cases b <;> simp [equals, essence, hs, and_assoc, and_left_comm]
  | struct name fields id platform =>
    simp only [Settled, compared, parts]
    cases b <;> simp [equals, essence, and_assoc, and_left_comm]
  | foreign x =>
    simp only [equals, Settled, compared, parts, essence]
    by_cases hb : ∃ y, b = .foreign y
    · obtain ⟨y, rfl⟩ := hb
      simp [essence, hown.own_iff (y := y)]
    · have hne : own x b ≠ true := fun h => hb (hown.foreign h)
      cases b <;> first | exact absurd ⟨_, rfl⟩ hb | simp [hne, essence]
  | _ =>
    simp only [Settled, compared, parts]
    cases b <;> simp [equals, essence]

end Equality

/-! ### Lowering and printing see the essence -/

theorem toOption_bind {ε α β : Type} (x : Except ε α) (f : α → Except ε β) :
    (x >>= f).toOption = x.toOption.bind fun a => (f a).toOption := by
  cases x <;> rfl

section Lowering

variable (rep : ForeignTy → ForeignTy) (target : Target) (location : Option Location)

theorem toOption_shapes_essence {ts : List SourceTy}
    (h : ∀ t ∈ ts,
      (shape target location (t.essence rep)).toOption = (shape target location t).toOption) :
    (shapes target location (essences rep ts)).toOption =
      (shapes target location ts).toOption := by
  induction ts with
  | nil => rfl
  | cons t ts ih =>
    have ht := h t List.mem_cons_self
    have hts := ih fun u hu => h u (List.mem_cons_of_mem t hu)
    simp only [essences, shapes, toOption_bind, ht, hts]

/-- A type and its essence have the same lowering, or none. -/
theorem toOption_shape_essence (t : SourceTy) :
    (shape target location (t.essence rep)).toOption = (shape target location t).toOption := by
  induction t using parts_induction with
  | h t ih =>
  cases t with
  | array element size | userDefined name element | slice element =>
    have helement := ih element List.mem_cons_self
    simp only [essence, shape, toOption_bind, helement]
  | reference referent place immutable =>
    have hreferent := ih referent List.mem_cons_self
    cases place <;> simp only [essence, shape, toOption_bind, hreferent]
  | mapping k v =>
    have hk := ih k List.mem_cons_self
    have hv := ih v (List.mem_cons_of_mem k List.mem_cons_self)
    simp only [essence, shape, toOption_bind, hk, hv]
  | function name params returns visibility =>
    cases visibility with
    | external => rfl
    | internal =>
      have hparams := toOption_shapes_essence rep target location fun t ht =>
        ih t (List.mem_append_left returns ht)
      have hreturns := toOption_shapes_essence rep target location fun t ht =>
        ih t (List.mem_append_right params ht)
      simp only [essence, shape, toOption_bind, hparams, hreturns]
  | _ => rfl

variable {rep} in
theorem toOption_lower_of_essence_eq {a b : SourceTy} (h : a.essence rep = b.essence rep) :
    (a.lower target location).toOption = (b.lower target location).toOption := by
  simp only [lower, toOption_bind, ← toOption_shape_essence rep target location a, h,
    toOption_shape_essence rep target location b]

/-- A type that is not lowered is refused as such, at the given location. -/
theorem exists_lower (t : SourceTy) :
    (∃ r, t.lower target location = .ok r) ∨
      ∃ d, t.lower target location = .error d ∧ d.code = "IRGEN001" ∧ d.location = location := by
  cases @outcome target location t with
  | lowered hs _ => exact .inl ⟨_, by rw [lower, hs]; rfl⟩
  | stopped _ hs => exact .inr ⟨_, lower_eq_error_iff.2 hs, rfl, rfl⟩

end Lowering

theorem texts_eq_map (ts : List SourceTy) : texts ts = ts.map text := by
  induction ts with
  | nil => rfl
  | cons t ts ih => rw [texts, ih, List.map_cons]

/-- A type and its essence have the same text, unless the message of a failed type is part of it. -/
theorem text_essence {rep : ForeignTy → ForeignTy} (hrep : ∀ x, (rep x).text = x.text)
    {t : SourceTy} (h : t.Throughout (·.class? ≠ some .failure)) :
    (t.essence rep).text = t.text := by
  induction t using compared_induction with
  | h t ih =>
  obtain ⟨hself, hcompared⟩ := throughout_iff.1 h
  have htext : ∀ u ∈ t.compared, (u.essence rep).text = u.text :=
    fun u hu => ih u hu (hcompared u hu)
  cases t with
  | array element size | reference element place immutable | slice element =>
    have helement := htext element List.mem_cons_self
    simp only [essence, text, helement]
  | mapping k v =>
    have hk := htext k List.mem_cons_self
    have hv := htext v (List.mem_cons_of_mem k List.mem_cons_self)
    simp only [essence, text, hk, hv]
  | function name params returns visibility =>
    have hparams : (params.map (essence rep)).map text = params.map text := by
      rw [List.map_map]
      exact List.map_congr_left fun u hu => htext u (List.mem_append_left returns hu)
    have hreturns : (returns.map (essence rep)).map text = returns.map text := by
      rw [List.map_map]
      exact List.map_congr_left fun u hu => htext u (List.mem_append_right params hu)
    simp only [essence, text, essences_eq_map, texts_eq_map, hparams, hreturns, List.isEmpty_map]
  | failure message => exact absurd rfl hself
  | foreign x => exact hrep x
  | _ => rfl

/-! ### The laws of equality -/

/-- Equality is symmetric and transitive if this is so among foreign types.  A type is equal to
itself exactly if every foreign type in a compared position is, so without foreign types it always
is.  Equal types have the same lowering for every target, or both are refused, as types without a
lowering and at the location that was given; and they have the same text, if no failed type is
compared. -/
theorem equals_congruence {own : ForeignTy → SourceTy → Bool} (hown : ForeignTy.Lawful own) :
    (∀ a b : SourceTy, a.equals own b = b.equals own a) ∧
    (∀ a b c : SourceTy, a.equals own b = true → b.equals own c = true →
      a.equals own c = true) ∧
    (∀ a : SourceTy, a.equals own a = true ↔
      ∀ x, a.Compares (.foreign x) → own x (.foreign x) = true) ∧
    ∀ a b : SourceTy, a.equals own b = true →
      (∀ (target : Target) (location : Option Location),
        (∃ r, a.lower target location = .ok r ∧ b.lower target location = .ok r) ∨
        ∃ d e, a.lower target location = .error d ∧ b.lower target location = .error e ∧
          (d.code = "IRGEN001" ∧ d.location = location) ∧
          (e.code = "IRGEN001" ∧ e.location = location)) ∧
      ((∀ u, a.Compares u → u.class? ≠ some .failure) → a.text = b.text) := by
  have hsymm : ∀ {a b : SourceTy}, a.equals own b = true → b.equals own a = true := by
    intro a b h
    obtain ⟨hessence, ha⟩ := (equals_iff hown).1 h
    exact (equals_iff hown).2
      ⟨hessence.symm, throughout_of_essence_eq (settled_essence hown) hessence ha⟩
  refine ⟨fun a b => Bool.eq_iff_iff.2 ⟨hsymm, hsymm⟩, fun a b c hab hbc => ?_, fun a => ?_,
    fun a b h => ⟨fun target location => ?_, fun hfailure => ?_⟩⟩
  · obtain ⟨hab, ha⟩ := (equals_iff hown).1 hab
    obtain ⟨hbc, -⟩ := (equals_iff hown).1 hbc
    exact (equals_iff hown).2 ⟨hab.trans hbc, ha⟩
  · rw [equals_iff hown, ← throughout_settled_iff]
    exact and_iff_right rfl
  · obtain ⟨hessence, -⟩ := (equals_iff hown).1 h
    have hsame := toOption_lower_of_essence_eq target location hessence
    rcases exists_lower target location a with ⟨r, ha⟩ | ⟨d, ha, hd⟩ <;>
      rcases exists_lower target location b with ⟨r', hb⟩ | ⟨e, hb, he⟩ <;> rw [ha, hb] at hsame
    · cases hsame
      exact .inl ⟨r, ha, hb⟩
    · cases hsame
    · cases hsame
    · exact .inr ⟨d, e, ha, hb, hd, he⟩
  · obtain ⟨hessence, -⟩ := (equals_iff hown).1 h
    have hclass : ∀ u : SourceTy, (u.essence hown.representative).class? ≠ some .failure ↔
        u.class? ≠ some .failure := fun u => by rw [class?_essence]
    have htext := @text_essence hown.representative hown.text_representative
    rw [← htext hfailure, hessence, htext (throughout_of_essence_eq hclass hessence hfailure)]

/-- Foreign types that go by their text. -/
theorem lawful_text : ForeignTy.Lawful fun x t => t.class?.isNone && t.text == x.text where
  foreign {x t} h := by
    cases t with
    | foreign y => exact ⟨y, rfl⟩
    | _ => cases h
  symm {x y} h := by
    have htext : y.text = x.text := eq_of_beq h
    exact beq_iff_eq.2 htext.symm
  trans {x y z} hxy hyz := by
    have htext : z.text = x.text := (eq_of_beq hyz).trans (eq_of_beq hxy)
    exact beq_iff_eq.2 htext
  text {x y} h := by
    have htext : y.text = x.text := eq_of_beq h
    exact htext.symm

/-- Two functions whose names, messages and foreign types differ.  They are equal if foreign types
go by their text, and neither has a lowering. -/
theorem equals_congruence_functions :
    let own : ForeignTy → SourceTy → Bool := fun x t => t.class?.isNone && t.text == x.text
    let a := SourceTy.function "f" [.foreign ⟨0, "other", "T"⟩] [.failure "x"] .internal
    let b := SourceTy.function "g" [.foreign ⟨1, "other", "T"⟩] [.failure "y"] .internal
    let place : Location := { function := some "g", block := some 2 }
    ForeignTy.Lawful own ∧ a.equals own b = true ∧ b.equals own a = true ∧ a.text ≠ b.text ∧
      ∃ d e, a.lower .evm (some place) = .error d ∧ b.lower .evm (some place) = .error e ∧
        (d.code = "IRGEN001" ∧ d.location = some place) ∧
        (e.code = "IRGEN001" ∧ e.location = some place) := by
  intro own a b place
  have hab : a.equals own b = true := by decide
  obtain ⟨hsymm, -, -, hsame⟩ := equals_congruence lawful_text
  refine ⟨lawful_text, hab, (hsymm b a).trans hab, by decide, ?_⟩
  rcases (hsame a b hab).1 .evm (some place) with ⟨r, ha, -⟩ | herrors
  · cases ha
  · exact herrors

/-- A number of bits that is left out is not the same as the default to equality, although texts and
lowerings do not differ. -/
example (own : ForeignTy → SourceTy → Bool) :
    (SourceTy.uint none).equals own (.sized false) = false ∧
      (SourceTy.uint none).text = (SourceTy.sized false).text ∧
      (SourceTy.uint none).lower .evm none = (SourceTy.sized false).lower .evm none :=
  ⟨rfl, rfl, rfl⟩

end SourceTy

end ContractIR
