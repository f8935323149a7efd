import ContractIR.Proofs.Fold.Residue
import Mathlib.Data.Int.ModEq
import Mathlib.Data.Nat.Digits.Defs

/-!
# ContractIR.Proofs.Fold.Preimage — the bytes that are hashed

Each argument of a hash has bytes of its own, and their number depends on its type alone
(`Operand.Encodes`).  The boundaries between the arguments can therefore be found again, and within
them an integer can be read back up to multiples of the number of its words.

* `Operand.encodeAll_eq_some_iff`: the bytes of several arguments are those of the arguments one
  after the other.
* `Operand.flatten_eq_iff`: when arguments of the same types have the same bytes.
* `Operand.encodeAllFits_iff`: which arguments are too long.
-/

namespace ContractIR

/-! ### Big-endian numbers -/

namespace Bytes

/-- The number that the bytes stand for in base 256, the most significant of them first. -/
def toNat (bs : Bytes) : Nat := Nat.ofDigits 256 (bs.reverse.map UInt8.toNat)

theorem toNat_append_singleton (bs : Bytes) (b : UInt8) :
    toNat (bs ++ [b]) = b.toNat + 256 * toNat bs := by
  simp [toNat, Nat.ofDigits_cons]

theorem toNat_bigEndian (n value : Nat) : toNat (bigEndian n value) = value % 256 ^ n := by
  induction n generalizing value with
  | zero => simp [toNat, Nat.mod_one]
  | succ n ih =>
    have hbyte : (value % 256).toUInt8.toNat = value % 256 := by simp
    rw [bigEndian_succ, toNat_append_singleton, ih, hbyte, Nat.pow_succ', Nat.mod_mul]

/-- Among strings of one length, the number determines the bytes. -/
theorem eq_of_toNat_eq {bs bs' : Bytes} (hlength : bs.length = bs'.length)
    (h : toNat bs = toNat bs') : bs = bs' := by
  have hdigit (cs : Bytes) : ∀ d ∈ cs.reverse.map UInt8.toNat, d < 256 := by
    intro d hd
    obtain ⟨b, -, rfl⟩ := List.mem_map.1 hd
    exact b.toNat_lt
  have hdigits := Nat.ofDigits_inj_of_len_eq (by omega) (by simp [hlength]) (hdigit bs)
    (hdigit bs') h
  exact List.reverse_injective (List.map_injective_iff.2 (fun _ _ => UInt8.toNat_inj.1) hdigits)

end Bytes

/-! ### One argument -/

namespace Operand

/-- A truth value, or an integer of whole bytes. -/
inductive Hashable : Operand → Prop
  | bool (value : Bool) : Hashable (.bool value)
  | number (f : Word.Format) (value : Int) : 8 ∣ f.width → Hashable (.number f.type value)

/-- The operand has the given bytes: one for a truth value, and for an integer as many as its type
has, which stand for it modulo the number of words. -/
inductive Encodes : Operand → Bytes → Prop
  | bool (value : Bool) : Encodes (.bool value) [if value then 1 else 0]
  | number (f : Word.Format) (value : Int) {bytes : Bytes} :
      8 * bytes.length = f.width → (Bytes.toNat bytes : Int) = value % 2 ^ f.width →
      Encodes (.number f.type value) bytes

/-- The type of the literal that the operand is, if it is one. -/
def type? : Operand → Option Ty
  | .number type _ => some type
  | .bool _ => some .bool
  | _ => none

/-- The same truth value, or integers of one type that are equal modulo the number of its words. -/
inductive Congruent : Operand → Operand → Prop
  | bool (value : Bool) : Congruent (.bool value) (.bool value)
  | number (f : Word.Format) {a b : Int} :
      a ≡ b [ZMOD 2 ^ f.width] → Congruent (.number f.type a) (.number f.type b)

variable {o o' : Operand} {bytes bytes' : Bytes}

theorem encode_number (f : Word.Format) (value : Int) (h : 8 ∣ f.width) :
    (number f.type value).encode =
      .ok (some (Bytes.bigEndian (f.width / 8) (Word.unsigned f.width value))) := by
  have hwidth : ¬ (f.width : Int) % 8 ≠ 0 := by omega
  simp only [encode, literal?, Literal.encode, f.intTy?_type, if_neg hwidth, f.format_intTy]
  rfl

theorem encodes_bigEndian (f : Word.Format) (value : Int) (h : 8 ∣ f.width) :
    (number f.type value).Encodes
      (Bytes.bigEndian (f.width / 8) (Word.unsigned f.width value)) := by
  refine .number f value ?_ ?_
  · rw [Bytes.length_bigEndian, Nat.mul_div_cancel' h]
  · have hbase : 256 ^ (f.width / 8) = Word.modulus f.width := by
      rw [show 256 = 2 ^ 8 from rfl, ← Nat.pow_mul, Nat.mul_div_cancel' h]
      rfl
    rw [Bytes.toNat_bigEndian, hbase, Nat.mod_eq_of_lt (Word.unsigned_lt _ _), ← Word.modulus_eq]
    exact Word.unsigned_emod f.width value

theorem Encodes.hashable (h : o.Encodes bytes) : o.Hashable := by
  cases h with
  | bool value => exact .bool value
  | number f value hlength _ => exact .number f value ⟨_, hlength.symm⟩

theorem Hashable.exists_encodes (h : o.Hashable) : ∃ bytes, o.Encodes bytes := by
  cases h with
  | bool value => exact ⟨_, .bool value⟩
  | number f value hwidth => exact ⟨_, encodes_bigEndian f value hwidth⟩

theorem Congruent.modEq {f : Word.Format} {a b : Int}
    (h : Congruent (Operand.number f.type a) (Operand.number f.type b)) :
    a ≡ b [ZMOD 2 ^ f.width] := by
  generalize ha : Operand.number f.type a = left at h
  generalize hb : Operand.number f.type b = right at h
  cases h with
  | bool c => cases ha
  | number g hab =>
    simp only [Operand.literal.injEq, Literal.number.injEq] at ha hb
    obtain rfl : f = g := Word.Format.eq_of_type_eq ha.1
    rw [ha.2, hb.2]
    exact hab

/-- The lengths of the bytes agree where the types do, and then the bytes agree where the values
do. -/
theorem Encodes.eq_iff (h : o.Encodes bytes) (h' : o'.Encodes bytes') (htype : o.type? = o'.type?) :
    bytes.length = bytes'.length ∧ (bytes = bytes' ↔ o.Congruent o') := by
  have hbool (f : Word.Format) : f.type ≠ .bool := by
    intro heq
    have hint := f.intTy?_type
    rw [heq] at hint
    cases hint
  cases h with
  | bool c =>
    cases h' with
    | bool d =>
      refine ⟨rfl, ?_⟩
      constructor
      · intro heq
        obtain rfl : c = d := by
          cases c <;> cases d <;> first | rfl | (exact absurd heq (by decide))
        exact .bool c
      · intro hcongruent
        cases hcongruent
        rfl
    | number f b _ _ => exact absurd (Option.some.inj htype).symm (hbool f)
  | number f a hlength hvalue =>
    cases h' with
    | bool d => exact absurd (Option.some.inj htype) (hbool f)
    | number g b hlength' hvalue' =>
      obtain rfl : f = g := Word.Format.eq_of_type_eq (Option.some.inj htype)
      have hlengths : bytes.length = bytes'.length := by omega
      refine ⟨hlengths, ?_⟩
      constructor
      · rintro rfl
        exact .number f (hvalue.symm.trans hvalue')
      · intro hcongruent
        have hnumbers : Bytes.toNat bytes = Bytes.toNat bytes' := by
          have hboth := (hvalue.trans hcongruent.modEq).trans hvalue'.symm
          omega
        exact Bytes.eq_of_toNat_eq hlengths hnumbers

/-- The bytes that are found for an operand are those it has. -/
theorem encode_eq_some_iff : o.encode = .ok (some bytes) ↔ o.Encodes bytes := by
  constructor
  · intro h
    cases o with
    | literal l =>
      cases l with
      | bool c =>
        obtain rfl := Option.some.inj (Except.ok.inj h)
        exact .bool c
      | number t v =>
        simp only [encode, literal?, Literal.encode] at h
        split at h
        · cases h
        · rename_i i hi
          split at h
          · cases h
          · rename_i hwidth
            simp only [bind_eq_ok_iff, pure_eq_ok_iff, Option.some.injEq] at h
            obtain ⟨f, hf, rfl⟩ := h
            obtain rfl := Ty.eq_type_of_format hi hf
            rw [f.intTy?_type] at hi
            obtain rfl := Option.some.inj hi
            have hdvd : 8 ∣ f.width := by
              simp only [not_not] at hwidth
              omega
            exact encodes_bigEndian f v hdvd
    | var id => cases h
    | unknown kind => cases h
  · intro h
    cases h with
    | bool value => rfl
    | number f value hlength hvalue =>
      have hwidth : 8 ∣ f.width := ⟨_, hlength.symm⟩
      have hsame := (Encodes.number f value hlength hvalue).eq_iff
        (encodes_bigEndian f value hwidth) rfl
      rw [encode_number f value hwidth, hsame.2.2 (.number f rfl)]

/-! ### Several arguments -/

variable {os os' : List Operand} {chunks chunks' : List Bytes}

/-- The bytes that are found for several operands are those of each of them, one after the other. -/
theorem encodeAll_eq_some_iff :
    encodeAll os = .ok (some bytes) ↔
      ∃ chunks, List.Forall₂ Encodes os chunks ∧ bytes = chunks.flatten := by
  induction os generalizing bytes with
  | nil =>
    constructor
    · intro h
      exact ⟨[], .nil, (Option.some.inj (Except.ok.inj h)).symm⟩
    · rintro ⟨chunks, hchunks, rfl⟩
      cases hchunks
      rfl
  | cons o os ih =>
    constructor
    · intro h
      simp only [encodeAll, bind_eq_ok_iff] at h
      obtain ⟨first, hfirst, h⟩ := h
      cases first with
      | none => cases h
      | some first =>
        simp only [bind_eq_ok_iff, pure_eq_ok_iff, Option.map_eq_some_iff] at h
        obtain ⟨_, hrest, rest, rfl, rfl⟩ := h
        obtain ⟨chunks, hchunks, rfl⟩ := ih.1 hrest
        exact ⟨first :: chunks, .cons (encode_eq_some_iff.1 hfirst) hchunks, rfl⟩
    · rintro ⟨chunks, hchunks, rfl⟩
      cases hchunks with
      | cons hfirst hrest =>
        simp only [encodeAll, encode_eq_some_iff.2 hfirst, ih.2 ⟨_, hrest, rfl⟩]
        rfl

theorem exists_encodeAll_iff :
    (∃ bytes, encodeAll os = .ok (some bytes)) ↔ ∀ o ∈ os, o.Hashable := by
  simp only [encodeAll_eq_some_iff]
  constructor
  · rintro ⟨_, chunks, hchunks, -⟩
    induction hchunks with
    | nil => simp
    | cons hfirst _ ih => exact List.forall_mem_cons.2 ⟨hfirst.hashable, ih⟩
  · intro h
    induction os with
    | nil => exact ⟨[], [], .nil, rfl⟩
    | cons o os ih =>
      obtain ⟨ho, hos⟩ := List.forall_mem_cons.1 h
      obtain ⟨first, hfirst⟩ := ho.exists_encodes
      obtain ⟨_, chunks, hchunks, -⟩ := ih hos
      exact ⟨_, first :: chunks, .cons hfirst hchunks, rfl⟩

/-- Where the types agree, so do the boundaries; then the bytes agree where all values do. -/
theorem flatten_eq_iff (h : List.Forall₂ Encodes os chunks) (h' : List.Forall₂ Encodes os' chunks')
    (htypes : os.map type? = os'.map type?) :
    chunks.flatten = chunks'.flatten ↔ List.Forall₂ Congruent os os' := by
  induction h generalizing os' chunks' with
  | nil =>
    cases h' with
    | nil => exact ⟨fun _ => .nil, fun _ => rfl⟩
    | cons _ _ => cases htypes
  | cons hfirst _ ih =>
    cases h' with
    | nil => cases htypes
    | cons hfirst' hrest' =>
      obtain ⟨htype, htypes⟩ := List.cons_eq_cons.1 htypes
      obtain ⟨hlength, hiff⟩ := hfirst.eq_iff hfirst' htype
      rw [List.forall₂_cons, ← hiff, ← ih hrest' htypes, List.flatten_cons, List.flatten_cons]
      constructor
      · intro heq
        exact List.append_inj heq hlength
      · rintro ⟨hchunk, hchunks⟩
        rw [hchunk, hchunks]

/-- Arguments are too long if one of them is. -/
theorem encodeAllFits_iff (h : ∀ o ∈ os, o.Hashable) :
    encodeAllFits os = true ↔ ∀ t v, .number t v ∈ os → t.HasWidth (· ≤ Word.capacity) := by
  constructor
  · intro hfits t v hmem
    induction os with
    | nil => cases hmem
    | cons o os ih =>
      obtain ⟨ho, hos⟩ := List.forall_mem_cons.1 h
      cases ho with
      | bool c => exact ih hos hfits ((List.mem_cons.1 hmem).resolve_left (by simp))
      | number f a hdvd =>
        have hrest : f.width ≤ Word.capacity ∧ encodeAllFits os = true := by
          simpa [encodeAllFits, Nat.mod_eq_zero_of_dvd hdvd] using hfits
        rcases List.mem_cons.1 hmem with heq | hmem
        · simp only [Operand.literal.injEq, Literal.number.injEq] at heq
          intro i hi
          rw [heq.1, f.intTy?_type] at hi
          rw [← Option.some.inj hi]
          exact Int.ofNat_le.2 hrest.1
        · exact ih hos hrest.2 hmem
  · intro hwidths
    refine encodeAllFits_of_le fun t v f hmem hf => ?_
    have ht := hwidths t v hmem
    rw [Ty.eq_type_of_format? hf] at ht
    exact_mod_cast Word.Format.hasWidth_type ht

end Operand

/-! ### Folding -/

namespace Expr

variable {H : Bytes → Bytes} {e r : Expr} {args : List Operand}

theorem foldWithin_eq_ok_iff : e.foldWithin H = .ok r ↔ e.fits = true ∧ e.fold H = .ok r := by
  unfold foldWithin
  split
  · rename_i hfits
    exact ⟨fun h => ⟨hfits, h⟩, And.right⟩
  · rename_i hfits
    constructor
    · intro h
      cases h
    · rintro ⟨h, -⟩
      exact absurd h hfits

/-- A hash is replaced by the digest of the bytes of its arguments, if they have bytes. -/
theorem fold_keccak256_iff :
    (keccak256 args).fold H = .ok r ∧ r ≠ keccak256 args ↔
      ∃ bytes, Operand.encodeAll args = .ok (some bytes) ∧ r = digest H bytes := by
  simp only [fold, fold?, bind_eq_ok_iff, pure_eq_ok_iff]
  constructor
  · rintro ⟨⟨_, ⟨found, hfound, rfl⟩, rfl⟩, hne⟩
    cases found with
    | none => exact absurd rfl hne
    | some bytes => exact ⟨bytes, hfound, rfl⟩
  · rintro ⟨bytes, hbytes, rfl⟩
    exact ⟨⟨_, ⟨_, hbytes, rfl⟩, rfl⟩, Expr.noConfusion⟩

theorem exists_fold_keccak256_iff :
    (∃ r, (keccak256 args).fold H = .ok r ∧ r ≠ keccak256 args) ↔ ∀ a ∈ args, a.Hashable := by
  simp only [fold_keccak256_iff, ← Operand.exists_encodeAll_iff]
  constructor
  · rintro ⟨_, bytes, hbytes, -⟩
    exact ⟨bytes, hbytes⟩
  · rintro ⟨bytes, hbytes⟩
    exact ⟨_, bytes, hbytes, rfl⟩

theorem fits_keccak256_iff (h : ∀ a ∈ args, a.Hashable) :
    (keccak256 args).fits = true ↔ (keccak256 args).HasWidths (· ≤ Word.capacity) := by
  refine (Operand.encodeAllFits_iff h).trans ⟨fun hwidths => ⟨hwidths, ?_⟩, fun hwidths => ?_⟩
  · intro change o t heq
    cases heq
  · exact hwidths.operands

/-- A hash is folded exactly if its arguments are truth values and integers of whole bytes; with
limits, these must not be too long.  It is folded to what `H` makes of the bytes of the arguments,
one after the other.  Arguments of the same types have the same bytes exactly if the truth values
are the same and the integers are equal modulo the numbers of their words. -/
theorem fold_keccak256_faithful (H : Bytes → Bytes) (args : List Operand) :
    ((∃ r, (keccak256 args).fold H = .ok r ∧ r ≠ keccak256 args) ↔ ∀ a ∈ args, a.Hashable) ∧
    ((∃ r, (keccak256 args).foldWithin H = .ok r ∧ r ≠ keccak256 args) ↔
      (∀ a ∈ args, a.Hashable) ∧ (keccak256 args).HasWidths (· ≤ Word.capacity)) ∧
    ((keccak256 args).HasWidths (0 ≤ ·) → ∃ r, (keccak256 args).fold H = .ok r) ∧
    (∀ r, (keccak256 args).fold H = .ok r ∨ (keccak256 args).foldWithin H = .ok r →
      r ≠ keccak256 args →
      ∃ chunks, List.Forall₂ Operand.Encodes args chunks ∧
        Operand.encodeAll args = .ok (some chunks.flatten) ∧
        r = .bytes (.byteArray 32) (H chunks.flatten)) ∧
    ∀ args' bytes bytes', args.map Operand.type? = args'.map Operand.type? →
      Operand.encodeAll args = .ok (some bytes) → Operand.encodeAll args' = .ok (some bytes') →
      (bytes = bytes' ↔ List.Forall₂ Operand.Congruent args args') := by
  refine ⟨exists_fold_keccak256_iff, ?_, ?_, ?_, ?_⟩
  · constructor
    · rintro ⟨r, hr, hne⟩
      obtain ⟨hfits, hfold⟩ := foldWithin_eq_ok_iff.1 hr
      have hargs := exists_fold_keccak256_iff.1 ⟨r, hfold, hne⟩
      exact ⟨hargs, (fits_keccak256_iff hargs).1 hfits⟩
    · rintro ⟨hargs, hwidths⟩
      obtain ⟨r, hfold, hne⟩ := exists_fold_keccak256_iff.2 hargs
      exact ⟨r, foldWithin_eq_ok_iff.2 ⟨(fits_keccak256_iff hargs).2 hwidths, hfold⟩, hne⟩
  · intro hwidths
    obtain ⟨found, hfound⟩ := exists_fold? hwidths
    exact ⟨found.getD (keccak256 args), by rw [fold, hfound]; rfl⟩
  · intro r hr hne
    have hfold : (keccak256 args).fold H = .ok r := hr.elim id fold_of_foldWithin
    obtain ⟨bytes, hbytes, rfl⟩ := fold_keccak256_iff.1 ⟨hfold, hne⟩
    obtain ⟨chunks, hchunks, rfl⟩ := Operand.encodeAll_eq_some_iff.1 hbytes
    exact ⟨chunks, hchunks, hbytes, rfl⟩
  · intro args' bytes bytes' htypes hbytes hbytes'
    obtain ⟨chunks, hchunks, rfl⟩ := Operand.encodeAll_eq_some_iff.1 hbytes
    obtain ⟨chunks', hchunks', rfl⟩ := Operand.encodeAll_eq_some_iff.1 hbytes'
    exact Operand.flatten_eq_iff hchunks hchunks' htypes

/-- A truth value, a negative byte and two bytes, and the same with numbers out of range. -/
theorem fold_keccak256_faithful_bytes :
    let args : List Operand := [.bool true, .number (.int 8) (-1), .number (.uint 16) 258]
    let args' : List Operand := [.bool true, .number (.int 8) 255, .number (.uint 16) 65794]
    args.map Operand.type? = args'.map Operand.type? ∧
      Operand.encodeAll args = .ok (some [1, 255, 1, 2]) ∧
      Operand.encodeAll args' = .ok (some [1, 255, 1, 2]) ∧
      List.Forall₂ Operand.Congruent args args' ∧
      (keccak256 args).fold Keccak.digest =
        .ok (.bytes (.byteArray 32) (Keccak.digest [1, 255, 1, 2])) ∧
      (keccak256 args').fold Keccak.digest =
        .ok (.bytes (.byteArray 32) (Keccak.digest [1, 255, 1, 2])) := by
  intro args args'
  have hbytes : Operand.encodeAll args = .ok (some [1, 255, 1, 2]) := by decide
  have hbytes' : Operand.encodeAll args' = .ok (some [1, 255, 1, 2]) := by decide
  obtain ⟨-, -, -, -, hiff⟩ := fold_keccak256_faithful Keccak.digest args
  exact ⟨rfl, hbytes, hbytes', (hiff args' _ _ rfl hbytes hbytes').1 rfl, rfl, rfl⟩

end Expr

end ContractIR
