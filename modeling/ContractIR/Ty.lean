/-!
# ContractIR.Ty — the types of values

Low-level types: what remains of a source type once a target has fixed the layout.  Byte arrays of
fixed size are measured in bits, so that a size that is no whole number of bytes is still exact.
Equality is structural and decided by `Ty.equals`.

Nodes of a kind outside this list can be carried (`unknown`) but neither printed nor folded.
-/

namespace ContractIR

/-- One dimension of an array. -/
inductive Dim
  | fixed (length : Int)
  | dynamic
  /-- a fixed length that is left open -/
  | anyFixed
  | unknown (kind : String)
deriving DecidableEq, Inhabited

/-- The structures that platforms reserve. -/
inductive PlatformStruct
  | accountInfo
  | accountMeta
  | parameters
  | externalFunction
deriving DecidableEq, Inhabited

/-- What a structure type refers to. -/
inductive StructTag
  /-- a structure of the compiled module, by number -/
  | userDefined (id : Int)
  | platform (which : PlatformStruct)
  | unknown (kind : String)
deriving DecidableEq, Inhabited

/-- The type of a value. -/
inductive Ty
  | bool
  /-- a signed integer of the given number of bits -/
  | int (width : Int)
  /-- an unsigned integer of the given number of bits -/
  | uint (width : Int)
  /-- a fixed number of bytes, given in bits -/
  | bytes (bits : Int)
  | ptr (pointee : Ty)
  | storagePtr (immutable : Bool) (pointee : Ty)
  | function (params returns : List Ty)
  /-- a mapping, which only storage can hold -/
  | mapping (key value : Ty)
  /-- an array over all its dimensions, innermost first -/
  | array (element : Ty) (dimensions : List Dim)
  | struct (tag : StructTag)
  /-- a buffer that starts with its length; strings and dynamic bytes are such buffers -/
  | vector (element : Ty)
  | slice (element : Ty)
  | unknown (kind : String)
deriving Inhabited

namespace Ty

/-- The type of `n` bytes. -/
def byteArray (n : Int) : Ty := .bytes (8 * n)

/-- The layout of strings and of bytes of dynamic size. -/
def dynamicBytes : Ty := .ptr (.vector (byteArray 1))

mutual

/-- Structural equality of types. -/
def equals : Ty → Ty → Bool
  | bool, bool => true
  | int v, int w => v == w
  | uint v, uint w => v == w
  | bytes v, bytes w => v == w
  | ptr s, ptr t => equals s t
  | storagePtr a s, storagePtr b t => a == b && equals s t
  | function ps rs, function ps' rs' => equalsAll ps ps' && equalsAll rs rs'
  | mapping k v, mapping k' v' => equals k k' && equals v v'
  | array s ds, array t es => equals s t && ds == es
  | struct a, struct b => a == b
  | vector s, vector t => equals s t
  | slice s, slice t => equals s t
  | unknown j, unknown k => j == k
  | _, _ => false

/-- Structural equality of lists of types. -/
def equalsAll : List Ty → List Ty → Bool
  | [], [] => true
  | s :: ss, t :: ts => equals s t && equalsAll ss ts
  | _, _ => false

end

/-! ### Equality is structural -/

mutual

theorem equals_self : ∀ t : Ty, equals t t = true
  | bool => by simp [equals]
  | int _ => by simp [equals]
  | uint _ => by simp [equals]
  | bytes _ => by simp [equals]
  | ptr t => by simp [equals, equals_self t]
  | storagePtr _ t => by simp [equals, equals_self t]
  | function ps rs => by simp [equals, equalsAll_self ps, equalsAll_self rs]
  | mapping k v => by simp [equals, equals_self k, equals_self v]
  | array t _ => by simp [equals, equals_self t]
  | struct _ => by simp [equals]
  | vector t => by simp [equals, equals_self t]
  | slice t => by simp [equals, equals_self t]
  | unknown _ => by simp [equals]

theorem equalsAll_self : ∀ ts : List Ty, equalsAll ts ts = true
  | [] => by simp [equalsAll]
  | t :: ts => by simp [equalsAll, equals_self t, equalsAll_self ts]

end

mutual

theorem eq_of_equals : ∀ {s t : Ty}, equals s t = true → s = t
  | bool, t, h => by cases t <;> simp_all [equals]
  | int _, t, h => by cases t <;> simp_all [equals]
  | uint _, t, h => by cases t <;> simp_all [equals]
  | bytes _, t, h => by cases t <;> simp_all [equals]
  | ptr s, t, h => by
    cases t <;> simp only [equals, Bool.false_eq_true] at h
    rw [eq_of_equals h]
  | storagePtr _ s, t, h => by
    cases t <;> simp only [equals, Bool.false_eq_true, Bool.and_eq_true, beq_iff_eq] at h
    rw [h.1, eq_of_equals h.2]
  | function ps rs, t, h => by
    cases t <;> simp only [equals, Bool.false_eq_true, Bool.and_eq_true] at h
    rw [eq_of_equalsAll h.1, eq_of_equalsAll h.2]
  | mapping k v, t, h => by
    cases t <;> simp only [equals, Bool.false_eq_true, Bool.and_eq_true] at h
    rw [eq_of_equals h.1, eq_of_equals h.2]
  | array s _, t, h => by
    cases t <;> simp only [equals, Bool.false_eq_true, Bool.and_eq_true, beq_iff_eq] at h
    rw [eq_of_equals h.1, h.2]
  | struct _, t, h => by cases t <;> simp_all [equals]
  | vector s, t, h => by
    cases t <;> simp only [equals, Bool.false_eq_true] at h
    rw [eq_of_equals h]
  | slice s, t, h => by
    cases t <;> simp only [equals, Bool.false_eq_true] at h
    rw [eq_of_equals h]
  | unknown _, t, h => by cases t <;> simp_all [equals]

theorem eq_of_equalsAll : ∀ {ss ts : List Ty}, equalsAll ss ts = true → ss = ts
  | [], [], _ => rfl
  | [], _ :: _, h => by simp [equalsAll] at h
  | _ :: _, [], h => by simp [equalsAll] at h
  | s :: ss, t :: ts, h => by
    simp only [equalsAll, Bool.and_eq_true] at h
    rw [eq_of_equals h.1, eq_of_equalsAll h.2]

end

theorem equals_iff {s t : Ty} : equals s t = true ↔ s = t :=
  ⟨eq_of_equals, fun h => h ▸ equals_self s⟩

instance : DecidableEq Ty := fun s t =>
  if h : equals s t = true then isTrue (eq_of_equals h)
  else isFalse fun e => h (equals_iff.2 e)

end Ty

end ContractIR
