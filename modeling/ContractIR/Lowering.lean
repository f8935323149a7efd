import ContractIR.SourceTy.Printer
import ContractIR.Target
import ContractIR.Word

/-!
# ContractIR.Lowering — from source types to the types of values

Lowering is total apart from failed and foreign types, which can only get this far through an
earlier mistake.  Nested arrays become one array over all their dimensions, innermost first, behind
a single pointer.
-/

namespace ContractIR

/-- The smallest multiple of eight from `width` on, in steps of eight, that is enough bits to number
the variants. -/
def enumWidthFrom (variants width : Nat) : Nat :=
  if Word.modulus width < variants then enumWidthFrom variants (width + 8) else width
termination_by variants - Word.modulus width
decreasing_by
  have h : Word.modulus (width + 8) = Word.modulus width * 256 := Word.modulus_add width 8
  have hpos := Word.modulus_pos width
  omega

/-- The smallest positive multiple of eight bits that can number every variant of an enumeration; a
number of variants below zero counts as none. -/
def enumWidth (variants : Int) : Nat := enumWidthFrom variants.toNat 8

namespace ArraySize

/-- The dimension that an array of this size has. -/
def dim : ArraySize → Dim
  | dynamic => .dynamic
  | any => .anyFixed
  | fixed length => .fixed length

end ArraySize

namespace SourceTy

/-- The error for a type that has no lowering. -/
def unrepresentable (detail : String) (location : Option Location) : Diagnostic :=
  .loweringError .unrepresentableType (some detail) location

/-- What the number and the platform of a structure refer to. -/
def structTag (id : Int) (platform : Option PlatformStruct) : StructTag :=
  platform.elim (.userDefined id) .platform

/-- A lowered type, on the way: an element type together with the dimensions of the arrays around
it, innermost first. -/
structure Shape where
  element : Ty
  dims : List Dim := []

/-- The type that a shape stands for: with dimensions, a pointer to an array. -/
def Shape.type (s : Shape) : Ty :=
  if s.dims.isEmpty then s.element else .ptr (.array s.element s.dims)

variable (target : Target) (location : Option Location)

mutual

/-- The shape of a source type for the given target. -/
def shape : SourceTy → Except Diagnostic Shape
  | uint bits => .ok ⟨.uint (bits.getD defaultBits), []⟩
  | int bits => .ok ⟨.int (bits.getD defaultBits), []⟩
  | bytes none => .ok ⟨.dynamicBytes, []⟩
  | bytes (some bits) => .ok ⟨.bytes bits, []⟩
  | bool => .ok ⟨.bool, []⟩
  | address => .ok ⟨.byteArray target.addressLength, []⟩
  | string => .ok ⟨.dynamicBytes, []⟩
  | value => .ok ⟨.uint (target.valueLength * 8), []⟩
  | functionSelector => .ok ⟨.uint (target.selectorLength * 8), []⟩
  | bufferPointer => .ok ⟨.ptr (.byteArray 1), []⟩
  | array element size => do
    let s ← shape element
    return { s with dims := s.dims ++ [size.dim] }
  | mapping k v => do
    let k ← shape k
    let v ← shape v
    return ⟨.mapping k.type v.type, []⟩
  | struct _ _ id platform => .ok ⟨.ptr (.struct (structTag id platform)), []⟩
  | function _ _ _ .external => .ok ⟨.ptr (.struct (.platform .externalFunction)), []⟩
  | function _ params returns .internal => do
    let ps ← shapes params
    let rs ← shapes returns
    return ⟨.ptr (.function (ps.map Shape.type) (rs.map Shape.type)), []⟩
  | enum _ variants => .ok ⟨.uint (enumWidth variants.length), []⟩
  | contract _ => .ok ⟨.byteArray target.addressLength, []⟩
  | userDefined _ underlying => do
    let s ← shape underlying
    return ⟨s.type, []⟩
  | reference referent place immutable => do
    let s ← shape referent
    match place with
    | .storage => return ⟨.storagePtr immutable s.type, []⟩
    | .memory => return ⟨.ptr s.type, []⟩
  | slice element => do
    let s ← shape element
    return ⟨.ptr (.slice s.type), []⟩
  | failure message =>
    .error (unrepresentable ((failure message).text ++ " (kind " ++ (failure message).kind ++ ")")
      location)
  | foreign x => .error (unrepresentable ("unrecognized type " ++ x.text) location)

/-- The shapes of a list of source types. -/
def shapes : List SourceTy → Except Diagnostic (List Shape)
  | [] => .ok []
  | t :: ts => do
    let s ← shape t
    let ss ← shapes ts
    return s :: ss

end

/-- The type of values that a source type becomes for the given target.  The error for a type that
has none carries `location`. -/
def lower (t : SourceTy) : Except Diagnostic Ty := do return (← shape target location t).type

/-- Lowers types one after the other. -/
def lowerAll (ts : List SourceTy) : Except Diagnostic (List Ty) := ts.mapM (lower target location)

end SourceTy

end ContractIR
