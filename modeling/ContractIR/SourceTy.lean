import ContractIR.Ty

/-!
# ContractIR.SourceTy — the types of the source language

Types as semantic analysis produces them, before any target has fixed their layout.  Equality of
source types (`SourceTy.equals`) is the language's own: it ignores the fields of structures and the
names of functions and takes all failed types for equal.  What a foreign type is equal to is left to
that type.
-/

namespace ContractIR

/-- The size of a source array. -/
inductive ArraySize
  | dynamic
  /-- a fixed size that is left open -/
  | any
  | fixed (length : Int)
deriving DecidableEq, Inhabited

/-- Who can call a function value. -/
inductive Visibility
  | internal
  | external
deriving DecidableEq, Inhabited

/-- Where the referent of a reference lives. -/
inductive DataPlace
  | memory
  | storage
deriving DecidableEq, Inhabited

/-- A type from elsewhere; a number tells it from others of its kind and text. -/
structure ForeignTy where
  number : Nat
  kind : String
  text : String
deriving DecidableEq, Inhabited

/-- A type of the source language. -/
inductive SourceTy
  /-- an unsigned integer; without a number of bits it has `defaultBits` -/
  | uint (bits : Option Int)
  /-- a signed integer; without a number of bits it has `defaultBits` -/
  | int (bits : Option Int)
  /-- bytes, of dynamic size if no number of bits is given -/
  | bytes (bits : Option Int)
  | bool
  | address
  | string
  /-- an amount of the native token -/
  | value
  | functionSelector
  | bufferPointer
  | array (element : SourceTy) (size : ArraySize)
  | mapping (key value : SourceTy)
  /-- a structure by its number among those of the module; `platform` marks a reserved one -/
  | struct (name : String) (fields : List (String × SourceTy)) (id : Int)
    (platform : Option PlatformStruct)
  | function (name : String) (params returns : List SourceTy) (visibility : Visibility)
  | enum (name : String) (variants : List String)
  /-- a reference to a deployed contract -/
  | contract (name : String)
  /-- a type of its own that is represented as `underlying` -/
  | userDefined (name : String) (underlying : SourceTy)
  | reference (referent : SourceTy) (place : DataPlace) (immutable : Bool)
  /-- a pointer together with a length -/
  | slice (element : SourceTy)
  /-- what remains of a type that could not be determined -/
  | failure (message : String)
  | foreign (object : ForeignTy)
deriving Inhabited

namespace SourceTy

/-- The number of bits of an integer type for which none is given. -/
abbrev defaultBits : Int := 256

/-- An integer type with a number of bits.  By default that is the number that it would have anyway,
but to equality a type with the number and a type without are different. -/
def sized (signed : Bool) (bits : Int := defaultBits) : SourceTy :=
  if signed then .int (some bits) else .uint (some bits)

/-- Bytes of a fixed size, by the number of bytes. -/
def fixedBytes (size : Int) : SourceTy := .bytes (some (8 * size))

/-- The name of the type's kind. -/
def kind : SourceTy → String
  | uint _ => "uint"
  | int _ => "int"
  | bytes _ => "bytes"
  | bool => "bool"
  | address => "address"
  | string => "string"
  | value => "value"
  | functionSelector => "function_selector"
  | bufferPointer => "buffer_pointer"
  | array _ _ => "array"
  | mapping _ _ => "mapping"
  | struct _ _ _ _ => "struct"
  | function _ _ _ _ => "function"
  | enum _ _ => "enum"
  | contract _ => "contract"
  | userDefined _ _ => "user_defined"
  | reference _ _ _ => "reference"
  | slice _ => "slice"
  | failure _ => "fail"
  | foreign x => x.kind

/-! ### Classes -/

/-- The classes into which source types fall; a foreign type is in none. -/
inductive Class
  | elementary
  | array
  | mapping
  | struct
  | function
  | enum
  | contract
  | userDefined
  | reference
  | slice
  | failure
deriving DecidableEq, Inhabited

/-- The class of a type. -/
def class? : SourceTy → Option Class
  | uint _ | int _ | bytes _ | bool | address | string | value | functionSelector
  | bufferPointer => some .elementary
  | array _ _ => some .array
  | mapping _ _ => some .mapping
  | struct _ _ _ _ => some .struct
  | function _ _ _ _ => some .function
  | enum _ _ => some .enum
  | contract _ => some .contract
  | userDefined _ _ => some .userDefined
  | reference _ _ _ => some .reference
  | slice _ => some .slice
  | failure _ => some .failure
  | foreign _ => none

/-! ### Equality -/

section Equality

variable (own : ForeignTy → SourceTy → Bool)

mutual

/-- Whether two types are the same to the source language; `own` says what foreign types take for
the same as themselves. -/
def equals : SourceTy → SourceTy → Bool
  | uint v, uint w => v == w
  | int v, int w => v == w
  | bytes v, bytes w => v == w
  | bool, bool => true
  | address, address => true
  | string, string => true
  | value, value => true
  | functionSelector, functionSelector => true
  | bufferPointer, bufferPointer => true
  | array s m, array t n => equals s t && m == n
  | mapping k v, mapping k' v' => equals k k' && equals v v'
  | struct name _ id platform, struct name' _ id' platform' =>
    id == id' && name == name' && platform == platform'
  | function _ ps rs visibility, function _ ps' rs' visibility' =>
    visibility == visibility' && equalsAll ps ps' && equalsAll rs rs'
  | enum name variants, enum name' variants' => name == name' && variants == variants'
  | contract name, contract name' => name == name'
  | userDefined name s, userDefined name' t => name == name' && equals s t
  | reference s place immutable, reference t place' immutable' =>
    place == place' && immutable == immutable' && equals s t
  | slice s, slice t => equals s t
  | failure _, failure _ => true
  | foreign x, t => own x t
  | _, _ => false

/-- Whether two lists of types are the same to the source language. -/
def equalsAll : List SourceTy → List SourceTy → Bool
  | [], [] => true
  | s :: ss, t :: ts => equals s t && equalsAll ss ts
  | _, _ => false

end

end Equality

end SourceTy

end ContractIR
