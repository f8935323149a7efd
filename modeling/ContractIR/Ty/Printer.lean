import ContractIR.Decimal.Text
import ContractIR.Diagnostic
import ContractIR.Ty

/-!
# ContractIR.Ty.Printer — the text of a type

Every type has one text.  Printing fails on a node of an unknown kind, and the first such node in
reading order is the one that is reported.
-/

namespace ContractIR

namespace Dim

/-- A dimension as it follows the element type. -/
def text : Dim → Except Diagnostic String
  | fixed length => .ok ("[" ++ Decimal.intText length ++ "]")
  | dynamic => .ok "[]"
  | anyFixed => .ok "[?]"
  | unknown kind => .error (.unexpectedKind kind)

end Dim

namespace PlatformStruct

/-- The name that the structure has on its platform. -/
def text : PlatformStruct → String
  | accountInfo => "SolAccountInfo"
  | accountMeta => "SolAccountMeta"
  | parameters => "SolParameters"
  | externalFunction => "ExternalFunction"

end PlatformStruct

namespace StructTag

/-- What follows the point in the text of a structure type. -/
def text : StructTag → Except Diagnostic String
  | userDefined id => .ok (Decimal.intText id)
  | platform which => .ok which.text
  | unknown kind => .error (.unexpectedKind kind)

end StructTag

namespace Ty

mutual

/-- The text of a type. -/
def text : Ty → Except Diagnostic String
  | bool => .ok "bool"
  | int width => .ok ("int" ++ Decimal.intText width)
  | uint width => .ok ("uint" ++ Decimal.intText width)
  | bytes bits => .ok ("bytes" ++ Decimal.eighthsText bits)
  | ptr pointee => do return "ptr<" ++ (← pointee.text) ++ ">"
  | storagePtr immutable pointee => do
    return (if immutable then "const_storage_ptr<" else "storage_ptr<") ++ (← pointee.text) ++ ">"
  | function params returns => do
    let ps ← texts params
    let rs ← texts returns
    return "fn(" ++ ", ".intercalate ps ++ ") -> (" ++ ", ".intercalate rs ++ ")"
  | mapping key value => do
    let k ← key.text
    let v ← value.text
    return "mapping<" ++ k ++ " -> " ++ v ++ ">"
  | array element dimensions => do
    let e ← element.text
    let ds ← dimensions.mapM Dim.text
    return e ++ String.join ds
  | struct tag => do return "struct." ++ (← tag.text)
  | vector element => do return "struct.vector<" ++ (← element.text) ++ ">"
  | slice element => do return "slice<" ++ (← element.text) ++ ">"
  | unknown kind => .error (.unexpectedKind kind)

/-- The texts of a list of types. -/
def texts : List Ty → Except Diagnostic (List String)
  | [] => .ok []
  | t :: ts => do
    let s ← t.text
    let ss ← texts ts
    return s :: ss

end

end Ty

end ContractIR
