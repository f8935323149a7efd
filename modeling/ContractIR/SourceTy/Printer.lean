import ContractIR.SourceTy
import ContractIR.Ty.Printer

/-!
# ContractIR.SourceTy.Printer — the text of a source type
-/

namespace ContractIR

namespace ArraySize

/-- What follows the element type inside the brackets. -/
def text : ArraySize → String
  | dynamic => ""
  | any => ", any"
  | fixed length => ", " ++ Decimal.intText length

end ArraySize

namespace Visibility

def text : Visibility → String
  | internal => "internal"
  | external => "external"

end Visibility

namespace DataPlace

def text : DataPlace → String
  | memory => "memory"
  | storage => "storage"

end DataPlace

namespace SourceTy

mutual

/-- The text of a source type. -/
def text : SourceTy → String
  | uint bits => "uint" ++ Decimal.intText (bits.getD defaultBits)
  | int bits => "int" ++ Decimal.intText (bits.getD defaultBits)
  | bytes none => "bytes"
  | bytes (some bits) => "bytes" ++ Decimal.eighthsText bits
  | bool => "bool"
  | address => "address"
  | string => "string"
  | value => "value"
  | functionSelector => "function_selector"
  | bufferPointer => "buffer_pointer"
  | array element size => "array<" ++ element.text ++ size.text ++ ">"
  | mapping k v => "mapping<" ++ k.text ++ ", " ++ v.text ++ ">"
  | struct name _ _ _ => name
  | function _ params returns visibility =>
    "function(" ++ ", ".intercalate (texts params) ++ ") " ++ visibility.text ++
      (if returns.isEmpty then "" else " returns (" ++ ", ".intercalate (texts returns) ++ ")")
  | enum name _ => "enum " ++ name
  | contract name => "contract " ++ name
  | userDefined name _ => name
  | reference referent place immutable =>
    referent.text ++ " " ++ place.text ++ (if immutable then " immutable" else "")
  | slice element => "slice<" ++ element.text ++ ">"
  | failure message => "<error: " ++ message ++ ">"
  | foreign x => x.text

/-- The texts of a list of source types. -/
def texts : List SourceTy → List String
  | [] => []
  | t :: ts => t.text :: texts ts

end

end SourceTy

end ContractIR
