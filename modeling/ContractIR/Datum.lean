import ContractIR.Decimal.Text
import ContractIR.Diagnostic

/-!
# ContractIR.Datum — describing values of an unforeseen form

When a value has none of the forms that a piece of code handles, the resulting error describes it.
`Datum` is the shape such a value can have at all: plain data.
-/

namespace ContractIR

/-- A piece of plain data. -/
inductive Datum
  | null
  | bool (value : Bool)
  | number (value : Float)
  | text (value : String)
  | list (items : List Datum)
  | record (fields : List (String × Datum))
deriving Inhabited

namespace Datum

mutual

/-- The text of a piece of data on its own: the items of a list are joined by commas, and a record
shows nothing of its fields. -/
def render : Datum → String
  | null => "null"
  | bool value => if value then "true" else "false"
  | number value => Decimal.text value
  | text value => value
  | list items => ",".intercalate (renderItems items)
  | record _ => "[object Object]"

/-- The texts of the items of a list; a null item leaves its place empty. -/
def renderItems : List Datum → List String
  | [] => []
  | null :: rest => "" :: renderItems rest
  | item :: rest => item.render :: renderItems rest

end

/-- How an error names the data: by its kind if it is a record that has one, else by its text. -/
def describe : Datum → String
  | record fields =>
    match fields.lookup "kind" with
    | some kind => "kind " ++ kind.render
    | none => (record fields).render
  | other => other.render

/-- The error for data of a form that nothing handles. -/
def unexpected (d : Datum) : Diagnostic := .unexpected d.describe

end Datum

end ContractIR
