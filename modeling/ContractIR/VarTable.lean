import ContractIR.Decimal.Text
import ContractIR.Diagnostic
import ContractIR.Ty

/-!
# ContractIR.VarTable — the variables of a function

An append-only table.  A variable is its index: it is handed out once, typed once and never used
again.
-/

namespace ContractIR

/-- A declared variable; the name is the one it had in the source. -/
structure Variable where
  type : Ty
  name : Option String := none
deriving DecidableEq, Inhabited

/-- The variables of a function, in order of declaration. -/
structure VarTable where
  vars : Array Variable := #[]
deriving DecidableEq, Inhabited

namespace VarTable

/-- The number of declared variables. -/
def size (t : VarTable) : Nat := t.vars.size

/-- Declares a variable; it is the one after all those already declared. -/
def declare (t : VarTable) (type : Ty) (name : Option String) : VarId × VarTable :=
  (t.size, ⟨t.vars.push ⟨type, name⟩⟩)

/-- The variable of the given number, if it is declared. -/
def get? (t : VarTable) (id : Int) : Option Variable :=
  if 0 ≤ id then t.vars[id.toNat]? else none

/-- Whether a variable is declared. -/
def contains (t : VarTable) (id : Int) : Bool := 0 ≤ id ∧ id < t.size

/-- The variables with their numbers, in order of declaration. -/
def entries (t : VarTable) : List (VarId × Variable) :=
  t.vars.toList.zipIdx.map fun (v, i) => ((i : Int), v)

/-! ### What a declaration changes -/

@[simp] theorem size_declare (t : VarTable) (type : Ty) (name : Option String) :
    (t.declare type name).2.size = t.size + 1 := by
  simp [declare, size]

theorem contains_eq_isSome_get? (t : VarTable) (id : Int) :
    t.contains id = (t.get? id).isSome := by
  by_cases h : 0 ≤ id
  · have hs : id < (t.vars.size : Int) ↔ id.toNat < t.vars.size := by omega
    rw [get?, if_pos h]
    by_cases hlt : id.toNat < t.vars.size
    · simp [contains, size, h, hs, hlt]
    · simp [contains, size, h, hs, hlt]
  · simp [contains, get?, h]

/-- A declaration adds one variable and leaves the others as they are. -/
theorem get?_declare (t : VarTable) (type : Ty) (name : Option String) (id : Int) :
    (t.declare type name).2.get? id =
      if id = t.size then some ⟨type, name⟩ else t.get? id := by
  by_cases h : 0 ≤ id
  · have hs : id = (t.vars.size : Int) ↔ id.toNat = t.vars.size := by omega
    simp [declare, get?, size, h, hs, Array.getElem?_push]
  · have hne : id ≠ (t.vars.size : Int) := by omega
    simp [get?, size, h, hne]

theorem contains_declare (t : VarTable) (type : Ty) (name : Option String) (id : VarId) :
    (t.declare type name).2.contains id = (decide (id = t.size) || t.contains id) := by
  rw [contains_eq_isSome_get?, get?_declare, contains_eq_isSome_get?]
  by_cases h : id = t.size
  · simp [h]
  · simp [h]

@[simp] theorem contains_size (t : VarTable) : t.contains t.size = false := by simp [contains]

/-! ### Asking for a variable -/

/-- The error for a variable that is not declared. -/
def unknownVariable (idText : String) (location : Option Location) : Diagnostic :=
  .irError .unknownVariable (some ("%" ++ idText)) location

/-- The variable of the given number; the error for an undeclared one carries `location`. -/
def lookup (t : VarTable) (id : VarId) (location : Option Location) : Except Diagnostic Variable :=
  match t.get? id with
  | some v => .ok v
  | none => .error (unknownVariable (Decimal.intText id) location)

/-- The variable whose number is given as a float, if it is declared.  A float that is no integer
names no variable. -/
def find? (t : VarTable) (id : Float) : Option Variable := (Decimal.toInt? id).bind t.get?

/-- The variable whose number is given as a float; the error for an undeclared one carries
`location`. -/
def find (t : VarTable) (id : Float) (location : Option Location) : Except Diagnostic Variable :=
  match t.find? id with
  | some v => .ok v
  | none => .error (unknownVariable (Decimal.text id) location)

end VarTable

end ContractIR
