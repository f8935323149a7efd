import ContractIR.Diagnostic

/-!
# ContractIR.Report — results that carry diagnostics

A report is a value, or the lack of one, together with messages grouped by severity.  The groups
stand in the order in which they were opened, and a severity has at most one group.
-/

namespace ContractIR

/-- Messages grouped by severity, in the order in which the groups were opened. -/
abbrev Messages := List (Severity × List Diagnostic)

namespace Messages

/-- The messages of one group; none if the group was never opened. -/
def group (ms : Messages) (s : Severity) : List Diagnostic := (ms.lookup s).getD []

/-- Appends a message to the group of the given severity, which is opened last if it is new. -/
def push (ms : Messages) (s : Severity) (d : Diagnostic) : Messages :=
  match ms with
  | [] => [(s, [d])]
  | (s', ds) :: rest => if s' = s then (s', ds ++ [d]) :: rest else (s', ds) :: push rest s d

/-- The two groups, errors first, without those that would be empty. -/
def ofGroups (errors warnings : List Diagnostic) : Messages :=
  (if errors.isEmpty then [] else [(.error, errors)]) ++
    (if warnings.isEmpty then [] else [(.warning, warnings)])

@[simp] theorem group_ofGroups_error (es ws : List Diagnostic) :
    (ofGroups es ws).group .error = es := by
  cases es <;> cases ws <;> rfl

@[simp] theorem group_ofGroups_warning (es ws : List Diagnostic) :
    (ofGroups es ws).group .warning = ws := by
  cases es <;> cases ws <;> rfl

end Messages

/-- A result with its messages; it failed if there is no value. -/
structure Report (α : Type) where
  value : Option α
  messages : Messages

namespace Report

variable {α β : Type}

/-- A success without messages. -/
def ok (value : α) : Report α := ⟨some value, []⟩

/-- A success with the given errors and warnings attached. -/
def okWith (value : α) (errors warnings : List Diagnostic) : Report α :=
  ⟨some value, .ofGroups errors warnings⟩

/-- A failure for the given diagnostics, each in the group of its own severity. -/
def err (diagnostics : List Diagnostic) : Report α :=
  ⟨none, diagnostics.foldl (fun ms d => ms.push d.severity d) []⟩

/-- A failure with the given errors and warnings. -/
def errWith (errors warnings : List Diagnostic) : Report α := ⟨none, .ofGroups errors warnings⟩

/-- Applies a function to the value, if there is one, and keeps the messages. -/
def map (f : α → β) (r : Report α) : Report β := ⟨r.value.map f, r.messages⟩

/-- Whether there is a value. -/
def success (r : Report α) : Bool := r.value.isSome

/-- The severities of the groups, in the order in which they were opened. -/
def severities (r : Report α) : List Severity := r.messages.map Prod.fst

/-- The messages in the group of errors. -/
def errors (r : Report α) : List Diagnostic := r.messages.group .error

/-- The messages in the group of warnings. -/
def warnings (r : Report α) : List Diagnostic := r.messages.group .warning

/-- Whether the group of errors holds a message. -/
def hasErrors (r : Report α) : Bool := !r.errors.isEmpty

/-- Every message on a line of its own, errors first. -/
def text (r : Report α) : String :=
  "\n".intercalate
    (r.errors.map (Diagnostic.line .error) ++ r.warnings.map (Diagnostic.line .warning))

/-- The report of a check that found the given diagnostics: it fails if one of them is an error. -/
def ofDiagnostics (ds : List Diagnostic) : Report Unit :=
  let errors := ds.filter fun d => d.severity = .error
  let warnings := ds.filter fun d => d.severity = .warning
  if errors.isEmpty then okWith () errors warnings else errWith errors warnings

@[simp] theorem map_messages (f : α → β) (r : Report α) : (r.map f).messages = r.messages := rfl

@[simp] theorem map_value (f : α → β) (r : Report α) : (r.map f).value = r.value.map f := rfl

@[simp] theorem errors_ofDiagnostics (ds : List Diagnostic) :
    (ofDiagnostics ds).errors = ds.filter fun d => d.severity = .error := by
  unfold ofDiagnostics
  dsimp only
  split <;> simp [errors, okWith, errWith]

@[simp] theorem warnings_ofDiagnostics (ds : List Diagnostic) :
    (ofDiagnostics ds).warnings = ds.filter fun d => d.severity = .warning := by
  unfold ofDiagnostics
  dsimp only
  split <;> simp [warnings, okWith, errWith]

end Report

end ContractIR
