/-!
# Findings

A finding is something questionable that does not stop the compilation.  It
names the definition it is about.  Findings are listed in the order in which
they were made.
-/

namespace SchemaTypes

/-- How bad a finding is. -/
inductive Severity
  | warning
  | error
deriving DecidableEq, Repr

/-- The word for a severity. -/
def Severity.text : Severity → String
  | .warning => "warning"
  | .error => "error"

/-- A finding about a definition. -/
structure Diagnostic where
  /-- How bad it is. -/
  severity : Severity
  /-- The full name of the definition. -/
  subject : String
  /-- What was found. -/
  message : String
deriving DecidableEq, Repr

namespace Diagnostic

/-- A finding that is a warning. -/
def warn (subject message : String) : Diagnostic := ⟨.warning, subject, message⟩

/-- A finding that is an error. -/
def fail (subject message : String) : Diagnostic := ⟨.error, subject, message⟩

/-- The finding in one line. -/
def text (d : Diagnostic) : String := d.severity.text ++ ": " ++ d.subject ++ ": " ++ d.message

/-- How many findings have the given severity. -/
def count (severity : Severity) (findings : List Diagnostic) : Nat :=
  (findings.filter (·.severity == severity)).length

/-- Whether one of the findings is an error. -/
def anyError (findings : List Diagnostic) : Bool := findings.any (·.severity == .error)

end Diagnostic

end SchemaTypes
