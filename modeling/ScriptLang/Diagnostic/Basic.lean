import ScriptLang.Scope.Builtins

/-!
# Diagnostics

A type error as it is shown to a user: a stable code, a message, labels on the source and perhaps a
line of help. The first label is the primary one; it stands where the error is.
-/

namespace ScriptLang

/-- A remark on a place of the source. -/
structure DiagnosticLabel where
  span : Span
  message : String
  primary : Bool
  deriving DecidableEq, Repr

structure Diagnostic where
  code : String
  message : String
  labels : List DiagnosticLabel
  help : Option String
  deriving DecidableEq, Repr

def TypeError.code : TypeError → String
  | .mismatch .. => "E0001"
  | .undeclaredVariable .. => "E0002"
  | .undeclaredFunction .. => "E0003"
  | .couldNotInfer .. => "E0004"
  | .illegalRedefine .. => "E0005"
  | .notAssignable .. => "E0006"
  | .unknownType .. => "E0007"
  | .missing .. => "E0900"

namespace Diagnostic

def primary (span : Span) (message : String) : DiagnosticLabel :=
  ⟨span, message, true⟩

def secondary (span : Span) (message : String) : DiagnosticLabel :=
  ⟨span, message, false⟩

/-- Help for those who expect the two number types to mix. -/
def numericHelp (expected found : Ty) : Option String :=
  if (expected = .int ∧ found = .float) ∨ (expected = .float ∧ found = .int) then
    some "Int and Float are distinct types and never convert implicitly"
  else
    none

/-- The labels and the help of a mismatch, by its origin. -/
def ofMismatch (expected found : Ty) : Origin → List DiagnosticLabel × Option String
  | .assignment target span =>
    ([primary span ("`" ++ target ++ "` has type " ++ expected.text ++ ", found " ++ found.text)],
      numericHelp expected found)
  | .ascription _ ascriptionSpan valueSpan =>
    ([primary valueSpan ("found " ++ found.text),
      secondary ascriptionSpan ("expected " ++ expected.text ++ " from annotation")],
      numericHelp expected found)
  | .condition span => ([primary span both], some "conditions must be Bool")
  | .forBound span => ([primary span both], some "loop bounds must be Int")
  | .returned returnSpan fnSpan =>
    ([primary returnSpan both, secondary fnSpan ("this routine returns " ++ expected.text)],
      numericHelp expected found)
  | .missingReturn fnSpan =>
    ([primary fnSpan ("declared to return " ++ expected.text ++ " but never returns")],
      some "add a `return`, or drop the return type to make this a procedure")
  | .storedValue _ span =>
    ([primary span ("this call returns " ++ found.text)],
      some "call a procedure as a statement on its own")
  | .builtin => ([primary {} both], none)
where
  both : String := "expected " ++ expected.text ++ ", found " ++ found.text

/-- The labels and the help of an error. -/
def remarks : TypeError → List DiagnosticLabel × Option String
  | .mismatch expected found origin => ofMismatch expected found origin
  | .undeclaredVariable name span =>
    ([primary span "not found in this scope"], some ("declare it first with `" ++ name ++ " := ...`"))
  | .undeclaredFunction _ _ span => ([primary span "no overload matches these arguments"], none)
  | .couldNotInfer ty span =>
    if ty.isVariant then
      ([primary span ("could be any of " ++ ty.text)], some "add a type annotation to pick one")
    else
      ([primary span "type cannot be determined"], none)
  | .illegalRedefine _ span previous =>
    ([primary span "redefined here", secondary previous "first defined here"], none)
  | .notAssignable _ span =>
    ([primary span "parameters and loop variables cannot be reassigned"], none)
  | .unknownType _ span =>
    ([primary span "unknown type"], some ("expected one of " ++ ", ".intercalate typeNames))
  | .missing _ span => ([primary span "here"], some "this is a bug in the compiler")

def ofError (error : TypeError) : Diagnostic :=
  let (labels, help) := remarks error
  { code := error.code, message := error.message, labels, help }

def primaryLabel? (d : Diagnostic) : Option DiagnosticLabel :=
  d.labels.find? (·.primary)

end Diagnostic

end ScriptLang
