import ScriptLang.Fault
import ScriptLang.Source.Span
import ScriptLang.Ty.Unify

/-!
# Type errors

What stops the compilation of a unit. A mismatch of two types carries its origin: the construct
that asked for the two to agree.
-/

namespace ScriptLang

/-- Where in the program two types were required to agree. -/
inductive Origin where
  /-- A value must have the type of the variable it is assigned to. -/
  | assignment (target : String) (span : Span)
  /-- An initial value must have the annotated type. -/
  | ascription (name : String) (ascriptionSpan valueSpan : Span)
  /-- A condition must be `Bool`. -/
  | condition (span : Span)
  /-- The bound of a `for` loop must be `Int`. -/
  | forBound (span : Span)
  /-- A returned value must have the return type of its routine. -/
  | returned (returnSpan fnSpan : Span)
  /-- A function without any `return` must return `Void`. -/
  | missingReturn (fnSpan : Span)
  /-- A stored value must not be `Void`. -/
  | storedValue (name : String) (span : Span)
  /-- No construct of the program. -/
  | builtin
  deriving DecidableEq, Repr

namespace Origin

def span? : Origin → Option Span
  | .assignment _ span => some span
  | .ascription _ _ valueSpan => some valueSpan
  | .condition span => some span
  | .forBound span => some span
  | .returned returnSpan _ => some returnSpan
  | .missingReturn fnSpan => some fnSpan
  | .storedValue _ span => some span
  | .builtin => none

end Origin

inductive TypeError where
  | undeclaredVariable (name : String) (span : Span)
  /-- No overload of the name accepts the arguments, or there is none at all. -/
  | undeclaredFunction (name : String) (args : List Ty) (span : Span)
  | mismatch (expected found : Ty) (origin : Origin)
  /-- The type is still unknown or ambiguous where one type is needed. -/
  | couldNotInfer (ty : Ty) (span : Span)
  | illegalRedefine (name : String) (span previous : Span)
  /-- Assignment to a parameter or to the variable of a loop. -/
  | notAssignable (name : String) (span : Span)
  /-- An annotation that an earlier pass has to leave is not there. The compiler is at fault, not
  the program. -/
  | missing (what : String) (span : Span)
  | unknownType (name : String) (span : Span)
  deriving DecidableEq, Repr

namespace TypeError

def span : TypeError → Span
  | .undeclaredVariable _ span => span
  | .undeclaredFunction _ _ span => span
  | .mismatch _ _ origin => origin.span?.getD {}
  | .couldNotInfer _ span => span
  | .illegalRedefine _ span _ => span
  | .notAssignable _ span => span
  | .missing _ span => span
  | .unknownType _ span => span

def isInternal : TypeError → Bool
  | .missing _ _ => true
  | _ => false

def message : TypeError → String
  | .undeclaredVariable name _ => "undeclared variable `" ++ name ++ "`"
  | .undeclaredFunction name args _ =>
    "no function `" ++ name ++ "` accepting (" ++ Ty.textAll ", " args ++ ")"
  | .mismatch _ _ (.storedValue name _) => "`" ++ name ++ "` cannot hold the result of a procedure"
  | .mismatch expected found _ =>
    "type mismatch: expected `" ++ expected.text ++ "`, found `" ++ found.text ++ "`"
  | .couldNotInfer ty _ =>
    if ty.isVariant then "ambiguous type: could be any of " ++ ty.text else "could not infer type"
  | .illegalRedefine name _ _ => "`" ++ name ++ "` is already defined in this scope"
  | .notAssignable name _ => "cannot assign to `" ++ name ++ "`"
  | .missing what _ => "internal compiler error: " ++ what
  | .unknownType name _ => "unknown type `" ++ name ++ "`"

end TypeError

/-- Merges the type found with the one expected. -/
def Ty.unifyOrMismatch (expected found : Ty) (origin : Origin) : Except TypeError Ty :=
  match expected.unify found with
  | some ty => .ok ty
  | none => .error (.mismatch expected found origin)

/-- Why a pass stopped: an error of the program, or a fault of the caller. -/
inductive Halt where
  | error (e : TypeError)
  | fault (f : Fault)
  deriving DecidableEq, Repr

namespace Halt

def missing (what : String) (span : Span) : Halt :=
  .error (.missing what span)

def couldNotInfer (ty : Ty) (span : Span) : Halt :=
  .error (.couldNotInfer ty span)

def mismatch (expected found : Ty) (origin : Origin) : Halt :=
  .error (.mismatch expected found origin)

end Halt

/-- A value that has to be there. -/
def demand (value : Option α) (halt : Halt) : Except Halt α :=
  match value with
  | some a => .ok a
  | none => .error halt

end ScriptLang
