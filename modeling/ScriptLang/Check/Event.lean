import ScriptLang.Error

/-!
# Events

What the passes report while they run. Events never influence a pass.
-/

namespace ScriptLang

inductive Event where
  | resolvingScopes
  | declaring (name : String) (ty : Ty)
  /-- A probe settled the return type of a function. -/
  | settled (round : Nat) (name : String) (ret : Ty)
  | stillOpen (round : Nat) (name : String) (ret : Ty)
  | probeFailed (round : Nat) (name : String) (error : TypeError)
  | committing
  | inferringFunction (name : String)
  | inferringScript
  | typed (name : String) (ty : Ty)
  /-- A call picked an overload. -/
  | picked (name : String) (ty : Ty)
  | generating (moduleName : String)
  | emitting (symbol : String)
  deriving DecidableEq, Repr

namespace Event

/-- Whether the event is one of the many small steps. -/
def isDetail : Event → Bool
  | .stillOpen .. => true
  | .probeFailed .. => true
  | .typed .. => true
  | .picked .. => true
  | _ => false

def message : Event → String
  | .resolvingScopes => "resolving scopes"
  | .declaring name ty => "declaring " ++ name ++ ": " ++ ty.text
  | .settled round name ret => s!"round {round}: " ++ name ++ " returns " ++ ret.text
  | .stillOpen round name ret => s!"round {round}: " ++ name ++ " still returns " ++ ret.text
  | .probeFailed round name error =>
    s!"round {round}: probing " ++ name ++ " failed: " ++ error.message
  | .committing => "committing types"
  | .inferringFunction name => "inferring function " ++ name
  | .inferringScript => "inferring script"
  | .typed name ty => name ++ " : " ++ ty.text
  | .picked name ty => name ++ " picks " ++ ty.text
  | .generating moduleName => "generating module " ++ moduleName
  | .emitting symbol => "emitting " ++ symbol

/-- The line of a log. -/
def line (event : Event) : String :=
  (if event.isDetail then "TRACE " else "DEBUG ") ++ event.message

end Event

end ScriptLang
