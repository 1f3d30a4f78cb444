import ScriptLang.Json.Basic

/-!
# Places inside a JSON value

A pointer names a place by the fields and positions that lead there, each behind a slash. Inside a
name `~1` stands for a slash and `~0` for a tilde.
-/

namespace ScriptLang.Json

def unescapeStep : List Char → List Char
  | '~' :: '1' :: rest => '/' :: unescapeStep rest
  | '~' :: '0' :: rest => '~' :: unescapeStep rest
  | c :: rest => c :: unescapeStep rest
  | [] => []

/-- The steps of a pointer; the empty pointer is the whole value. -/
def pointerSteps? (pointer : String) : Option (List String) :=
  match pointer.splitOn "/" with
  | "" :: steps => some (steps.map fun step => String.ofList (unescapeStep step.toList))
  | _ => none

/-- The position that a step names in an array, in decimal without leading zeros. -/
def position? (step : String) : Option Nat :=
  match step.toList with
  | [] => none
  | ['0'] => some 0
  | '0' :: _ => none
  | cs => if cs.all Char.isDigit then some (cs.foldl (fun n c => 10 * n + (c.toNat - 48)) 0) else none

/-- Puts `value` at an existing place. -/
def replace? (value : Json) : (steps : List String) → Json → Option Json
  | [], _ => some value
  | step :: steps, .arr items => do
    let i ← position? step
    let item ← items[i]?
    return .arr (items.set i (← replace? value steps item))
  | step :: steps, .obj fields => do
    let old ← fields.lookup step
    let new ← replace? value steps old
    return .obj (fields.map fun field => if field.1 = step then (step, new) else field)
  | _ :: _, _ => none

end ScriptLang.Json
