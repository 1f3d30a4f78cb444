import ScriptLang.Diagnostic.Basic
import ScriptLang.Json.Text
import ScriptLang.Source.LineIndex

/-!
# Diagnostics as JSON

One object on one line, for tools: the fields of the diagnostic, with the line and the byte column
at which each label starts.
-/

namespace ScriptLang

/-- A label with its place. -/
structure PlacedLabel where
  label : DiagnosticLabel
  start : Position
  deriving DecidableEq, Repr

def PlacedLabel.toJson (placed : PlacedLabel) : Json :=
  .obj [("start", .int placed.label.span.start.toNat), ("end", .int placed.label.span.stop.toNat),
    ("line", .int placed.start.line), ("column", .int placed.start.column),
    ("label", .str placed.label.message), ("primary", .bool placed.label.primary)]

namespace Diagnostic

def placeLabels (index : LineIndex) : List DiagnosticLabel → Except Fault (List PlacedLabel)
  | [] => .ok []
  | label :: labels => do
    let start ← index.spanPosition label.span
    return ⟨label, start⟩ :: (← placeLabels index labels)

/-- The diagnostic as a whole stands where its primary label starts. -/
def placeOf (placed : List PlacedLabel) : Position :=
  ((placed.find? (·.label.primary)).map (·.start)).getD ⟨1, 1⟩

def toJson (d : Diagnostic) (source file : String) : Except Fault Json := do
  let placed ← placeLabels (.ofSource source) d.labels
  let place := placeOf placed
  return .obj [("code", .str d.code), ("severity", .str "error"), ("message", .str d.message),
    ("file", .str file), ("line", .int place.line), ("column", .int place.column),
    ("spans", .arr (placed.map PlacedLabel.toJson)), ("help", .ofOption .str d.help)]

end Diagnostic

/-- The JSON line of an error. -/
def TypeError.jsonLine (error : TypeError) (source file : String) : Except Fault String := do
  return (← (Diagnostic.ofError error).toJson source file).text

end ScriptLang
