import ScriptLang.Compile
import ScriptLang.Json.Pointer
import ScriptLang.Tree.Reader
import ScriptLang.Tree.Writer

/-!
# Sessions

One tree and one resolution on which passes run one at a time, in any order. The resolution is that
of the last pass that gave one; it need not belong to the tree.
-/

namespace ScriptLang

structure Session where
  unit : CompileUnit
  resolution : Option Resolution := none
  options : Options := {}

namespace Session

/-- Takes over what a pass left. A resolution replaces the old one, an error leaves it. -/
def adopt (session : Session) (run : Run Resolution) : Session × Except Halt Resolution :=
  match run.result with
  | .ok resolution => ({ session with unit := run.unit, resolution := some resolution }, .ok resolution)
  | .error halt => ({ session with unit := run.unit }, .error halt)

def resolve (session : Session) : Session × Except Halt Resolution :=
  session.adopt session.unit.resolveNames

def check (session : Session) : Session × Except Halt Resolution :=
  session.adopt session.unit.check

/-- Infers within the resolution, which changes even if inference fails. There is nothing to do
without one. -/
def infer (session : Session) : Session × Option (Except Halt Resolution) :=
  match session.resolution with
  | none => (session, none)
  | some resolution =>
    let (resolution, run) := session.unit.inferTypes resolution
    ({ session with unit := run.unit, resolution := some resolution },
      some (run.result.map fun _ => resolution))

def lower (session : Session) : Option (Except Halt Module) :=
  session.resolution.map fun resolution => session.unit.lower resolution.scopes session.options

/-- Compiles the tree. The resolution stays what it was. -/
def compile (session : Session) : Session × Except Halt Module :=
  let run := session.unit.compile session.options
  ({ session with unit := run.unit }, run.result)

/-- Replaces a place of the tree, written as JSON, and reads the tree again. -/
def edit? (session : Session) (pointer : String) (value : Json) : Option Session := do
  let steps ← Json.pointerSteps? pointer
  let json ← Json.replace? value steps (session.unit.toJson Binary64.toJson)
  let unit ← CompileUnit.ofJson? json
  return { session with unit }

end Session

end ScriptLang
