import ScriptLang.Check.Unit
import ScriptLang.Ir.Lowering

/-!
# Compilation

From a unit to the text of its module, with or without a record of what happened on the way.
-/

namespace ScriptLang

namespace CompileUnit

/-- Checks a unit and lowers it to a module. -/
def compile (unit : CompileUnit) (options : Options) : Run Module :=
  match unit.check with
  | ⟨unit, .error halt⟩ => ⟨unit, .error halt⟩
  | ⟨unit, .ok resolution⟩ => ⟨unit, unit.lower resolution.scopes options⟩

/-- What happens while a unit is compiled, and what comes of it. -/
def trace (unit : CompileUnit) (options : Options) : List Event × Except Halt Module :=
  let pass : Pass Recorded CompileUnit (CompileUnit × Resolution) := unit.checkPass
  match pass {} with
  | .stopped _ halt work => (work.events.reverse, .error halt)
  | .done (unit, resolution) work =>
    let lowering := unit.lowering resolution.scopes options
    let events := .generating options.moduleName :: lowering.begun.map Event.emitting
    (work.events.reverse ++ events, lowering.result)

end CompileUnit

end ScriptLang
