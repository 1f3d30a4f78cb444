import ScriptLang.Check.Binding
import ScriptLang.Check.Discovery

/-!
# Checking a unit

Names are bound, return types discovered, and then every function and the script are committed.
Functions whose last probe failed come first: their error is the cause of whatever unknown type
their callers run into.
-/

namespace ScriptLang

open Pass (stop within)

variable {σ : Type} [Workspace σ]

/-- The positions of the functions, those that failed before the others. -/
def commitOrder (lasts : List LastError) : List Nat :=
  let entries := lasts.zipIdx
  (entries.filter (·.1.isSome) ++ entries.filter (·.1.isNone)).map (·.2)

/-- Commits functions in the given order. A function must have a signature by the time it is its
turn. -/
def commitFunctions (scope : ScopeId) (sigs : List SigId) :
    (order : List Nat) → List FnDef → Pass σ (List FnDef) (List FnDef)
  | [], fns => return fns
  | i :: order, fns =>
    match fns[i]?, sigs[i]? with
    | none, _ => commitFunctions scope sigs order fns
    | some _, none => stop fns (.fault (.noSignature i))
    | some fn, some sig => do
      let fn ← within (fns.set i ·) (fn.commit scope sig)
      commitFunctions scope sigs order (fns.set i fn)

/-- Infers all types of a unit whose names are bound. -/
def CompileUnit.infer (unit : CompileUnit) (unitScope : ScopeId) (signatures : List SigId) :
    Pass σ CompileUnit CompileUnit := do
  let lasts ← discoverReturns unit unitScope unit.functions signatures
  Pass.note .committing
  resetHere
  let functions ← within ({ unit with functions := · })
    (commitFunctions unitScope signatures (commitOrder lasts) unit.functions)
  let unit := { unit with functions }
  let script ← within ({ unit with script := · }) (unit.script.commit unitScope)
  return { unit with script }

/-- Binds all names and infers all types of a unit. The first error ends it. -/
def CompileUnit.checkPass (unit : CompileUnit) :
    Pass σ CompileUnit (CompileUnit × Resolution) := do
  Pass.note .resolvingScopes
  let (unit, resolution) ← unit.resolve
  let unit ← unit.infer resolution.unitScope resolution.signatures
  return (unit, { resolution with scopes := ← Pass.scopes })

/-- A unit as a pass left it, and what the pass gave. -/
structure Run (α : Type) where
  unit : CompileUnit
  result : Except Halt α

def Run.ofOutcome : Outcome σ CompileUnit (CompileUnit × α) → Run α
  | .done (unit, a) _ => ⟨unit, .ok a⟩
  | .stopped unit halt _ => ⟨unit, .error halt⟩

namespace CompileUnit

/-- Binds the names of a unit, in a scope tree of its own. -/
def resolveNames (unit : CompileUnit) : Run Resolution :=
  let pass : Pass ScopeTree CompileUnit (CompileUnit × Resolution) := unit.resolve
  .ofOutcome (pass {})

/-- Infers a unit within a resolution. What inference found out about the resolution is kept, also
when it fails. -/
def inferTypes (unit : CompileUnit) (resolution : Resolution) : Resolution × Run Unit :=
  match unit.infer resolution.unitScope resolution.signatures resolution.scopes with
  | .done unit scopes => ({ resolution with scopes }, ⟨unit, .ok ()⟩)
  | .stopped unit halt scopes => ({ resolution with scopes }, ⟨unit, .error halt⟩)

/-- Checks a unit, in a scope tree of its own. -/
def check (unit : CompileUnit) : Run Resolution :=
  let pass : Pass ScopeTree CompileUnit (CompileUnit × Resolution) := unit.checkPass
  .ofOutcome (pass {})

end CompileUnit

end ScriptLang
