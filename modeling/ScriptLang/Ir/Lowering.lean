import ScriptLang.Ir.Body
import ScriptLang.Tree.Queries

/-!
# From a checked unit to a module

One routine for each function, in order, and one for the script, then the declarations of the
runtime routines that were called.
-/

namespace ScriptLang

open Emit

/-- Settings of the emitted module. -/
structure Options where
  moduleName : String := "tarn_module"
  /-- The symbol of the routine for the script. -/
  entrySymbol : String := "main"
  targetTriple : Option String := none
  deriving DecidableEq, Repr

/-! ## Routines -/

/-- The cells of the locals, one for each declaration. -/
def emitCells : List Local → Emit Unit
  | [] => return
  | var :: vars => do
    let id ← ofExcept (demand var.handle (.missing ("local `" ++ var.name ++ "`") var.span))
    let ty ← ofExcept (demand var.slot (.missing ("type of `" ++ var.name ++ "`") var.span))
    let ty ← ofExcept (ty.irType var.span)
    emit (.assign (.variable var.name id) (.alloca ty))
    emitCells vars

/-- Returns from a routine whose last block has not ended. -/
def emitEpilogue : RoutineKind → Emit Unit
  | .script => terminate (.ret (some (.i32, .const (.int 0))))
  | .function .void => terminate (.ret none)
  | .function ty => terminate (.ret (some (ty, .const ty.zero)))

/-- The whole body of a routine. -/
def emitRoutine (ctx : BodyContext) (body : Block) : Emit Unit := do
  openBlock .entry
  emitCells body.locals
  body.emit ctx none
  if ← falls then
    emitEpilogue ctx.kind

/-- The `define` line of a routine. -/
structure Header where
  ret : IrType
  symbol : String
  params : List (IrType × ValueName)
  deriving DecidableEq, Repr

def Param.emit (scopes : ScopeTree) (param : Param) : Except Halt (IrType × ValueName) := do
  let id ← demand param.handle (.missing ("parameter `" ++ param.name ++ "`") param.span)
  let var ← scopes.declaration id param.span
  return (← var.ty.irType param.span, .variable param.name id)

def FnDef.header (scopes : ScopeTree) (functions : List String) (fn : FnDef) :
    Except Halt Header := do
  let ret ← demand fn.retSlot (.missing ("return type of `" ++ fn.name ++ "`") fn.span)
  let ret ← ret.irType fn.span
  let params ← fn.params.mapM (Param.emit scopes)
  return ⟨ret, functionSymbol functions fn.name (params.map (·.1)), params⟩

def scriptHeader (options : Options) : Header :=
  ⟨.i32, symbol options.entrySymbol [] false, []⟩

/-- A routine with the given header. -/
def emitWithHeader (ctx : BodyContext) (header : Header) (body : Block) : Emit Routine := do
  let (_, lines) ← capture (emitRoutine ctx body)
  return ⟨header.ret, header.symbol, header.params, lines⟩

/-! ## Modules -/

/-- What lowering a unit gives, and the symbols of the routines it began. -/
structure Lowering where
  begun : List String
  result : Except Halt Module

/-- The routines of the functions, the symbols of those begun, and where emission ended. -/
def emitFunctions (scopes : ScopeTree) (functions : List String) :
    List FnDef → Cursor → List String × Except Halt (List Routine × Cursor)
  | [], cursor => ([], .ok ([], cursor))
  | fn :: fns, cursor =>
    match fn.header scopes functions with
    | .error halt => ([], .error halt)
    | .ok header =>
      match emitWithHeader ⟨scopes, functions, .function header.ret⟩ header fn.body cursor with
      | .error halt => ([header.symbol], .error halt)
      | .ok (routine, _, cursor) =>
        let (begun, rest) := emitFunctions scopes functions fns cursor
        (header.symbol :: begun, rest.map fun (routines, cursor) => (routine :: routines, cursor))

def CompileUnit.lowering (unit : CompileUnit) (scopes : ScopeTree) (options : Options) :
    Lowering :=
  let functions := unit.functions.map (·.name)
  match emitFunctions scopes functions unit.functions {} with
  | (begun, .error halt) => ⟨begun, .error halt⟩
  | (begun, .ok (routines, cursor)) =>
    let header := scriptHeader options
    let begun := begun ++ [header.symbol]
    match emitWithHeader ⟨scopes, functions, .script⟩ header unit.script.body cursor with
    | .error halt => ⟨begun, .error halt⟩
    | .ok (script, _, cursor) =>
      ⟨begun, .ok
        { name := options.moduleName
          targetTriple := options.targetTriple
          routines := routines ++ [script]
          declares := RuntimeRoutine.all.filter (· ∈ cursor.used) }⟩

/-- The module of a checked unit. -/
def CompileUnit.lower (unit : CompileUnit) (scopes : ScopeTree) (options : Options) :
    Except Halt Module :=
  (unit.lowering scopes options).result

end ScriptLang
