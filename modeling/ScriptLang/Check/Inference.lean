import ScriptLang.Check.Commit
import ScriptLang.Tree.Queries

/-!
# Inference of bodies

Statements in textual order. Every expression stands in a context that expects a type of it: the
context settles which overload is meant, and what it settles on becomes the type of the variable or
of the routine's result. In a probe nothing is written into the tree; a committing run demands that
every type is fully known, and writes it.
-/

namespace ScriptLang

open Pass (stop ofExcept within)

inductive Mode where
  | probe
  | commit
  deriving DecidableEq, Repr

/-- What a `return` has to agree with. -/
structure RoutineContext where
  /-- The return type so far, refined by each `return`. -/
  ret : Ty
  span : Span
  isScript : Bool
  deriving DecidableEq, Repr

/-- The script returns `Int`, whatever it has returned before. -/
def RoutineContext.expected (ctx : RoutineContext) : Ty :=
  if ctx.isScript then .int else ctx.ret

variable {σ : Type} [Workspace σ]

/-! ## Expressions -/

/-- Infers an expression in a context that expects `expected` of it. -/
def Expr.consume (mode : Mode) (scope : ScopeId) (expr : Expr) (expected : Ty) (origin : Origin) :
    Pass σ Expr (Expr × Ty) := do
  let tree ← Pass.scopes
  let found ← ofExcept expr (expr.synth tree scope)
  let ty ← ofExcept expr ((expected.unifyOrMismatch found origin).mapError .error)
  if ty.isVariant then
    stop expr (.couldNotInfer ty expr.span)
  else
    match mode with
    | .probe => return (expr, ty)
    | .commit => return (← expr.commit scope ty, ty)

/-- Infers expressions that are each expected to have the same type. -/
def consumeAll (mode : Mode) (scope : ScopeId) (expected : Ty) (origin : Span → Origin) :
    List Expr → Pass σ (List Expr) (List Expr)
  | [] => return []
  | expr :: exprs => do
    let (expr, _) ← within (· :: exprs) (expr.consume mode scope expected (origin expr.span))
    let exprs ← within (expr :: ·) (consumeAll mode scope expected origin exprs)
    return expr :: exprs

/-! ## Statements -/

/-- A variable cannot hold what a procedure returns. -/
def storable (name : String) (expected ty : Ty) (span : Span) : Except Halt Unit :=
  if ty.isVoid then .error (.mismatch expected ty (.storedValue name span)) else .ok ()

/-- Sets the type of a variable in the scope tree of the workspace. -/
def setTypeHere (node : ν) (id : DeclId) (ty : Ty) : Pass σ ν Unit := do
  let tree ← Pass.scopes
  let tree ← ofExcept node ((tree.setVarType id ty).mapError .fault)
  Pass.setScopes tree

/-- The variable that a declaration or an assignment binds. -/
def boundVariable (tree : ScopeTree) (handle : Option DeclId) (what : String) (span : Span) :
    Except Halt (DeclId × VarDecl) := do
  let id ← demand handle (.missing what span)
  return (id, ← tree.declaration id span)

/-- The variable that an assignment may change. -/
def assignedVariable (tree : ScopeTree) (handle : Option DeclId) (target : String) (span : Span) :
    Except Halt (DeclId × VarDecl) := do
  let (id, var) ← boundVariable tree handle "unbound assignment target" span
  if var.assignable then return (id, var) else throw (.error (.notAssignable target span))

/-- Only an annotation gives a declaration a type to disagree with. -/
def declarationOrigin (name : String) (ascription : Option TypeExpr) (valueSpan : Span) : Origin :=
  match ascription with
  | some ascription => .ascription name ascription.span valueSpan
  | none => .builtin

mutual
def Stmt.infer (mode : Mode) (scope : ScopeId) :
    Stmt → RoutineContext → Pass σ Stmt (Stmt × RoutineContext)
  | .decl name ascription value span handle, ctx => do
    let tree ← Pass.scopes
    let (id, var) ← ofExcept (.decl name ascription value span handle)
      (boundVariable tree handle "unbound declaration" span)
    let (value, ty) ← within (.decl name ascription · span handle)
      (value.consume mode scope var.declared (declarationOrigin name ascription value.span))
    let node := .decl name ascription value span handle
    ofExcept node (storable name var.declared ty value.span)
    Pass.note (.typed name ty)
    setTypeHere node id ty
    return (node, ctx)
  | .assign target value span handle, ctx => do
    let tree ← Pass.scopes
    let (id, var) ← ofExcept (.assign target value span handle)
      (assignedVariable tree handle target span)
    let (value, ty) ← within (.assign target · span handle)
      (value.consume mode scope var.ty (.assignment target span))
    let node := .assign target value span handle
    ofExcept node (storable target var.ty ty value.span)
    setTypeHere node id ty
    return (node, ctx)
  | .branch conds blocks span, ctx => do
    let conds ← within (.branch · blocks span) (consumeAll mode scope .bool .condition conds)
    let (blocks, ctx) ← within (.branch conds · span) (inferBlocks mode scope blocks ctx)
    return (.branch conds blocks span, ctx)
  | .forLoop var lo hi body span handle, ctx => do
    let (lo, _) ← within (.forLoop var · hi body span handle)
      (lo.consume mode scope .int (.forBound lo.span))
    let (hi, _) ← within (.forLoop var lo · body span handle)
      (hi.consume mode scope .int (.forBound hi.span))
    let (body, ctx) ← within (.forLoop var lo hi · span handle) (body.infer mode scope ctx)
    return (.forLoop var lo hi body span handle, ctx)
  | .whileLoop cond body span, ctx => do
    let (cond, _) ← within (.whileLoop · body span)
      (cond.consume mode scope .bool (.condition cond.span))
    let (body, ctx) ← within (.whileLoop cond · span) (body.infer mode scope ctx)
    return (.whileLoop cond body span, ctx)
  | .call value, ctx => do
    -- Any type will do, as long as it is one type.
    let (value, _) ← within .call (value.consume mode scope .unknown .builtin)
    return (.call value, ctx)
def Block.infer (mode : Mode) (scope : ScopeId) :
    Block → RoutineContext → Pass σ Block (Block × RoutineContext)
  | ⟨stmts, ret, brk, span, own⟩, ctx => do
    let (stmts, ctx) ← within (⟨·, ret, brk, span, own⟩) (inferStmts mode scope stmts ctx)
    match ret with
    | none => return (⟨stmts, none, brk, span, own⟩, ctx)
    | some ⟨value, retSpan⟩ =>
      let (value, ty) ← within (⟨stmts, some ⟨·, retSpan⟩, brk, span, own⟩)
        (value.consume mode scope ctx.expected (.returned retSpan ctx.span))
      return (⟨stmts, some ⟨value, retSpan⟩, brk, span, own⟩, { ctx with ret := ty })
def inferStmts (mode : Mode) (scope : ScopeId) :
    List Stmt → RoutineContext → Pass σ (List Stmt) (List Stmt × RoutineContext)
  | [], ctx => return ([], ctx)
  | stmt :: stmts, ctx => do
    let (stmt, ctx) ← within (· :: stmts) (stmt.infer mode scope ctx)
    let (stmts, ctx) ← within (stmt :: ·) (inferStmts mode scope stmts ctx)
    return (stmt :: stmts, ctx)
def inferBlocks (mode : Mode) (scope : ScopeId) :
    List Block → RoutineContext → Pass σ (List Block) (List Block × RoutineContext)
  | [], ctx => return ([], ctx)
  | block :: blocks, ctx => do
    let (block, ctx) ← within (· :: blocks) (block.infer mode scope ctx)
    let (blocks, ctx) ← within (block :: ·) (inferBlocks mode scope blocks ctx)
    return (block :: blocks, ctx)
end

/-! ## Routines -/

/-- Infers the body of a function from the return type that its signature shows, and gives the
return type the body ends with. -/
def FnDef.inferBody (mode : Mode) (scope : ScopeId) (fn : FnDef) (sig : SigId) :
    Pass σ FnDef (FnDef × Ty) := do
  let tree ← Pass.scopes
  let signature ← ofExcept fn ((tree.signature sig).mapError .fault)
  let (body, ctx) ← within ({ fn with body := · })
    (fn.body.infer mode scope { ret := signature.ret, span := fn.span, isScript := false })
  return ({ fn with body }, ctx.ret)

/-- A function that returns a value has a `return`, and its type is known by now. -/
def FnDef.checkReturn (fn : FnDef) (ret : Ty) : Except Halt Unit :=
  if !ret.isVoid && !fn.body.containsReturn then
    .error (.mismatch ret .void (.missingReturn fn.span))
  else if !ret.isFullyKnown then
    .error (.couldNotInfer ret fn.span)
  else
    .ok ()

/-- Commits a function, and its return type to its slot and its signature. -/
def FnDef.commit (scope : ScopeId) (fn : FnDef) (sig : SigId) : Pass σ FnDef FnDef := do
  Pass.note (.inferringFunction fn.name)
  let (fn, ret) ← fn.inferBody .commit scope sig
  ofExcept fn (fn.checkReturn ret)
  let retSlot ← ofExcept fn (fn.retSlot.writeOrHalt ret fn.span)
  let fn := { fn with retSlot }
  let tree ← Pass.scopes
  let tree ← ofExcept fn ((tree.setReturn sig ret).mapError .fault)
  Pass.setScopes tree
  return fn

def Script.commit (scope : ScopeId) (script : Script) : Pass σ Script Script := do
  Pass.note .inferringScript
  let (body, _) ← within ({ script with body := · })
    (script.body.infer .commit scope { ret := .int, span := script.span, isScript := true })
  return { script with body }

end ScriptLang
