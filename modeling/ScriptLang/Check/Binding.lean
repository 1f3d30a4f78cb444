import ScriptLang.Check.Pass
import ScriptLang.Scope.Builtins
import ScriptLang.Tree.Queries

/-!
# Binding names

Builds the scope tree of a unit and writes on every name the handle of its declaration. The root
holds the built-ins and the scope below it the functions of the unit. Each function body and the
script have a scope of their own, and so has the body of each `for` loop; the other blocks share
the scope around them. A variable is visible from its declaration onwards.
-/

namespace ScriptLang

/-- A scope tree with what belongs to a unit: the scope of its functions, and their signatures in
the order of the unit. -/
structure Resolution where
  scopes : ScopeTree
  unitScope : ScopeId
  signatures : List SigId
  deriving DecidableEq, Repr

open Pass (stop ofExcept within)

variable {σ : Type} [Workspace σ]

/-! ## Expressions -/

/-- The declaration that a name refers to. -/
def ScopeTree.resolveVariable (tree : ScopeTree) (scope : ScopeId) (name : String) (span : Span) :
    Except Halt DeclId := do
  let found ← (tree.lookupVariable scope name).mapError .fault
  demand found (.error (.undeclaredVariable name span))

mutual
def Expr.bind (scope : ScopeId) : Expr → Pass σ Expr Expr
  | .lit value span slot => return .lit value span slot
  | .var name handle span slot => do
    let tree ← Pass.scopes
    let id ← ofExcept (.var name handle span slot) (tree.resolveVariable scope name span)
    return .var name (some id) span slot
  | .call name args span slot => do
    let args ← within (.call name · span slot) (bindAll scope args)
    return .call name args span slot
def bindAll (scope : ScopeId) : List Expr → Pass σ (List Expr) (List Expr)
  | [] => return []
  | expr :: exprs => do
    let expr ← within (· :: exprs) (expr.bind scope)
    let exprs ← within (expr :: ·) (bindAll scope exprs)
    return expr :: exprs
end

/-! ## Statements -/

/-- Declares a variable in the scope tree of the workspace. -/
def declareHere (node : ν) (scope : ScopeId) (name : String) (ty : Ty) (kind : DeclKind)
    (span : Span) : Pass σ ν DeclId := do
  let tree ← Pass.scopes
  let (id, tree) ← ofExcept node (tree.declareVariable scope name ty kind span)
  Pass.setScopes tree
  return id

/-- Opens a scope in the scope tree of the workspace. -/
def openScope (parent : ScopeId) : Pass σ ν ScopeId := do
  let tree ← Pass.scopes
  let (scope, tree) := tree.newScope parent
  Pass.setScopes tree
  return scope

/-- There is a block for each condition, and at most one more. -/
def branchShapeFits (conds blocks : Nat) : Bool :=
  conds ≠ 0 && (blocks = conds || blocks = conds + 1)

/-- The type that a local is declared with. -/
def declaredType : Option TypeExpr → Except Halt Ty
  | some ascription => ascription.resolve
  | none => .ok .unknown

mutual
def Stmt.bind (scope : ScopeId) : Stmt → Pass σ Stmt Stmt
  | .decl name ascription value span handle => do
    -- The value does not see the name that is being declared.
    let value ← within (.decl name ascription · span handle) (value.bind scope)
    let node := .decl name ascription value span handle
    let ty ← ofExcept node (declaredType ascription)
    let id ← declareHere node scope name ty .localVar span
    return .decl name ascription value span (some id)
  | .assign target value span handle => do
    let value ← within (.assign target · span handle) (value.bind scope)
    let tree ← Pass.scopes
    let id ← ofExcept (.assign target value span handle) (tree.resolveVariable scope target span)
    return .assign target value span (some id)
  | .branch conds blocks span => do
    if branchShapeFits conds.length blocks.length then
      let conds ← within (.branch · blocks span) (bindAll scope conds)
      let blocks ← within (.branch conds · span) (bindBlocks scope blocks)
      return .branch conds blocks span
    else
      let what := s!"branch with {conds.length} conditions and {blocks.length} blocks"
      stop (.branch conds blocks span) (.missing what span)
  | .forLoop var lo hi body span handle => do
    let lo ← within (.forLoop var · hi body span handle) (lo.bind scope)
    let hi ← within (.forLoop var lo · body span handle) (hi.bind scope)
    let inner ← openScope scope
    let id ← declareHere (.forLoop var lo hi body span handle) inner var .int .loopVar span
    let body ← within (.forLoop var lo hi · span (some id)) (body.bind inner (some inner))
    return .forLoop var lo hi body span (some id)
  | .whileLoop cond body span => do
    let cond ← within (.whileLoop · body span) (cond.bind scope)
    let body ← within (.whileLoop cond · span) (body.bind scope body.scope)
    return .whileLoop cond body span
  | .call value => do
    let value ← within .call (value.bind scope)
    return .call value
/-- Binds the statements of a block in `scope`. The block is marked with `own`: its scope if it has
one to itself, and otherwise what stood there before. -/
def Block.bind (scope : ScopeId) (own : Option ScopeId) : Block → Pass σ Block Block
  | ⟨stmts, ret, brk, span, _⟩ => do
    let stmts ← within (⟨·, ret, brk, span, own⟩) (bindStmts scope stmts)
    match ret with
    | none => return ⟨stmts, none, brk, span, own⟩
    | some ⟨value, retSpan⟩ =>
      let value ← within (⟨stmts, some ⟨·, retSpan⟩, brk, span, own⟩) (value.bind scope)
      return ⟨stmts, some ⟨value, retSpan⟩, brk, span, own⟩
def bindStmts (scope : ScopeId) : List Stmt → Pass σ (List Stmt) (List Stmt)
  | [] => return []
  | stmt :: stmts => do
    let stmt ← within (· :: stmts) (stmt.bind scope)
    let stmts ← within (stmt :: ·) (bindStmts scope stmts)
    return stmt :: stmts
def bindBlocks (scope : ScopeId) : List Block → Pass σ (List Block) (List Block)
  | [] => return []
  | block :: blocks => do
    let block ← within (· :: blocks) (block.bind scope block.scope)
    let blocks ← within (block :: ·) (bindBlocks scope blocks)
    return block :: blocks
end

/-! ## Units -/

/-- The parameter types and the return type that a definition shows: the annotation if there is
one, and without it `Void` or, if the body returns, unknown. -/
def FnDef.signatureTypes (fn : FnDef) : Except Halt (List Ty × Ty) := do
  let params ← fn.params.mapM fun param => param.ty.resolve
  match fn.ret with
  | some ascription => return (params, ← ascription.resolve)
  | none => return (params, if fn.body.containsReturn then .unknown else .void)

def declareSignature (node : ν) (unitScope : ScopeId) (fn : FnDef) : Pass σ ν SigId := do
  let (params, ret) ← ofExcept node fn.signatureTypes
  Pass.note (.declaring fn.name (.fn params ret))
  let tree ← Pass.scopes
  let (id, tree) ←
    ofExcept node (tree.declareFunction unitScope fn.name params ret .user fn.span)
  Pass.setScopes tree
  return id

def declareSignatures (node : ν) (unitScope : ScopeId) : List FnDef → Pass σ ν (List SigId)
  | [] => return []
  | fn :: fns => do
    let id ← declareSignature node unitScope fn
    let ids ← declareSignatures node unitScope fns
    return id :: ids

def bindParams (scope : ScopeId) : List Param → Pass σ (List Param) (List Param)
  | [] => return []
  | param :: params => do
    let ty ← ofExcept (param :: params) param.ty.resolve
    let id ← declareHere (param :: params) scope param.name ty .param param.span
    let param := { param with handle := some id }
    let params ← within (param :: ·) (bindParams scope params)
    return param :: params

def FnDef.bind (unitScope : ScopeId) (fn : FnDef) : Pass σ FnDef FnDef := do
  let scope ← openScope unitScope
  let params ← within ({ fn with params := · }) (bindParams scope fn.params)
  let fn := { fn with params }
  let body ← within ({ fn with body := · }) (fn.body.bind scope (some scope))
  return { fn with body }

def bindFunctions (unitScope : ScopeId) : List FnDef → Pass σ (List FnDef) (List FnDef)
  | [] => return []
  | fn :: fns => do
    let fn ← within (· :: fns) (fn.bind unitScope)
    let fns ← within (fn :: ·) (bindFunctions unitScope fns)
    return fn :: fns

/-- Starts a new scope tree, declares all signatures, so that bodies may call what is defined
further down, and binds the names of all bodies. -/
def CompileUnit.resolve (unit : CompileUnit) : Pass σ CompileUnit (CompileUnit × Resolution) := do
  Pass.setScopes .initial
  let unitScope ← openScope ScopeTree.root
  let unit := { unit with scope := some unitScope }
  let signatures ← declareSignatures unit unitScope unit.functions
  let functions ← within ({ unit with functions := · }) (bindFunctions unitScope unit.functions)
  let unit := { unit with functions }
  let scope ← openScope unitScope
  let body ← within (fun body => { unit with script := { unit.script with body } })
    (unit.script.body.bind scope (some scope))
  let unit := { unit with script := { unit.script with body } }
  return (unit, ⟨← Pass.scopes, unitScope, signatures⟩)

end ScriptLang
