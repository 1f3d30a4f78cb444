import ScriptLang.Error
import ScriptLang.Tree.Basic

/-!
# Scope trees

Three arenas that only grow: scopes, each with its parent; variable declarations; and function
signatures. A declaration and a signature know the scope they belong to, so a scope needs no table
of its own. The root is scope zero.

A name is looked up from a scope towards the root, and the nearest scope that declares it wins. For
functions it wins as a whole: its overloads hide all overloads further out.
-/

namespace ScriptLang

/-- The position of a signature in a scope tree. -/
abbrev SigId := Nat

/-- What introduced a variable. -/
inductive DeclKind where
  | param
  | localVar
  /-- The variable of a `for` loop. -/
  | loopVar
  deriving DecidableEq, Repr

structure VarDecl where
  name : String
  /-- The type fixed by the declaration, unknown for a local without annotation. -/
  declared : Ty
  /-- The type as far as inference has found it out. -/
  ty : Ty
  kind : DeclKind
  scope : ScopeId
  span : Span
  deriving DecidableEq, Repr

/-- Only locals can be assigned to. -/
def VarDecl.assignable (var : VarDecl) : Bool :=
  var.kind = .localVar

inductive SigKind where
  | builtin
  | user
  deriving DecidableEq, Repr

/-- One member of an overload set. -/
structure Signature where
  name : String
  params : List Ty
  ret : Ty
  kind : SigKind
  span : Span
  scope : ScopeId
  deriving DecidableEq, Repr

def Signature.fnTy (sig : Signature) : Ty :=
  .fn sig.params sig.ret

structure ScopeTree where
  /-- The parent of each scope; only the root has none. -/
  parents : List (Option ScopeId) := [none]
  decls : List VarDecl := []
  sigs : List Signature := []
  deriving DecidableEq, Repr

namespace ScopeTree

/-! ## Scopes -/

def root : ScopeId := 0

/-- Opens a scope. The parent is taken as given. -/
def newScope (tree : ScopeTree) (parent : ScopeId) : ScopeId × ScopeTree :=
  (tree.parents.length, { tree with parents := tree.parents ++ [some parent] })

def parent (tree : ScopeTree) (scope : ScopeId) : Except Fault (Option ScopeId) :=
  match tree.parents[scope]? with
  | some parent => .ok parent
  | none => .error (.noScope scope)

/-- The first thing that `here` finds on the way from a scope to the root. The way must not leave
the tree before that. -/
def walk (tree : ScopeTree) (here : ScopeId → Option α) :
    (fuel : Nat) → ScopeId → Except Fault (Option α)
  | 0, _ => .error .cyclicScopes
  | fuel + 1, scope => do
    let up ← tree.parent scope
    match here scope, up with
    | some found, _ => return some found
    | none, some scope => walk tree here fuel scope
    | none, none => return none

/-- A way that meets no scope twice is at most as long as the tree has scopes. -/
def nearest (tree : ScopeTree) (here : ScopeId → Option α) (scope : ScopeId) :
    Except Fault (Option α) :=
  tree.walk here (tree.parents.length + 1) scope

/-! ## Variables -/

/-- The declaration of a name in a scope itself. -/
def declaredIn? (tree : ScopeTree) (scope : ScopeId) (name : String) : Option DeclId :=
  tree.decls.findIdx? fun var => var.scope = scope && var.name = name

def lookupVariable (tree : ScopeTree) (scope : ScopeId) (name : String) :
    Except Fault (Option DeclId) :=
  tree.nearest (tree.declaredIn? · name) scope

def var? (tree : ScopeTree) (id : DeclId) : Option VarDecl :=
  tree.decls[id]?

def var (tree : ScopeTree) (id : DeclId) : Except Fault VarDecl :=
  match tree.var? id with
  | some var => .ok var
  | none => .error (.noDeclaration id)

/-- The declaration behind a handle that stands in a tree. -/
def declaration (tree : ScopeTree) (id : DeclId) (span : Span) : Except Halt VarDecl :=
  demand (tree.var? id) (.missing s!"dangling declaration handle {id}" span)

/-- Declares a variable. A scope declares a name once; an inner scope may hide it. -/
def declareVariable (tree : ScopeTree) (scope : ScopeId) (name : String) (ty : Ty)
    (kind : DeclKind) (span : Span) : Except Halt (DeclId × ScopeTree) := do
  let _ ← (tree.parent scope).mapError .fault
  match (tree.declaredIn? scope name).bind tree.var? with
  | some previous => throw (.error (.illegalRedefine name span previous.span))
  | none =>
    let var := { name, declared := ty, ty, kind, scope, span }
    return (tree.decls.length, { tree with decls := tree.decls ++ [var] })

def setVarType (tree : ScopeTree) (id : DeclId) (ty : Ty) : Except Fault ScopeTree := do
  let var ← tree.var id
  return { tree with decls := tree.decls.set id { var with ty } }

/-- Forgets what inference found out about variables. -/
def resetInferred (tree : ScopeTree) : ScopeTree :=
  { tree with decls := tree.decls.map fun var => { var with ty := var.declared } }

/-! ## Functions -/

/-- The signatures of a name in a scope itself, in the order of their declaration. -/
def overloadsIn (tree : ScopeTree) (scope : ScopeId) (name : String) : List (Signature × SigId) :=
  tree.sigs.zipIdx.filter fun entry => entry.1.scope = scope && entry.1.name = name

/-- The overload set of the nearest scope that declares the name. -/
def lookupOverloads (tree : ScopeTree) (scope : ScopeId) (name : String) :
    Except Fault (List (Signature × SigId)) := do
  let here (scope : ScopeId) :=
    match tree.overloadsIn scope name with
    | [] => none
    | overloads => some overloads
  return (← tree.nearest here scope).getD []

def signature (tree : ScopeTree) (id : SigId) : Except Fault Signature :=
  match tree.sigs[id]? with
  | some sig => .ok sig
  | none => .error (.noSignature id)

/-- Declares an overload. A scope declares a name with given parameters once. -/
def declareFunction (tree : ScopeTree) (scope : ScopeId) (name : String) (params : List Ty)
    (ret : Ty) (kind : SigKind) (span : Span) : Except Halt (SigId × ScopeTree) := do
  let _ ← (tree.parent scope).mapError .fault
  match (tree.overloadsIn scope name).find? fun entry => entry.1.params = params with
  | some (previous, _) => throw (.error (.illegalRedefine name span previous.span))
  | none =>
    let sig := { name, params, ret, kind, span, scope }
    return (tree.sigs.length, { tree with sigs := tree.sigs ++ [sig] })

def setReturn (tree : ScopeTree) (id : SigId) (ret : Ty) : Except Fault ScopeTree := do
  let sig ← tree.signature id
  return { tree with sigs := tree.sigs.set id { sig with ret } }

end ScopeTree

end ScriptLang
