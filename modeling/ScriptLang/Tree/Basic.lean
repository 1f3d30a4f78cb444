import ScriptLang.Number.Shortest
import ScriptLang.Source.Span
import ScriptLang.Ty.Basic

/-!
# The syntax tree

A compilation unit is a list of function definitions and one script. Three kinds of annotation
start out empty and are filled in later: the scope of a block that binds names, the handle of the
declaration a name refers to, and the slot for the type of an expression or of a function's result.
-/

namespace ScriptLang

/-! ## Annotations -/

/-- The position of a scope in a scope tree. -/
abbrev ScopeId := Nat

/-- The position of a variable declaration in a scope tree. -/
abbrev DeclId := Nat

/-- A type that is not there at first and is written once. -/
abbrev TypeSlot := Option Ty

/-- A second write with a different type. -/
structure SlotConflict where
  existing : Ty
  attempted : Ty
  deriving DecidableEq, Repr

/-- Writes a slot. Writing what it already holds is allowed. -/
def TypeSlot.write (slot : TypeSlot) (ty : Ty) : Except SlotConflict TypeSlot :=
  match slot with
  | none => .ok (some ty)
  | some existing => if existing = ty then .ok slot else .error ⟨existing, ty⟩

/-! ## Literals and expressions -/

inductive Literal where
  | bool (value : Bool)
  | int (value : Int64)
  | float (value : Binary64)
  deriving DecidableEq, Repr

namespace Literal

def ty : Literal → Ty
  | .bool _ => .bool
  | .int _ => .int
  | .float _ => .float

def text : Literal → String
  | .bool value => if value then "true" else "false"
  | .int value => toString value.toInt
  | .float value => value.text

end Literal

/-- Operators are calls by their symbol. -/
inductive Expr where
  | lit (value : Literal) (span : Span := {}) (slot : TypeSlot := none)
  | var (name : String) (handle : Option DeclId := none) (span : Span := {})
    (slot : TypeSlot := none)
  | call (name : String) (args : List Expr) (span : Span := {}) (slot : TypeSlot := none)
  deriving Repr

namespace Expr

def span : Expr → Span
  | .lit _ span _ => span
  | .var _ _ span _ => span
  | .call _ _ span _ => span

def slot : Expr → TypeSlot
  | .lit _ _ slot => slot
  | .var _ _ _ slot => slot
  | .call _ _ _ slot => slot

def withSpan (span : Span) : Expr → Expr
  | .lit value _ slot => .lit value span slot
  | .var name handle _ slot => .var name handle span slot
  | .call name args _ slot => .call name args span slot

def withSlot (slot : TypeSlot) : Expr → Expr
  | .lit value span _ => .lit value span slot
  | .var name handle span _ => .var name handle span slot
  | .call name args span _ => .call name args span slot

end Expr

/-! ## Statements -/

/-- A type annotation as it is written. -/
structure TypeExpr where
  name : String
  span : Span := {}
  deriving DecidableEq, Repr

structure Return where
  value : Expr
  span : Span := {}
  deriving Repr

structure Break where
  span : Span := {}
  deriving DecidableEq, Repr

mutual
inductive Stmt where
  | decl (name : String) (ascription : Option TypeExpr) (value : Expr) (span : Span := {})
    (handle : Option DeclId := none)
  | assign (target : String) (value : Expr) (span : Span := {}) (handle : Option DeclId := none)
  /-- One block for each condition, and one more if there is an `else`. -/
  | branch (conds : List Expr) (blocks : List Block) (span : Span := {})
  /-- Counts upwards; both bounds belong to the range. -/
  | forLoop (var : String) (lo hi : Expr) (body : Block) (span : Span := {})
    (handle : Option DeclId := none)
  | whileLoop (cond : Expr) (body : Block) (span : Span := {})
  /-- An expression evaluated for its effect. -/
  | call (value : Expr)
/-- Statements in order, and what may end them. -/
structure Block where
  stmts : List Stmt
  ret : Option Return := none
  brk : Option Break := none
  span : Span := {}
  /-- Set on the blocks that bind names: bodies of functions, of the script and of `for` loops. -/
  scope : Option ScopeId := none
end

/-! ## Units -/

structure Param where
  name : String
  ty : TypeExpr
  span : Span := {}
  handle : Option DeclId := none
  deriving Repr

structure FnDef where
  name : String
  params : List Param
  ret : Option TypeExpr
  body : Block
  span : Span := {}
  /-- The return type that inference settles on. -/
  retSlot : TypeSlot := none

/-- The statements a program runs. -/
structure Script where
  name : String
  body : Block
  span : Span := {}

structure CompileUnit where
  functions : List FnDef
  script : Script
  span : Span := {}
  scope : Option ScopeId := none

end ScriptLang
