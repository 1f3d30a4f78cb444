import ScriptLang.Scope.Basic

/-!
# Built-in names

The type names that an annotation may use, and the operators and procedures that the root scope
declares before anything else.
-/

namespace ScriptLang

def typeNames : List String :=
  ["Int", "Float", "Bool", "Void"]

/-- The type that an annotation names. -/
def TypeExpr.resolve (expr : TypeExpr) : Except Halt Ty :=
  if expr.name ∈ typeNames then .ok (.basic expr.name)
  else .error (.error (.unknownType expr.name expr.span))

/-- A built-in function. -/
structure Builtin where
  name : String
  params : List Ty
  ret : Ty
  deriving DecidableEq, Repr

namespace Builtin

def binary (operand ret : Ty) (name : String) : Builtin :=
  ⟨name, [operand, operand], ret⟩

def arithmetic (number : Ty) : List Builtin :=
  ["+", "-", "*", "/", "%", "^"].map (binary number number) ++ [⟨"-", [number], number⟩]

def comparison (number : Ty) : List Builtin :=
  ["==", "!=", "<", "<=", ">", ">="].map (binary number .bool)

def logic : List Builtin :=
  ["==", "!=", "and", "or"].map (binary .bool .bool) ++ [⟨"not", [.bool], .bool⟩]

def printing : List Builtin :=
  [Ty.int, Ty.float, Ty.bool].map fun ty => ⟨"print", [ty], .void⟩

/-- All of them, in the order of their signatures. -/
def all : List Builtin :=
  arithmetic .int ++ arithmetic .float ++ comparison .int ++ comparison .float ++ logic ++ printing

end Builtin

namespace ScopeTree

/-- Declares built-ins in the root scope until one of them is already there. Those before it stay
declared. -/
def declareBuiltins (tree : ScopeTree) : List Builtin → ScopeTree × Except Halt Unit
  | [] => (tree, .ok ())
  | b :: bs =>
    match tree.declareFunction root b.name b.params b.ret .builtin {} with
    | .ok (_, tree) => declareBuiltins tree bs
    | .error halt => (tree, .error halt)

def registerBuiltins (tree : ScopeTree) : ScopeTree × Except Halt Unit :=
  tree.declareBuiltins Builtin.all

/-- The tree that holds the built-ins and nothing else. -/
def initial : ScopeTree :=
  (registerBuiltins {}).1

/-- No two built-ins clash. -/
theorem registerBuiltins_new : registerBuiltins {} = (initial, .ok ()) := by
  rfl

end ScopeTree

end ScriptLang
