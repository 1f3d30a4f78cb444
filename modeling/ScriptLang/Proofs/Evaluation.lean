import ScriptLang.Scope.Builtins
import Mathlib.Logic.Function.Basic

/-!
# What a unit means

An evaluator that runs an annotated tree directly, without code. Variables are kept by their
declarations, one store for each activation of a routine, and only what the language leaves open is
a parameter: what the built-in operations do to a world of effects, and what a variable holds before
anything is stored in it.

Fuel bounds the depth of calls and the turns of loops. Everything else follows the tree.
-/

namespace ScriptLang

/-! ## Values -/

/-- A value at run time. Procedures give `nothing`, and only a whole program gives a status. -/
inductive Val where
  | bool (b : Bool)
  | int (n : Int64)
  | float (x : Binary64)
  | status (code : UInt32)
  | nothing
  deriving DecidableEq, Repr

def Literal.val : Literal → Val
  | .bool b => .bool b
  | .int n => .int n
  | .float x => .float x

/-- The type of a value. A status is not a value of the language. -/
def Val.type? : Val → Option Ty
  | .bool _ => some .bool
  | .int _ => some .int
  | .float _ => some .float
  | .status _ => none
  | .nothing => some .void

/-- What a function gives when control falls off its end. -/
def Ty.zero (ty : Ty) : Val :=
  if ty = .int then .int 0
  else if ty = .float then .float ⟨0⟩
  else if ty = .bool then .bool false
  else .nothing

/-- The status that a script ends with when it returns an integer: the low 32 bits. -/
def statusOf (n : Int64) : UInt32 :=
  n.toUInt64.toUInt32

/-! ## What the language leaves open -/

/-- A built-in operation on values of the given types. -/
structure Operation where
  name : String
  params : List Ty
  deriving DecidableEq

/-- What a variable holds at first, depending on its type. -/
structure Contents where
  bool : Bool := false
  int : Int64 := 0
  float : Binary64 := ⟨0⟩

def Contents.ofType (contents : Contents) (ty : Ty) : Val :=
  if ty = .int then .int contents.int
  else if ty = .float then .float contents.float
  else if ty = .bool then .bool contents.bool
  else .nothing

/-- The built-in operations and the first contents of variables. Operations may fail, and may change
the world. They give what their type says, and those that a counting loop is made of count. -/
structure Interpretation (World : Type) where
  operate : Operation → List Val → World → Option (Val × World)
  initial : DeclId → Contents
  typed : ∀ b ∈ Builtin.all, ∀ args w v w', args.map Val.type? = b.params.map some →
    operate ⟨b.name, b.params⟩ args w = some (v, w') → v.type? = some b.ret
  counts : ∀ i w, operate ⟨"+", [.int, .int]⟩ [.int 1, .int i] w = some (.int (i + 1), w)
  compares : ∀ i n w,
    operate ⟨"<=", [.int, .int]⟩ [.int i, .int n] w = some (.bool (decide (i ≤ n)), w)

/-- The values of variables, for those that were stored. -/
abbrev Store := DeclId → Option Val

/-- What a call does, given the types and the values of its arguments. -/
abbrev Calls (World : Type) := String → List Ty → List Val → World → Option (Val × World)

/-- How a statement ends: control goes on after it, or leaves the loop or the routine around it. -/
inductive Ending where
  | falls
  | breaks
  | returns (v : Val)
  deriving DecidableEq, Repr

/-- What running a statement comes to. -/
abbrev Course (World : Type) := Ending × Store × World

section

variable {World : Type} (I : Interpretation World)

/-- The value of a variable of the given type. -/
def Store.read (store : Store) (id : DeclId) (ty : Ty) : Val :=
  (store id).getD ((I.initial id).ofType ty)

/-! ## Expressions -/

mutual
def Expr.eval (call : Calls World) (store : Store) : Expr → World → Option (Val × World)
  | .lit value _ _, w => some (value.val, w)
  | .var _ handle _ slot, w => do
    let id ← handle
    let ty ← slot
    return (store.read I id ty, w)
  | .call name args _ _, w => do
    let (vals, w) ← evalArgs call store args w
    let tys ← args.mapM Expr.slot
    call name tys vals w
/-- All arguments are evaluated, from left to right, also those of `and` and `or`. -/
def evalArgs (call : Calls World) (store : Store) : List Expr → World → Option (List Val × World)
  | [], w => some ([], w)
  | arg :: args, w => do
    let (v, w) ← arg.eval call store w
    let (vs, w) ← evalArgs call store args w
    return (v :: vs, w)
end

/-! ## Statements -/

/-- Goes on unless control has left. -/
def thenRun (course : Option (Course World)) (next : Store → World → Option (Course World)) :
    Option (Course World) :=
  match course with
  | some (.falls, store, w) => next store w
  | _ => course

/-- After a turn of a loop: the next one, or what comes after the loop. -/
def afterTurn (course : Option (Course World)) (again : Store → World → Option (Course World)) :
    Option (Course World) :=
  match course with
  | some (.falls, store, w) => again store w
  | some (.breaks, store, w) => some (.falls, store, w)
  | _ => course

/-- The condition is evaluated before each turn. -/
def loopWhile (test : Store → World → Option (Val × World))
    (turn : Store → World → Option (Course World)) : Nat → Store → World → Option (Course World)
  | 0, _, _ => none
  | fuel + 1, store, w =>
    match test store w with
    | some (.bool true, w) => afterTurn (turn store w) (loopWhile test turn fuel)
    | some (.bool false, w) => some (.falls, store, w)
    | _ => none

/-- Counts from `i` up to `hi`. The order is the signed one, and sums are taken modulo `2 ^ 64`. -/
def loopFor (id : DeclId) (hi : Int64) (turn : Store → World → Option (Course World)) :
    Nat → Int64 → Store → World → Option (Course World)
  | 0, _, _, _ => none
  | fuel + 1, i, store, w =>
    if i ≤ hi then
      afterTurn (turn (Function.update store id (some (.int i))) w)
        (loopFor id hi turn fuel (i + 1))
    else some (.falls, store, w)

/-- Stores the value of an expression. -/
def runStore (call : Calls World) (handle : Option DeclId) (value : Expr) (store : Store)
    (w : World) : Option (Course World) := do
  let id ← handle
  let (v, w) ← value.eval I call store w
  return (.falls, Function.update store id (some v), w)

/-- How a block ends after its statements. -/
def runEnd (call : Calls World) (ret : Option Return) (brk : Option Break) (store : Store)
    (w : World) : Option (Course World) :=
  match ret, brk with
  | some ret, _ => do
    let (v, w) ← ret.value.eval I call store w
    return (.returns v, store, w)
  | none, some _ => some (.breaks, store, w)
  | none, none => some (.falls, store, w)

mutual
def Stmt.run (call : Calls World) (fuel : Nat) : Stmt → Store → World → Option (Course World)
  | .decl _ _ value _ handle, store, w => runStore I call handle value store w
  | .assign _ value _ handle, store, w => runStore I call handle value store w
  | .branch conds blocks _, store, w => runArms call fuel conds blocks store w
  | .forLoop _ lo hi body _ handle, store, w => do
    let id ← handle
    let (lo, w) ← lo.eval I call store w
    let (hi, w) ← hi.eval I call store w
    match lo, hi with
    | .int lo, .int hi => loopFor id hi (body.run call fuel) fuel lo store w
    | _, _ => none
  | .whileLoop cond body _, store, w =>
    loopWhile (fun store w => cond.eval I call store w) (body.run call fuel) fuel store w
  | .call value, store, w => do
    let (_, w) ← value.eval I call store w
    return (.falls, store, w)
def Block.run (call : Calls World) (fuel : Nat) : Block → Store → World → Option (Course World)
  | ⟨stmts, ret, brk, _, _⟩, store, w =>
    thenRun (runStmts call fuel stmts store w) (runEnd I call ret brk)
def runStmts (call : Calls World) (fuel : Nat) : List Stmt → Store → World → Option (Course World)
  | [], store, w => some (.falls, store, w)
  | stmt :: stmts, store, w => thenRun (stmt.run call fuel store w) (runStmts call fuel stmts)
/-- The block of the first condition that holds; else the block that is left, if there is one. -/
def runArms (call : Calls World) (fuel : Nat) :
    List Expr → List Block → Store → World → Option (Course World)
  | [], [], store, w => some (.falls, store, w)
  | [], block :: _, store, w => block.run call fuel store w
  | _ :: _, [], _, _ => none
  | cond :: conds, block :: blocks, store, w =>
    match cond.eval I call store w with
    | some (.bool true, w) => block.run call fuel store w
    | some (.bool false, w) => runArms call fuel conds blocks store w
    | _ => none
end

/-! ## Functions and units -/

/-- The store in which a function starts. -/
def bindArgs (store : Store) : List Param → List Val → Store
  | param :: params, v :: vs =>
    bindArgs (match param.handle with
      | some id => Function.update store id (some v)
      | none => store) params vs
  | _, _ => store

/-- Runs a function in a store of its own. -/
def FnDef.invoke (call : Calls World) (fuel : Nat) (fn : FnDef) (args : List Val) (w : World) :
    Option (Val × World) :=
  match fn.body.run I call fuel (bindArgs (fun _ => none) fn.params args) w with
  | some (.falls, _, w) => fn.retSlot.map fun ty => (ty.zero, w)
  | some (.returns v, _, w) => some (v, w)
  | _ => none

/-- Whether the parameters of a function have just these types. -/
def FnDef.takes (fn : FnDef) (tys : List Ty) : Bool :=
  fn.params.map (fun param => param.ty.resolve.toOption) = tys.map some

namespace CompileUnit

variable (unit : CompileUnit)

/-- Functions of the unit hide built-ins of the same name, whatever the types. -/
def calls : Nat → Calls World
  | 0, _, _, _, _ => none
  | fuel + 1, name, tys, args, w =>
    if name ∈ unit.functions.map (·.name) then do
      let fn ← unit.functions.find? fun fn => fn.name = name && fn.takes tys
      fn.invoke I (calls fuel) fuel args w
    else I.operate ⟨name, tys⟩ args w

/-- Runs the script of a unit. Gives its status and the world it leaves. -/
def evaluate (fuel : Nat) (w : World) : Option (UInt32 × World) :=
  match unit.script.body.run I (unit.calls I fuel) fuel (fun _ => none) w with
  | some (.falls, _, w) => some (0, w)
  | some (.returns (.int n), _, w) => some (statusOf n, w)
  | _ => none

end CompileUnit

end

end ScriptLang
