import ScriptLang.Ir.Emit
import ScriptLang.Scope.Basic

/-!
# Emission of bodies

Expressions, statements and control flow of one routine. Parameters and loop variables are values
by name; locals live in cells and are loaded where they are read.
-/

namespace ScriptLang

open Emit

/-- What a routine returns. -/
inductive RoutineKind where
  | function (ret : IrType)
  | script
  deriving DecidableEq, Repr

/-- What the emission of a body depends on. -/
structure BodyContext where
  scopes : ScopeTree
  /-- The name of each function of the unit. -/
  functions : List String
  kind : RoutineKind

/-- Functions of the unit hide built-ins of the same name. -/
def BodyContext.isUserFunction (ctx : BodyContext) (name : String) : Bool :=
  name ∈ ctx.functions

/-- The symbol of a function of the unit with parameters of the given types. -/
def functionSymbol (functions : List String) (name : String) (params : List IrType) : String :=
  symbol name (params.map IrType.text) (1 < functions.count name)

/-! ## Expressions -/

/-- What an expression comes to. -/
inductive Value where
  | operand (o : Operand)
  /-- A computation that has no register yet. -/
  | pending (computation : Computation)
  deriving DecidableEq, Repr

/-- Gives a pending computation a register. -/
def Value.toOperand : Value → Emit Operand
  | .operand o => return o
  | .pending computation => do
    let reg ← freshReg
    emit (.assign reg computation)
    return .value reg

/-- The instruction of a native built-in. -/
def Native.compute : Native → List Operand → Except Halt Computation
  | .binary op ty, [a, b] => .ok (.binary op ty a b)
  | .unary op, [a] => .ok (.unary op a)
  | _, _ => .error (.fault .operandCount)

/-- A call with its arguments done. -/
def emitCall (ctx : BodyContext) (name : String) (args : List (IrType × Operand)) (ret : IrType)
    (span : Span) : Emit Value := do
  let types := args.map (·.1)
  if ctx.isUserFunction name then
    return .pending (.call ret (.function (functionSymbol ctx.functions name types)) args)
  else
    match Native.find? name types, RuntimeRoutine.find? name types with
    | some native, _ =>
      return .pending (← ofExcept (native.compute (args.map (·.2))))
    | none, some routine =>
      use routine
      return .pending (.call routine.ret (.runtime routine) args)
    | none, none =>
      let what := "no lowering for `" ++ name ++ "`(" ++ ", ".intercalate (types.map IrType.text) ++ ")"
      fail (.missing what span)

/-- A variable: a value by its name, or the contents of its cell. -/
def emitVariable (ctx : BodyContext) (name : String) (handle : Option DeclId) (ty : IrType)
    (span : Span) : Except Halt Value := do
  let id ← demand handle (.missing ("variable `" ++ name ++ "`") span)
  let var ← ctx.scopes.declaration id span
  match var.kind with
  | .localVar => return .pending (.load ty (.variable name id))
  | _ => return .operand (.value (.variable name id))

mutual
def Expr.emitValue (ctx : BodyContext) : Expr → Emit Value
  | .lit value span slot => do
    let _ ← ofExcept (Expr.lit value span slot).irType
    return .operand (.const value)
  | .var name handle span slot => do
    let ty ← ofExcept (Expr.var name handle span slot).irType
    ofExcept (emitVariable ctx name handle ty span)
  | .call name args span slot => do
    let ret ← ofExcept (Expr.call name args span slot).irType
    let args ← emitArgs ctx args
    emitCall ctx name args ret span
def emitArgs (ctx : BodyContext) : List Expr → Emit (List (IrType × Operand))
  | [] => return []
  | arg :: args => do
    let ty ← ofExcept arg.irType
    let value ← arg.emitValue ctx
    let operand ← value.toOperand
    return (ty, operand) :: (← emitArgs ctx args)
end

def Expr.emitOperand (ctx : BodyContext) (expr : Expr) : Emit Operand := do
  let value ← expr.emitValue ctx
  value.toOperand

/-- Emits an expression for its effect. A result that is not `void` gets a register all the same. -/
def Expr.emitEffect (ctx : BodyContext) (expr : Expr) : Emit Unit := do
  let ty ← ofExcept expr.irType
  match ← expr.emitValue ctx with
  | .operand _ => return
  | .pending computation =>
    if ty = .void then
      emit (.perform computation)
    else
      let reg ← freshReg
      emit (.assign reg computation)

/-! ## Statements -/

/-- Stores a value in the cell of a local. -/
def emitStore (ctx : BodyContext) (name : String) (id : DeclId) (value : Expr) : Emit Unit := do
  let ty ← ofExcept value.irType
  let operand ← value.emitOperand ctx
  emit (.store ty operand (.variable name id))

def Return.emit (ctx : BodyContext) (ret : Return) : Emit Unit :=
  match ctx.kind with
  | .script => do
    let operand ← ret.value.emitOperand ctx
    let status ← freshReg
    Emit.emit (.assign status (.trunc operand))
    terminate (.ret (some (.i32, .value status)))
  | .function .void => do
    ret.value.emitEffect ctx
    terminate (.ret none)
  | .function ty => do
    let operand ← ret.value.emitOperand ctx
    terminate (.ret (some (ty, operand)))

/-- Leaves the innermost loop. -/
def Break.emit (exit : Option Label) (brk : Break) : Emit Unit :=
  match exit with
  | some exit => terminate (.br exit)
  | none => fail (.missing "break outside of a loop" brk.span)

/-- Whether control can reach what comes next. -/
def falls : Emit Bool := do
  return !(← cursor).terminated

/-- Goes on at `target` if control gets here, and says whether it does. -/
def fallTo (target : Label) : Emit Bool := do
  let open? ← falls
  if open? then
    terminate (.br target)
  return open?

/-- The head of a counting loop: the loop variable, the test, and where to go. -/
def emitLoopHead (id : Nat) (var cmp : ValueName) (incoming : List (Operand × Label))
    (hi : Operand) : Emit Unit := do
  openBlock (.head id)
  emit (.assign var (.phi incoming))
  emit (.assign cmp (.binary (.icmp .sle) .i64 (.value var) hi))
  terminate (.condBr (.value cmp) (.body id) (.cont id))

/-- The end of the body of a counting loop. Gives the block from which control goes back to the
head, if it does. -/
def emitLoopTail (id : Nat) (var next : ValueName) : Emit (Option Label) := do
  if ← falls then
    emit (.assign next (.binary .add .i64 (.const (.int 1)) (.value var)))
    let tail := (← cursor).block
    terminate (.br (.head id))
    return some tail
  else
    return none

mutual
def Stmt.emit (ctx : BodyContext) (exit : Option Label) : Stmt → Emit Unit
  | .decl name _ value span handle => do
    let id ← ofExcept (demand handle (.missing ("local `" ++ name ++ "`") span))
    emitStore ctx name id value
  | .assign target value span handle => do
    let id ← ofExcept (demand handle (.missing ("target `" ++ target ++ "`") span))
    emitStore ctx target id value
  | .branch conds blocks span => emitArms ctx exit span conds blocks
  | .forLoop var lo hi body span handle => do
    let decl ← ofExcept (demand handle (.missing ("loop variable `" ++ var ++ "`") span))
    let counter := ValueName.variable var decl
    let lo ← lo.emitOperand ctx
    let hi ← hi.emitOperand ctx
    -- The head names the block that control comes from, so that block must be open.
    ensureOpen
    let pred := (← cursor).block
    let id ← freshLabel
    let next ← freshReg
    let cmp ← freshReg
    terminate (.br (.head id))
    -- The head names the block in which the body ends, so the body is emitted first.
    let (tail, lines) ← capture do
      openBlock (.body id)
      body.emit ctx (some (.cont id))
      emitLoopTail id counter next
    let back := tail.toList.map fun tail => (Operand.value next, tail)
    emitLoopHead id counter cmp ((lo, pred) :: back) hi
    append lines
    openBlock (.cont id)
  | .whileLoop cond body _ => do
    let id ← freshLabel
    terminate (.br (.head id))
    openBlock (.head id)
    let cond ← cond.emitOperand ctx
    terminate (.condBr cond (.body id) (.cont id))
    openBlock (.body id)
    body.emit ctx (some (.cont id))
    let _ ← fallTo (.head id)
    openBlock (.cont id)
  | .call value => value.emitEffect ctx
def Block.emit (ctx : BodyContext) (exit : Option Label) : Block → Emit Unit
  | ⟨stmts, ret, brk, _, _⟩ => do
    emitStmts ctx exit stmts
    match ret with
    | some ret => ret.emit ctx
    | none => pure ()
    match brk with
    | some brk => brk.emit exit
    | none => pure ()
def emitStmts (ctx : BodyContext) (exit : Option Label) : List Stmt → Emit Unit
  | [] => return
  | stmt :: stmts => do
    stmt.emit ctx exit
    emitStmts ctx exit stmts
/-- One arm for each condition; each further condition is tried in the `else` of the one before. -/
def emitArms (ctx : BodyContext) (exit : Option Label) (span : Span) :
    List Expr → List Block → Emit Unit
  | conds, blocks => do
    let id ← freshLabel
    match conds with
    | [] => fail (.missing "branch without a condition" span)
    | cond :: conds =>
      let cond ← cond.emitOperand ctx
      terminate (.condBr cond (.thenArm id) (.elseArm id))
      openBlock (.thenArm id)
      match blocks with
      | [] => fail (.missing "branch arm without a block" span)
      | block :: blocks =>
        block.emit ctx exit
        let thenFalls ← fallTo (.cont id)
        openBlock (.elseArm id)
        if conds.isEmpty then
          emitLast ctx exit blocks
        else
          emitArms ctx exit span conds blocks
        let elseFalls ← fallTo (.cont id)
        if thenFalls || elseFalls then
          openBlock (.cont id)
/-- The last of the blocks left over is the `else` block. -/
def emitLast (ctx : BodyContext) (exit : Option Label) : List Block → Emit Unit
  | [] => return
  | block :: blocks =>
    match blocks with
    | [] => block.emit ctx exit
    | _ :: _ => emitLast ctx exit blocks
end

end ScriptLang
