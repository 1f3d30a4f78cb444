import ScriptLang.Ir.Native

/-!
# Instructions, routines and modules

The emitted program as data. A routine is a sequence of lines, each a label that opens a block or
an instruction of the block opened last.
-/

namespace ScriptLang

/-- The label of a block. A number is used for the blocks of one construct only. -/
inductive Label where
  | entry
  | thenArm (id : Nat)
  | elseArm (id : Nat)
  | cont (id : Nat)
  | head (id : Nat)
  | body (id : Nat)
  /-- A block for code that cannot be reached. -/
  | dead (id : Nat)
  deriving DecidableEq, Repr

/-- The name of a value: a numbered register, or a variable with its declaration. -/
inductive ValueName where
  | reg (n : Nat)
  | variable (name : String) (id : DeclId)
  deriving DecidableEq, Repr

inductive Operand where
  | const (literal : Literal)
  | value (name : ValueName)
  deriving DecidableEq, Repr

inductive Callee where
  | function (symbol : String)
  | runtime (routine : RuntimeRoutine)
  deriving DecidableEq, Repr

/-- What computes a value. -/
inductive Computation where
  | binary (op : Opcode) (ty : IrType) (a b : Operand)
  | unary (op : UnaryOp) (a : Operand)
  | alloca (ty : IrType)
  | load (ty : IrType) (cell : ValueName)
  | call (ret : IrType) (callee : Callee) (args : List (IrType × Operand))
  /-- The `i64` that the block control came from stands for. -/
  | phi (incoming : List (Operand × Label))
  /-- The low 32 bits of an `i64`. -/
  | trunc (a : Operand)
  deriving DecidableEq, Repr

inductive Instr where
  | assign (dest : ValueName) (value : Computation)
  /-- A computation without a value, for its effect. -/
  | perform (effect : Computation)
  | store (ty : IrType) (value : Operand) (cell : ValueName)
  | br (target : Label)
  | condBr (cond : Operand) (thenTo elseTo : Label)
  | ret (value : Option (IrType × Operand))
  deriving DecidableEq, Repr

/-- Whether an instruction ends its block. -/
def Instr.isTerminator : Instr → Bool
  | .br _ => true
  | .condBr _ _ _ => true
  | .ret _ => true
  | _ => false

inductive Line where
  | label (name : Label)
  | instr (i : Instr)
  deriving DecidableEq, Repr

structure Routine where
  ret : IrType
  symbol : String
  params : List (IrType × ValueName)
  lines : List Line
  deriving DecidableEq, Repr

structure Module where
  name : String
  targetTriple : Option String
  routines : List Routine
  declares : List RuntimeRoutine
  deriving DecidableEq, Repr

/-! ## Text -/

def Label.text : Label → String
  | .entry => "entry"
  | .thenArm id => s!"then_{id}"
  | .elseArm id => s!"else_{id}"
  | .cont id => s!"cont_{id}"
  | .head id => s!"head_{id}"
  | .body id => s!"body_{id}"
  | .dead id => s!"dead_{id}"

/-- Variables have a dot in their name, registers and labels have none. -/
def ValueName.text : ValueName → String
  | .reg n => s!"%r{n}"
  | .variable name id => "%" ++ name ++ s!".{id}"

def Operand.text : Operand → String
  | .const literal => literal.operandText
  | .value name => name.text

def Callee.text : Callee → String
  | .function symbol => symbol
  | .runtime routine => "@" ++ routine.name

def Computation.text : Computation → String
  | .binary op ty a b => op.render ty a.text b.text
  | .unary op a => op.render a.text
  | .alloca ty => "alloca " ++ ty.text
  | .load ty cell => "load " ++ ty.text ++ ", ptr " ++ cell.text
  | .call ret callee args =>
    "call " ++ ret.text ++ " " ++ callee.text ++ "(" ++
      ", ".intercalate (args.map fun arg => arg.1.text ++ " " ++ arg.2.text) ++ ")"
  | .phi incoming =>
    "phi i64 " ++
      ", ".intercalate (incoming.map fun pair => "[" ++ pair.1.text ++ ", %" ++ pair.2.text ++ "]")
  | .trunc a => "trunc i64 " ++ a.text ++ " to i32"

def Instr.text : Instr → String
  | .assign dest value => dest.text ++ " = " ++ value.text
  | .perform effect => effect.text
  | .store ty value cell => "store " ++ ty.text ++ " " ++ value.text ++ ", ptr " ++ cell.text
  | .br target => "br label %" ++ target.text
  | .condBr cond thenTo elseTo =>
    "br i1 " ++ cond.text ++ ", label %" ++ thenTo.text ++ ", label %" ++ elseTo.text
  | .ret none => "ret void"
  | .ret (some (ty, value)) => "ret " ++ ty.text ++ " " ++ value.text

def Line.text : Line → String
  | .label name => name.text ++ ":\n"
  | .instr i => "  " ++ i.text ++ "\n"

def Routine.text (routine : Routine) : String :=
  let params := ", ".intercalate (routine.params.map fun param => param.1.text ++ " " ++ param.2.text)
  "define " ++ routine.ret.text ++ " " ++ routine.symbol ++ "(" ++ params ++ ") \x7b\n" ++
    String.join (routine.lines.map Line.text) ++ "\x7d\n"

/-- The header of a module, up to its first routine. -/
def Module.header (m : Module) : String :=
  "; ModuleID = '" ++ m.name ++ "'\n" ++
    match m.targetTriple with
    | some triple => "target triple = \"" ++ triple ++ "\"\n"
    | none => ""

def Module.declarations (m : Module) : String :=
  if m.declares.isEmpty then ""
  else "\n" ++ String.join (m.declares.map fun routine => routine.declaration ++ "\n")

def Module.text (m : Module) : String :=
  m.header ++ String.join (m.routines.map fun routine => "\n" ++ routine.text) ++ m.declarations

end ScriptLang
