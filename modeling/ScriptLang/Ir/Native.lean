import ScriptLang.Ir.Type

/-!
# Built-ins in the IR

Most built-ins are a single instruction when their arguments have exactly the right types. Powers
and printing are routines of the runtime, which a module declares if it calls them.
-/

namespace ScriptLang

/-- How two integers or two truth values are compared; the order is the signed one. -/
inductive IntPredicate where
  | eq
  | ne
  | slt
  | sle
  | sgt
  | sge
  deriving DecidableEq, Repr

/-- How two floats are compared; none of these holds of a NaN. -/
inductive FloatPredicate where
  | oeq
  | one
  | olt
  | ole
  | ogt
  | oge
  deriving DecidableEq, Repr

inductive Opcode where
  | add
  | sub
  | mul
  | sdiv
  | srem
  | fadd
  | fsub
  | fmul
  | fdiv
  | frem
  | icmp (predicate : IntPredicate)
  | fcmp (predicate : FloatPredicate)
  | and
  | or
  deriving DecidableEq, Repr

def IntPredicate.text : IntPredicate → String
  | .eq => "eq"
  | .ne => "ne"
  | .slt => "slt"
  | .sle => "sle"
  | .sgt => "sgt"
  | .sge => "sge"

def FloatPredicate.text : FloatPredicate → String
  | .oeq => "oeq"
  | .one => "one"
  | .olt => "olt"
  | .ole => "ole"
  | .ogt => "ogt"
  | .oge => "oge"

namespace Opcode

def text : Opcode → String
  | .add => "add"
  | .sub => "sub"
  | .mul => "mul"
  | .sdiv => "sdiv"
  | .srem => "srem"
  | .fadd => "fadd"
  | .fsub => "fsub"
  | .fmul => "fmul"
  | .fdiv => "fdiv"
  | .frem => "frem"
  | .icmp predicate => "icmp " ++ predicate.text
  | .fcmp predicate => "fcmp " ++ predicate.text
  | .and => "and"
  | .or => "or"

/-- The instruction with its operands. -/
def render (op : Opcode) (ty : IrType) (a b : String) : String :=
  op.text ++ " " ++ ty.text ++ " " ++ a ++ ", " ++ b

def onInts? : String → Option Opcode
  | "+" => some .add
  | "-" => some .sub
  | "*" => some .mul
  | "/" => some .sdiv
  | "%" => some .srem
  | "==" => some (.icmp .eq)
  | "!=" => some (.icmp .ne)
  | "<" => some (.icmp .slt)
  | "<=" => some (.icmp .sle)
  | ">" => some (.icmp .sgt)
  | ">=" => some (.icmp .sge)
  | _ => none

def onFloats? : String → Option Opcode
  | "+" => some .fadd
  | "-" => some .fsub
  | "*" => some .fmul
  | "/" => some .fdiv
  | "%" => some .frem
  | "==" => some (.fcmp .oeq)
  | "!=" => some (.fcmp .one)
  | "<" => some (.fcmp .olt)
  | "<=" => some (.fcmp .ole)
  | ">" => some (.fcmp .ogt)
  | ">=" => some (.fcmp .oge)
  | _ => none

def onBools? : String → Option Opcode
  | "==" => some (.icmp .eq)
  | "!=" => some (.icmp .ne)
  | "and" => some .and
  | "or" => some .or
  | _ => none

end Opcode

inductive UnaryOp where
  | negInt
  | negFloat
  | not
  deriving DecidableEq, Repr

def UnaryOp.render (a : String) : UnaryOp → String
  | .negInt => "sub i64 0, " ++ a
  | .negFloat => "fneg double " ++ a
  | .not => "xor i1 " ++ a ++ ", true"

/-- A built-in that is one instruction. -/
inductive Native where
  | binary (op : Opcode) (ty : IrType)
  | unary (op : UnaryOp)
  deriving DecidableEq, Repr

namespace Native

/-- The instruction for a built-in with arguments of the given types. -/
def find? (name : String) : List IrType → Option Native
  | [.i64, .i64] => (Opcode.onInts? name).map (.binary · .i64)
  | [.double, .double] => (Opcode.onFloats? name).map (.binary · .double)
  | [.i1, .i1] => (Opcode.onBools? name).map (.binary · .i1)
  | [.i64] => if name = "-" then some (.unary .negInt) else none
  | [.double] => if name = "-" then some (.unary .negFloat) else none
  | [.i1] => if name = "not" then some (.unary .not) else none
  | _ => none

/-- The same for types given by their spelling. -/
def ofSpelling? (name : String) (args : List String) : Option Native := do
  find? name (← args.mapM IrType.ofText?)

def render : Native → List String → Except Fault String
  | .binary op ty, [a, b] => .ok (op.render ty a b)
  | .unary op, [a] => .ok (op.render a)
  | _, _ => .error .operandCount

end Native

/-- A routine that the runtime provides. -/
inductive RuntimeRoutine where
  | floatPower
  | intPower
  | printBool
  | printFloat
  | printInt
  deriving DecidableEq, Repr

namespace RuntimeRoutine

/-- All of them, in the byte order of their declarations. -/
def all : List RuntimeRoutine :=
  [.floatPower, .intPower, .printBool, .printFloat, .printInt]

def name : RuntimeRoutine → String
  | .floatPower => "llvm.pow.f64"
  | .intPower => "tarn_ipow"
  | .printBool => "tarn_print_bool"
  | .printFloat => "tarn_print_float"
  | .printInt => "tarn_print_int"

def ret : RuntimeRoutine → IrType
  | .floatPower => .double
  | .intPower => .i64
  | _ => .void

def params : RuntimeRoutine → List IrType
  | .floatPower => [.double, .double]
  | .intPower => [.i64, .i64]
  | .printBool => [.i1]
  | .printFloat => [.double]
  | .printInt => [.i64]

def declaration (routine : RuntimeRoutine) : String :=
  "declare " ++ routine.ret.text ++ " @" ++ routine.name ++ "(" ++
    ", ".intercalate (routine.params.map IrType.text) ++ ")"

/-- The routine for a built-in with arguments of the given types. -/
def find? (name : String) : List IrType → Option RuntimeRoutine
  | [.i64, .i64] => if name = "^" then some .intPower else none
  | [.double, .double] => if name = "^" then some .floatPower else none
  | [.i64] => if name = "print" then some .printInt else none
  | [.double] => if name = "print" then some .printFloat else none
  | [.i1] => if name = "print" then some .printBool else none
  | _ => none

/-- The same for types given by their spelling. -/
def ofSpelling? (name : String) (args : List String) : Option RuntimeRoutine := do
  find? name (← args.mapM IrType.ofText?)

end RuntimeRoutine

end ScriptLang
