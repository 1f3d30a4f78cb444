import ScriptLang.Error
import ScriptLang.Tree.Basic

/-!
# Types, constants and symbols of the IR

How the types and literals of the language are spelled in the emitted text, and the names of
routines.
-/

namespace ScriptLang

/-- The types that occur in emitted text. The status of the entry routine is the only `i32`. -/
inductive IrType where
  | i1
  | i32
  | i64
  | double
  | void
  deriving DecidableEq, Repr

namespace IrType

def text : IrType → String
  | .i1 => "i1"
  | .i32 => "i32"
  | .i64 => "i64"
  | .double => "double"
  | .void => "void"

def ofText? (s : String) : Option IrType :=
  [IrType.i1, .i32, .i64, .double, .void].find? (·.text = s)

/-- What a routine returns when control falls off its end. -/
def zero : IrType → Literal
  | .double => .float ⟨0⟩
  | .i1 => .bool false
  | _ => .int 0

end IrType

/-- The IR type of a type. Only the four basic types have one. -/
def Ty.irType (ty : Ty) (span : Span) : Except Halt IrType :=
  if ty = .int then .ok .i64
  else if ty = .float then .ok .double
  else if ty = .bool then .ok .i1
  else if ty = .void then .ok .void
  else .error (.missing ("no IR type for `" ++ ty.text ++ "`") span)

/-- The IR type in the slot of an expression. -/
def Expr.irType (expr : Expr) : Except Halt IrType := do
  let ty ← demand expr.slot (.missing "untyped expression" expr.span)
  ty.irType expr.span

/-- A float as a constant: its exact bit pattern. -/
def Binary64.constant (x : Binary64) : String :=
  "0x" ++ x.hex

/-- A literal as an operand. -/
def Literal.operandText : Literal → String
  | .float value => value.constant
  | literal => literal.text

/-- The zero of the type with this spelling; a spelling that names no type has an integer zero. -/
def zeroOfSpelling (spelling : String) : String :=
  (((IrType.ofText? spelling).map IrType.zero).getD (.int 0)).operandText

/-- A character that needs no quotes in a symbol. -/
def isPlainChar (c : Char) : Bool :=
  c.isAlphanum || c = '_' || c = '.' || c = '$' || c = '-'

/-- Whether a symbol needs no quotes. -/
def isPlain (name : String) : Bool :=
  name.toList.all isPlainChar &&
    match name.toList with
    | c :: _ => !c.isDigit
    | [] => true

/-- The symbol of a routine. If the name is overloaded, the parameter types become part of it. -/
def symbol (name : String) (params : List String) (overloaded : Bool) : String :=
  let full := if overloaded then params.foldl (fun s param => s ++ "." ++ param) name else name
  if isPlain full then "@" ++ full else "@\"" ++ full ++ "\""

end ScriptLang
