import ScriptLang.Json.Basic
import ScriptLang.Tree.Basic

/-!
# Reading trees from JSON

A record is read from an object by the names of its fields, or from an array by their order; fields
it does not know are skipped. An alternative is an object with exactly one field. Annotations may
be left out, and a set of candidates may list its members in any order and more than once.

Reading a value needs at most as many steps as the value nests, so its depth is the fuel.
-/

namespace ScriptLang

namespace Read

/-! ## Plain values -/

def string? : Json → Option String
  | .str s => some s
  | _ => none

def bool? : Json → Option Bool
  | .bool b => some b
  | _ => none

/-- An integer of at most 32 bits without a sign. -/
def nat32? : Json → Option Nat
  | .int (.ofNat n) => if n < UInt32.size then some n else none
  | _ => none

def uint32? (j : Json) : Option UInt32 :=
  (nat32? j).map UInt32.ofNat

def int64? : Json → Option Int64
  | .int n =>
    if Int64.minValue.toInt ≤ n ∧ n ≤ Int64.maxValue.toInt then some (Int64.ofInt n) else none
  | _ => none

/-- Any number is a float; an integer is rounded like every decimal. -/
def float? : Json → Option Binary64
  | .int n => some (.ofDecimal (n < 0) n.natAbs 0)
  | .decimal negative digits exponent => some (.ofDecimal negative digits exponent)
  | _ => none

def nullable? (read : Json → Option α) : Json → Option (Option α)
  | .null => some none
  | j => (read j).map some

def list? (read : Json → Option α) : Json → Option (List α)
  | .arr items => items.mapM read
  | _ => none

/-! ## Records and alternatives -/

/-- The fields of a record. An array gives them in order and may leave out the last ones. -/
def record? (names : List String) : Json → Option (List (String × Json))
  | .obj fields => some fields
  | .arr items => if items.length ≤ names.length then some (names.zip items) else none
  | _ => none

def required? (fields : List (String × Json)) (name : String) (read : Json → Option α) : Option α :=
  (fields.lookup name).bind read

/-- A field that may be left out. If it is there, it has to be right. -/
def optional? (fields : List (String × Json)) (name : String) (default : α)
    (read : Json → Option α) : Option α :=
  match fields.lookup name with
  | none => some default
  | some j => read j

/-- The name and the content of an alternative. -/
def alternative? : Json → Option (String × Json)
  | .obj [field] => some field
  | _ => none

/-! ## Types -/

def tyName? (j : Json) : Option String := do
  let fields ← record? ["name"] j
  required? fields "name" string?

/-- Types that nest at most `fuel` deep. -/
def ty? : (fuel : Nat) → Json → Option Ty
  | 0, _ => none
  | fuel + 1, j =>
    match j with
    | .str "Unknown" => some .unknown
    | _ => do
      let (name, content) ← alternative? j
      match name, content with
      | "Basic", _ => return .basic (← tyName? content)
      | "Fun", .arr [params, ret] => return .fn (← list? (ty? fuel) params) (← ty? fuel ret)
      | "Variant", _ => return .variant (Ty.sortDistinct (← list? (ty? fuel) content))
      | "Unknown", .null => return .unknown
      | _, _ => none

end Read

def Ty.ofJson? (j : Json) : Option Ty :=
  Read.ty? (j.depth + 1) j

def TypeSlot.ofJson? (j : Json) : Option TypeSlot :=
  Read.nullable? Ty.ofJson? j

/-! ## Leaves of the tree -/

def Span.ofJson? (j : Json) : Option Span := do
  let fields ← Read.record? ["start", "end"] j
  let start ← Read.required? fields "start" Read.uint32?
  let stop ← Read.required? fields "end" Read.uint32?
  return { start, stop }

def Literal.ofJson? (j : Json) : Option Literal := do
  let (name, content) ← Read.alternative? j
  match name with
  | "Bool" => return .bool (← Read.bool? content)
  | "Int" => return .int (← Read.int64? content)
  | "Float" => return .float (← Read.float? content)
  | _ => none

namespace Read

def span? (fields : List (String × Json)) : Option Span :=
  optional? fields "span" {} Span.ofJson?

/-- A handle or a scope, under the name it has in its record. -/
def handle? (fields : List (String × Json)) (name : String) : Option (Option Nat) :=
  optional? fields name none (nullable? nat32?)

def slot? (fields : List (String × Json)) (name : String) : Option TypeSlot :=
  optional? fields name none TypeSlot.ofJson?

end Read

def TypeExpr.ofJson? (j : Json) : Option TypeExpr := do
  let fields ← Read.record? ["name", "span"] j
  let name ← Read.required? fields "name" Read.string?
  return { name, span := ← Read.span? fields }

def Break.ofJson? (j : Json) : Option Break := do
  let fields ← Read.record? ["span"] j
  return { span := ← Read.span? fields }

def Param.ofJson? (j : Json) : Option Param := do
  let fields ← Read.record? ["name", "ty", "span", "decl"] j
  let name ← Read.required? fields "name" Read.string?
  let ty ← Read.required? fields "ty" TypeExpr.ofJson?
  return { name, ty, span := ← Read.span? fields, handle := ← Read.handle? fields "decl" }

/-! ## Expressions -/

namespace Read

def expr? : (fuel : Nat) → Json → Option Expr
  | 0, _ => none
  | fuel + 1, j => do
    let fields ← record? ["kind", "span", "ty"] j
    let (name, content) ← required? fields "kind" alternative?
    let span ← span? fields
    let slot ← slot? fields "ty"
    match name with
    | "Lit" => return .lit (← Literal.ofJson? content) span slot
    | "Var" =>
      let fields ← record? ["name", "decl"] content
      let name ← required? fields "name" string?
      return .var name (← handle? fields "decl") span slot
    | "Call" =>
      let fields ← record? ["name", "args"] content
      let name ← required? fields "name" string?
      let args ← required? fields "args" (list? (expr? fuel))
      return .call name args span slot
    | _ => none

end Read

def Expr.ofJson? (j : Json) : Option Expr :=
  Read.expr? (j.depth + 1) j

def Return.ofJson? (j : Json) : Option Return := do
  let fields ← Read.record? ["value", "span"] j
  let value ← Read.required? fields "value" Expr.ofJson?
  return { value, span := ← Read.span? fields }

/-! ## Statements and blocks -/

namespace Read

mutual
def stmt? : (fuel : Nat) → Json → Option Stmt
  | 0, _ => none
  | fuel + 1, j => do
    let (name, content) ← alternative? j
    match name with
    | "Decl" =>
      let fields ← record? ["name", "ty", "value", "span", "decl"] content
      let name ← required? fields "name" string?
      let ascription ← optional? fields "ty" none (nullable? TypeExpr.ofJson?)
      let value ← required? fields "value" Expr.ofJson?
      return .decl name ascription value (← span? fields) (← handle? fields "decl")
    | "Assign" =>
      let fields ← record? ["target", "value", "span", "decl"] content
      let target ← required? fields "target" string?
      let value ← required? fields "value" Expr.ofJson?
      return .assign target value (← span? fields) (← handle? fields "decl")
    | "Branch" =>
      let fields ← record? ["conds", "blocks", "span"] content
      let conds ← required? fields "conds" (list? Expr.ofJson?)
      let blocks ← required? fields "blocks" (list? (block? fuel))
      return .branch conds blocks (← span? fields)
    | "For" =>
      let fields ← record? ["var", "from", "to", "body", "span", "decl"] content
      let var ← required? fields "var" string?
      let lo ← required? fields "from" Expr.ofJson?
      let hi ← required? fields "to" Expr.ofJson?
      let body ← required? fields "body" (block? fuel)
      return .forLoop var lo hi body (← span? fields) (← handle? fields "decl")
    | "While" =>
      let fields ← record? ["cond", "body", "span"] content
      let cond ← required? fields "cond" Expr.ofJson?
      let body ← required? fields "body" (block? fuel)
      return .whileLoop cond body (← span? fields)
    | "Call" => return .call (← Expr.ofJson? content)
    | _ => none
def block? : (fuel : Nat) → Json → Option Block
  | 0, _ => none
  | fuel + 1, j => do
    let fields ← record? ["stmts", "ret", "brk", "span", "scope"] j
    let stmts ← required? fields "stmts" (list? (stmt? fuel))
    let ret ← optional? fields "ret" none (nullable? Return.ofJson?)
    let brk ← optional? fields "brk" none (nullable? Break.ofJson?)
    return { stmts, ret, brk, span := ← span? fields, scope := ← handle? fields "scope" }
end

end Read

def Stmt.ofJson? (j : Json) : Option Stmt :=
  Read.stmt? (j.depth + 1) j

def Block.ofJson? (j : Json) : Option Block :=
  Read.block? (j.depth + 1) j

/-! ## Units -/

def FnDef.ofJson? (j : Json) : Option FnDef := do
  let fields ← Read.record? ["name", "params", "ret", "body", "span", "ret_ty"] j
  let name ← Read.required? fields "name" Read.string?
  let params ← Read.required? fields "params" (Read.list? Param.ofJson?)
  let ret ← Read.optional? fields "ret" none (Read.nullable? TypeExpr.ofJson?)
  let body ← Read.required? fields "body" Block.ofJson?
  let span ← Read.span? fields
  let retSlot ← Read.slot? fields "ret_ty"
  return { name, params, ret, body, span, retSlot }

def Script.ofJson? (j : Json) : Option Script := do
  let fields ← Read.record? ["name", "body", "span"] j
  let name ← Read.required? fields "name" Read.string?
  let body ← Read.required? fields "body" Block.ofJson?
  return { name, body, span := ← Read.span? fields }

def CompileUnit.ofJson? (j : Json) : Option CompileUnit := do
  let fields ← Read.record? ["functions", "script", "span", "scope"] j
  let functions ← Read.required? fields "functions" (Read.list? FnDef.ofJson?)
  let script ← Read.required? fields "script" Script.ofJson?
  return { functions, script, span := ← Read.span? fields, scope := ← Read.handle? fields "scope" }

end ScriptLang
