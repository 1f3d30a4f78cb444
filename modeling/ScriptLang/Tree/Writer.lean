import ScriptLang.Json.Basic
import ScriptLang.Tree.Basic

/-!
# Writing trees as JSON

A record is an object with all its fields, an alternative is an object with one field, and what is
absent is `null`. How a float literal is written is up to the caller.
-/

namespace ScriptLang

def Span.toJson (span : Span) : Json :=
  .obj [("start", .int span.start.toNat), ("end", .int span.stop.toNat)]

namespace Ty

mutual
def toJson : Ty → Json
  | .basic name => .obj [("Basic", .obj [("name", .str name)])]
  | .fn params ret => .obj [("Fun", .arr [.arr (toJsonAll params), toJson ret])]
  | .variant alts => .obj [("Variant", .arr (toJsonAll alts))]
  | .unknown => .str "Unknown"
def toJsonAll : List Ty → List Json
  | [] => []
  | t :: ts => toJson t :: toJsonAll ts
end

end Ty

/-- A float as a JSON number. JSON has no number for what is not finite. -/
def Binary64.toJson (x : Binary64) : Json :=
  match x.toDecimal? with
  | some (digits, exponent) => .decimal x.isNegative digits exponent
  | none => .null

/-- A float as the text of its bit pattern, again only if it is finite. -/
def Binary64.toJsonBits (x : Binary64) : Json :=
  match x.toDecimal? with
  | some _ => .str ("0x" ++ x.hex)
  | none => .null

def handleJson (handle : Option Nat) : Json :=
  .ofOption (fun id : Nat => .int id) handle

def TypeSlot.toJson (slot : TypeSlot) : Json :=
  .ofOption Ty.toJson slot

def TypeExpr.toJson (expr : TypeExpr) : Json :=
  .obj [("name", .str expr.name), ("span", expr.span.toJson)]

def Break.toJson (brk : Break) : Json :=
  .obj [("span", brk.span.toJson)]

def Param.toJson (param : Param) : Json :=
  .obj [("name", .str param.name), ("ty", param.ty.toJson), ("span", param.span.toJson),
    ("decl", handleJson param.handle)]

section

variable (float : Binary64 → Json)

def Literal.toJson : Literal → Json
  | .bool value => .obj [("Bool", .bool value)]
  | .int value => .obj [("Int", .int value.toInt)]
  | .float value => .obj [("Float", float value)]

def exprJson (kind : String) (content : Json) (span : Span) (slot : TypeSlot) : Json :=
  .obj [("kind", .obj [(kind, content)]), ("span", span.toJson), ("ty", slot.toJson)]

mutual
def Expr.toJson : Expr → Json
  | .lit value span slot => exprJson "Lit" (value.toJson float) span slot
  | .var name handle span slot =>
    exprJson "Var" (.obj [("name", .str name), ("decl", handleJson handle)]) span slot
  | .call name args span slot =>
    exprJson "Call" (.obj [("name", .str name), ("args", .arr (exprsJson args))]) span slot
def exprsJson : List Expr → List Json
  | [] => []
  | expr :: exprs => expr.toJson :: exprsJson exprs
end

def Return.toJson (ret : Return) : Json :=
  .obj [("value", ret.value.toJson float), ("span", ret.span.toJson)]

mutual
def Stmt.toJson : Stmt → Json
  | .decl name ascription value span handle =>
    .obj [("Decl", .obj [("name", .str name), ("ty", .ofOption TypeExpr.toJson ascription),
      ("value", value.toJson float), ("span", span.toJson), ("decl", handleJson handle)])]
  | .assign target value span handle =>
    .obj [("Assign", .obj [("target", .str target), ("value", value.toJson float),
      ("span", span.toJson), ("decl", handleJson handle)])]
  | .branch conds blocks span =>
    .obj [("Branch", .obj [("conds", .arr (exprsJson float conds)),
      ("blocks", .arr (blocksJson blocks)), ("span", span.toJson)])]
  | .forLoop var lo hi body span handle =>
    .obj [("For", .obj [("var", .str var), ("from", lo.toJson float), ("to", hi.toJson float),
      ("body", body.toJson), ("span", span.toJson), ("decl", handleJson handle)])]
  | .whileLoop cond body span =>
    .obj [("While", .obj [("cond", cond.toJson float), ("body", body.toJson),
      ("span", span.toJson)])]
  | .call value => .obj [("Call", value.toJson float)]
def Block.toJson : Block → Json
  | ⟨stmts, ret, brk, span, scope⟩ =>
    .obj [("stmts", .arr (stmtsJson stmts)), ("ret", .ofOption (Return.toJson float) ret),
      ("brk", .ofOption Break.toJson brk), ("span", span.toJson), ("scope", handleJson scope)]
def stmtsJson : List Stmt → List Json
  | [] => []
  | stmt :: stmts => stmt.toJson :: stmtsJson stmts
def blocksJson : List Block → List Json
  | [] => []
  | block :: blocks => block.toJson :: blocksJson blocks
end

def FnDef.toJson (fn : FnDef) : Json :=
  .obj [("name", .str fn.name), ("params", .arr (fn.params.map Param.toJson)),
    ("ret", .ofOption TypeExpr.toJson fn.ret), ("body", fn.body.toJson float),
    ("span", fn.span.toJson), ("ret_ty", fn.retSlot.toJson)]

def Script.toJson (script : Script) : Json :=
  .obj [("name", .str script.name), ("body", script.body.toJson float),
    ("span", script.span.toJson)]

def CompileUnit.toJson (unit : CompileUnit) : Json :=
  .obj [("functions", .arr (unit.functions.map (FnDef.toJson float))),
    ("script", unit.script.toJson float), ("span", unit.span.toJson),
    ("scope", handleJson unit.scope)]

end

end ScriptLang
