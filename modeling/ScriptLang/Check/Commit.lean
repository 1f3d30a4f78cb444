import ScriptLang.Check.Pass
import ScriptLang.Check.Synthesis

/-!
# Types from the top down

Writing the type that is demanded of an expression into its slot, and the types that follow from it
into the slots of its parts. The demanded type decides which overload a call reaches.
-/

namespace ScriptLang

open Pass (stop ofExcept within)

/-- Writes a slot; a conflict means that the tree was typed differently before. -/
def TypeSlot.writeOrHalt (slot : TypeSlot) (ty : Ty) (span : Span) : Except Halt TypeSlot :=
  match slot.write ty with
  | .ok slot => .ok slot
  | .error conflict =>
    let what := "type slot already holds `" ++ conflict.existing.text ++ "`, cannot write `" ++
      conflict.attempted.text ++ "`"
    .error (.missing what span)

/-- The overload of a call that returns the demanded type. -/
def ScopeTree.overloadFor (tree : ScopeTree) (scope : ScopeId) (name : String) (args : List Ty)
    (ty : Ty) (span : Span) : Except Halt Signature := do
  let candidates ← tree.candidates scope name args
  match candidates.filter fun sig => (sig.ret.unify ty).isSome with
  | [sig] => return sig
  | [] => throw (.error (.undeclaredFunction name args span))
  | _ => throw (.couldNotInfer ty span)

variable {σ : Type} [Workspace σ]

/-- Writes the slot of an expression whose parts are done. -/
def Expr.writeSlot (expr : Expr) (ty : Ty) : Pass σ Expr Expr := do
  let slot ← ofExcept expr (expr.slot.writeOrHalt ty expr.span)
  return expr.withSlot slot

mutual
def Expr.commit (scope : ScopeId) : Expr → Ty → Pass σ Expr Expr
  | .lit value span slot, ty => do
    let node := Expr.lit value span slot
    if ty.isFullyKnown then node.writeSlot ty else stop node (.couldNotInfer ty span)
  | .var name handle span slot, ty => do
    let node := Expr.var name handle span slot
    if ty.isFullyKnown then node.writeSlot ty else stop node (.couldNotInfer ty span)
  | .call name args span slot, ty => do
    let node := Expr.call name args span slot
    if ty.isFullyKnown then
      let tree ← Pass.scopes
      let found ← ofExcept node (synthAll tree scope args)
      let sig ← ofExcept node (tree.overloadFor scope name found ty span)
      Pass.note (.picked name sig.fnTy)
      let args ← within (.call name · span slot) (commitAll scope args sig.params found)
      (Expr.call name args span slot).writeSlot ty
    else
      stop node (.couldNotInfer ty span)
/-- Commits each argument to what its parameter and its own type agree on. -/
def commitAll (scope : ScopeId) :
    List Expr → (params found : List Ty) → Pass σ (List Expr) (List Expr)
  | arg :: args, param :: params, own :: found =>
    match param.unify own with
    | none => stop (arg :: args) (.mismatch param own .builtin)
    | some ty => do
      let arg ← within (· :: args) (arg.commit scope ty)
      let args ← within (arg :: ·) (commitAll scope args params found)
      return arg :: args
  | args, _, _ => return args
end

end ScriptLang
