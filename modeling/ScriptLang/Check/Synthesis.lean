import ScriptLang.Scope.Basic

/-!
# Types from the bottom up

The type of an expression as its parts determine it, without regard to what is expected of it. A
call whose arguments fit several overloads has a set of candidates for its type, and a call that
may reach a function with an unknown return type is unknown.
-/

namespace ScriptLang

/-- The overloads of a name, as seen from `scope`, that accept arguments of the given types. -/
def ScopeTree.candidates (tree : ScopeTree) (scope : ScopeId) (name : String) (args : List Ty) :
    Except Halt (List Signature) := do
  let overloads ← (tree.lookupOverloads scope name).mapError .fault
  return (overloads.map (·.1)).filter fun sig => (Ty.unifyAll sig.params args).isSome

/-- The type of a call, given the overloads it may reach. -/
def returnType (candidates : List Signature) : Ty :=
  let rets := candidates.map Signature.ret
  if rets.any Ty.isUnknown then .unknown else (Ty.oneOf? rets).getD .unknown

mutual
def Expr.synth (tree : ScopeTree) (scope : ScopeId) : Expr → Except Halt Ty
  | .lit value _ _ => .ok value.ty
  | .var _ handle span _ => do
    let id ← demand handle (.missing "unbound variable reference" span)
    return (← tree.declaration id span).ty
  | .call name args span _ => do
    let args ← synthAll tree scope args
    match ← tree.candidates scope name args with
    | [] => throw (.error (.undeclaredFunction name args span))
    | candidates => return returnType candidates
def synthAll (tree : ScopeTree) (scope : ScopeId) : List Expr → Except Halt (List Ty)
  | [] => .ok []
  | expr :: exprs => do
    let ty ← expr.synth tree scope
    return ty :: (← synthAll tree scope exprs)
end

end ScriptLang
