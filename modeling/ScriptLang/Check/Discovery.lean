import ScriptLang.Check.Inference

/-!
# Discovery of return types

Rounds of probes over the functions whose return type is still open. A probe that ends with a fully
known type settles the signature of its function; the rounds go on as long as one of them settles
something. Every round but the last settles a signature, so there are at most as many rounds as
functions, and one more.
-/

namespace ScriptLang

open Pass (ofExcept attempt)

variable {σ ν : Type} [Workspace σ]

/-- What the last probe of a function had to complain about. -/
abbrev LastError := Option TypeError

def resetHere : Pass σ ν Unit := do
  let tree ← Pass.scopes
  Pass.setScopes tree.resetInferred

/-- Probes one function, unless its return type is settled. Gives its last error, and whether the
probe settled the type. -/
def probe (node : ν) (scope : ScopeId) (round : Nat) (fn : FnDef) (sig : SigId)
    (last : LastError) : Pass σ ν (LastError × Bool) := do
  let tree ← Pass.scopes
  let signature ← ofExcept node ((tree.signature sig).mapError .fault)
  if signature.ret.isFullyKnown then
    return (last, false)
  else
    resetHere
    match ← attempt node (fn.inferBody .probe scope sig) with
    | .error error =>
      Pass.note (.probeFailed round fn.name error)
      return (some error, false)
    | .ok (_, ret) =>
      if ret.isFullyKnown then
        Pass.note (.settled round fn.name ret)
        let tree ← Pass.scopes
        let tree ← ofExcept node ((tree.setReturn sig ret).mapError .fault)
        Pass.setScopes tree
        return (none, true)
      else
        Pass.note (.stillOpen round fn.name ret)
        return (none, false)

/-- Probes each function that has a signature. -/
def probeRound (node : ν) (scope : ScopeId) (round : Nat) :
    List FnDef → List SigId → List LastError → Pass σ ν (List LastError × Bool)
  | fn :: fns, sig :: sigs, last :: lasts => do
    let (last, settled) ← probe node scope round fn sig last
    let (lasts, others) ← probeRound node scope round fns sigs lasts
    return (last :: lasts, settled || others)
  | _, _, lasts => return (lasts, false)

/-- Rounds until one settles nothing. -/
def probeRounds (node : ν) (scope : ScopeId) (fns : List FnDef) (sigs : List SigId) :
    (fuel : Nat) → (round : Nat) → List LastError → Pass σ ν (List LastError)
  | 0, _, lasts => return lasts
  | fuel + 1, round, lasts => do
    let (lasts, settled) ← probeRound node scope round fns sigs lasts
    if settled then probeRounds node scope fns sigs fuel (round + 1) lasts else return lasts

/-- Settles what can be settled, and gives each function's last error. -/
def discoverReturns (node : ν) (scope : ScopeId) (fns : List FnDef) (sigs : List SigId) :
    Pass σ ν (List LastError) :=
  probeRounds node scope fns sigs (fns.length + 1) 1 (fns.map fun _ => none)

end ScriptLang
