import ScriptLang.Ty.Basic

/-!
# Unification

Merging two types into the most specific type that fits both. There is nothing to substitute:
the unknown type fits everything, sets of candidates are intersected by merging every pair of
candidates, and basic and function types merge structurally.

The recursion is on the first type; what the first type meets in the second is a function of the
second type alone.
-/

namespace ScriptLang

namespace Ty

mutual
/-- Merges the basic or function type `t` with any type, where `rigid` merges `t` with a basic or
function type. -/
def spread (t : Ty) (rigid : Ty → Option Ty) : Ty → Option Ty
  | .unknown => some t
  | .variant alts => oneOf? (spreadAll t rigid alts)
  | .basic name => rigid (.basic name)
  | .fn params ret => rigid (.fn params ret)
/-- The merges that succeed. -/
def spreadAll (t : Ty) (rigid : Ty → Option Ty) : List Ty → List Ty
  | [] => []
  | u :: us =>
    match spread t rigid u with
    | some v => v :: spreadAll t rigid us
    | none => spreadAll t rigid us
end

mutual
/-- The most specific type that fits both types, if there is one. -/
def unify : Ty → Ty → Option Ty
  | .unknown => fun b => some b
  | .basic name => spread (.basic name) fun
    | .basic other => if name = other then some (.basic name) else none
    | _ => none
  | .fn params ret => spread (.fn params ret) fun
    | .fn params' ret' =>
      match unifyAll params params', unify ret ret' with
      | some ps, some r => some (.fn ps r)
      | _, _ => none
    | _ => none
  | .variant alts => fun
    | .unknown => some (.variant alts)
    | b => oneOf? (crossAll alts b.alternatives)
/-- Merges two lists member by member; lists of different lengths do not merge. -/
def unifyAll : List Ty → List Ty → Option (List Ty)
  | [] => fun
    | [] => some []
    | _ :: _ => none
  | a :: as => fun
    | [] => none
    | b :: bs =>
      match unify a b, unifyAll as bs with
      | some t, some ts => some (t :: ts)
      | _, _ => none
/-- The merges that succeed between a member of the one list and a member of the other. -/
def crossAll : List Ty → List Ty → List Ty
  | [] => fun _ => []
  | a :: as => fun bs => bs.filterMap (unify a) ++ crossAll as bs
end

@[simp] theorem unify_unknown_left (b : Ty) : unify .unknown b = some b := by
  simp [unify]

@[simp] theorem unify_unknown_right (a : Ty) : unify a .unknown = some a := by
  cases a <;> simp [unify, spread]

end Ty

end ScriptLang
