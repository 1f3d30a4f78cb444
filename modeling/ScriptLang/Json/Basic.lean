/-!
# JSON values

Numbers keep how they were written as far as it matters: an integer has neither a fraction nor a
power of ten, and everything else is a decimal, `-0` included. An object is a list of fields; a
reader keeps the last of several fields of one name.
-/

namespace ScriptLang

inductive Json where
  | null
  | bool (value : Bool)
  | int (value : Int)
  /-- `digits * 10 ^ exponent`, with a sign of its own so that zero can have one. -/
  | decimal (negative : Bool) (digits : Nat) (exponent : Int)
  | str (value : String)
  | arr (items : List Json)
  | obj (fields : List (String × Json))
  deriving Repr, Inhabited

namespace Json

mutual
/-- How deeply arrays and objects nest. -/
def depth : Json → Nat
  | .arr items => depthAll items + 1
  | .obj fields => depthFields fields + 1
  | _ => 0
def depthAll : List Json → Nat
  | [] => 0
  | item :: items => max (depth item) (depthAll items)
def depthFields : List (String × Json) → Nat
  | [] => 0
  | (_, value) :: fields => max (depth value) (depthFields fields)
end

/-- Drops a field that a later one of the same name replaces. -/
def lastWins (fields : List (String × Json)) : List (String × Json) :=
  fields.foldr (fun field kept => if kept.any (·.1 = field.1) then kept else field :: kept) []

def field? (name : String) : Json → Option Json
  | .obj fields => fields.lookup name
  | _ => none

/-- Any value of a type that may be absent: absent is `null`. -/
def ofOption (write : α → Json) : Option α → Json
  | none => .null
  | some a => write a

end Json

end ScriptLang
