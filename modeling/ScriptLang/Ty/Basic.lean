/-!
# Types

A type is basic and known by its name, a function type, a set of candidates of which one has still
to be picked, or not known yet. There are no type variables.

Types carry a structural total order. It is there so that a set of candidates has one
representation, a strictly increasing list; it says nothing about subtyping.
-/

namespace ScriptLang

inductive Ty where
  | basic (name : String)
  | fn (params : List Ty) (ret : Ty)
  /-- One of several candidates; the list is increasing and without repetition. -/
  | variant (alts : List Ty)
  | unknown
  deriving Repr

instance : Inhabited Ty := ⟨.unknown⟩

namespace Ty

def int : Ty := .basic "Int"
def float : Ty := .basic "Float"
def bool : Ty := .basic "Bool"
/-- The type of what a procedure returns. -/
def void : Ty := .basic "Void"

/-! ## Order and equality -/

mutual
/-- Basic types come first, by name; then function types, by parameters and then by return type;
then candidate sets, as lists; the unknown type is the last. -/
def cmp : Ty → Ty → Ordering
  | .basic m, .basic n => compare m n
  | .basic _, _ => .lt
  | .fn _ _, .basic _ => .gt
  | .fn ps r, .fn qs s => (cmpAll ps qs).then (cmp r s)
  | .fn _ _, _ => .lt
  | .variant as, .variant bs => cmpAll as bs
  | .variant _, .unknown => .lt
  | .variant _, _ => .gt
  | .unknown, .unknown => .eq
  | .unknown, _ => .gt
/-- Lists are compared member by member; a proper beginning is smaller. -/
def cmpAll : List Ty → List Ty → Ordering
  | [], [] => .eq
  | [], _ :: _ => .lt
  | _ :: _, [] => .gt
  | a :: as, b :: bs => (cmp a b).then (cmpAll as bs)
end

mutual
theorem cmp_eq_iff : ∀ a b : Ty, cmp a b = .eq ↔ a = b
  | .basic m, b => by
    cases b <;> simp [cmp]
  | .fn ps r, b => by
    cases b with
    | fn qs s => simp [cmp, Ordering.then_eq_eq, cmpAll_eq_iff ps qs, cmp_eq_iff r s]
    | _ => simp [cmp]
  | .variant as, b => by
    cases b with
    | variant bs => simp [cmp, cmpAll_eq_iff as bs]
    | _ => simp [cmp]
  | .unknown, b => by
    cases b <;> simp [cmp]
theorem cmpAll_eq_iff : ∀ as bs : List Ty, cmpAll as bs = .eq ↔ as = bs
  | [], bs => by
    cases bs <;> simp [cmpAll]
  | a :: as, bs => by
    cases bs with
    | nil => simp [cmpAll]
    | cons b bs => simp [cmpAll, Ordering.then_eq_eq, cmp_eq_iff a b, cmpAll_eq_iff as bs]
end

instance : DecidableEq Ty := fun a b => decidable_of_iff (cmp a b = .eq) (cmp_eq_iff a b)

/-! ## Candidate sets -/

/-- Adds a member to an increasing list. -/
def insertSorted (t : Ty) : List Ty → List Ty
  | [] => [t]
  | u :: us =>
    match cmp t u with
    | .lt => t :: u :: us
    | .eq => u :: us
    | .gt => u :: insertSorted t us

/-- The members of a list in increasing order, each once. -/
def sortDistinct (ts : List Ty) : List Ty :=
  ts.foldr insertSorted []

/-- The candidates a type stands for: the members of a set, or the type itself. -/
def alternatives : Ty → List Ty
  | .variant alts => alts
  | t => [t]

/-- The type that leaves open which of `ts` it is. No candidate gives none, one gives itself, and
sets among the candidates are opened, one level deep. -/
def oneOf? (ts : List Ty) : Option Ty :=
  match sortDistinct (ts.flatMap alternatives) with
  | [] => none
  | [t] => some t
  | alts => some (.variant alts)

/-! ## Predicates -/

def isUnknown : Ty → Bool
  | .unknown => true
  | _ => false

def isVariant : Ty → Bool
  | .variant _ => true
  | _ => false

def isVoid (t : Ty) : Bool :=
  t = void

mutual
/-- Holds when nothing in the type is unknown or a set of candidates. -/
def isFullyKnown : Ty → Bool
  | .basic _ => true
  | .fn params ret => allFullyKnown params && isFullyKnown ret
  | .variant _ => false
  | .unknown => false
def allFullyKnown : List Ty → Bool
  | [] => true
  | t :: ts => isFullyKnown t && allFullyKnown ts
end

/-! ## Text -/

mutual
/-- How a type is written in messages. -/
def text : Ty → String
  | .basic name => name
  | .fn params ret => "(" ++ textAll ", " params ++ ") -> " ++ text ret
  | .variant alts => "\x7b" ++ textAll " | " alts ++ "\x7d"
  | .unknown => "?"
/-- The members of a list with `sep` between them. -/
def textAll (sep : String) : List Ty → String
  | [] => ""
  | t :: ts => text t ++ textTail sep ts
/-- The members of a list with `sep` before each. -/
def textTail (sep : String) : List Ty → String
  | [] => ""
  | t :: ts => sep ++ text t ++ textTail sep ts
end

theorem toList_text_fn (params : List Ty) (ret : Ty) :
    (text (.fn params ret)).toList =
      '(' :: ((textAll ", " params).toList ++ (") -> ".toList ++ ret.text.toList)) := by
  rw [text, String.toList_append, String.toList_append, String.toList_append, List.append_assoc,
    List.append_assoc]
  rfl

theorem toList_text_variant (alts : List Ty) :
    (text (.variant alts)).toList = '\x7b' :: ((textAll " | " alts).toList ++ ['\x7d']) := by
  rw [text, String.toList_append, String.toList_append, List.append_assoc]
  rfl

theorem toList_textAll_cons (sep : String) (t : Ty) (ts : List Ty) :
    (textAll sep (t :: ts)).toList = t.text.toList ++ (textTail sep ts).toList := by
  rw [textAll, String.toList_append]

theorem toList_textTail_cons (sep : String) (t : Ty) (ts : List Ty) :
    (textTail sep (t :: ts)).toList =
      sep.toList ++ (t.text.toList ++ (textTail sep ts).toList) := by
  rw [textTail, String.toList_append, String.toList_append, List.append_assoc]

end Ty

end ScriptLang
