/-!
# Faults

A fault is the caller's mistake: a handle that belongs to no arena, a span that runs backwards or
cuts a character, a number that does not fit. The program being compiled is never at fault; its
errors are `TypeError`s.
-/

namespace ScriptLang

/-- What a caller did wrong. -/
inductive Fault where
  | reversedSpan
  | noLine (line : Nat)
  | offsetBeforeLine
  | lineOverflow
  | columnOverflow
  | noScope (id : Nat)
  | cyclicScopes
  | noDeclaration (id : Nat)
  | noSignature (id : Nat)
  | operandCount
  /-- A label begins or ends inside a character. -/
  | splitCharacter
  deriving DecidableEq, Repr

end ScriptLang
