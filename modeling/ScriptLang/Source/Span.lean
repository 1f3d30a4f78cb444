import ScriptLang.Fault

/-!
# Spans

Byte ranges of the source text. Every node of the tree carries one; lines and columns are looked
up only when a diagnostic needs them.
-/

namespace ScriptLang

/-- Byte offsets: `start` lies in the range, `stop` does not. Nothing orders the two. -/
structure Span where
  start : UInt32 := 0
  stop : UInt32 := 0
  deriving DecidableEq, Repr, Inhabited

/-- The span between two offsets, the smaller one first. -/
def Span.between (start stop : UInt32) : Except Fault Span :=
  if start ≤ stop then .ok { start, stop } else .error .reversedSpan

end ScriptLang
