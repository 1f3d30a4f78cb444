import ScriptLang.Source.Span

/-!
# Line index

Where each line of a source starts, and from that the line and column of a byte offset. Columns
count bytes. Offsets past the end belong to the last line.
-/

namespace ScriptLang

/-- A line and a column, both counted from one. -/
structure Position where
  line : Nat
  column : Nat
  deriving DecidableEq, Repr

/-- The offset at which each line starts, in increasing order; the first line starts at zero. -/
structure LineIndex where
  starts : List Nat
  deriving DecidableEq, Repr

namespace LineIndex

/-- The offsets just behind the newline bytes of a text that begins at offset `pos`. -/
def startsFrom (pos : Nat) : List UInt8 → List Nat
  | [] => []
  | byte :: rest =>
    if byte = 10 then (pos + 1) :: startsFrom (pos + 1) rest else startsFrom (pos + 1) rest

theorem lt_of_mem_startsFrom {start : Nat} : ∀ {bytes : List UInt8} {pos : Nat},
    start ∈ startsFrom pos bytes → pos < start ∧ start ≤ pos + bytes.length := by
  intro bytes
  induction bytes with
  | nil =>
    intro pos h
    simp [startsFrom] at h
  | cons byte rest ih =>
    intro pos h
    unfold startsFrom at h
    by_cases hb : byte = 10
    · rw [if_pos hb] at h
      rcases List.mem_cons.mp h with rfl | h
      · simp
      · have hrest := ih h
        simp only [List.length_cons]
        omega
    · rw [if_neg hb] at h
      have hrest := ih h
      simp only [List.length_cons]
      omega

def ofBytes (bytes : List UInt8) : LineIndex :=
  ⟨0 :: startsFrom 0 bytes⟩

def ofSource (source : String) : LineIndex :=
  ofBytes source.toUTF8.data.toList

def lineCount (index : LineIndex) : Nat :=
  index.starts.length

/-- The lines that start at or before an offset. -/
def startsUpTo (index : LineIndex) (offset : Nat) : List Nat :=
  index.starts.takeWhile (· ≤ offset)

/-- The offset at which a line starts; the first line has the number zero here. -/
def lineStart (index : LineIndex) (line : Nat) : Except Fault Nat :=
  match index.starts[line]? with
  | some start => .ok start
  | none => .error (.noLine line)

/-- How far an offset lies behind the start of its line. -/
def distance (start offset : Nat) : Except Fault Nat :=
  if start ≤ offset then .ok (offset - start) else .error .offsetBeforeLine

/-- A number that has to have 32 bits. -/
def inWord (n : Nat) (fault : Fault) : Except Fault Nat :=
  if n < UInt32.size then .ok n else .error fault

/-- The position of an offset. Lines and columns have 32 bits, so the last offset of all has no
column on a line that starts at zero. -/
def position (index : LineIndex) (offset : UInt32) : Except Fault Position := do
  let last := (index.startsUpTo offset.toNat).length - 1
  let line ← inWord (last + 1) .lineOverflow
  let start ← index.lineStart last
  let column ← inWord ((← distance start offset.toNat) + 1) .columnOverflow
  return ⟨line, column⟩

/-- The position at which a span starts. -/
def spanPosition (index : LineIndex) (span : Span) : Except Fault Position :=
  index.position span.start

end LineIndex

end ScriptLang
