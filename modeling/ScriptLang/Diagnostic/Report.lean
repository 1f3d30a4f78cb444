import ScriptLang.Diagnostic.Basic

/-!
# Reports

The head of a report for people: the line that says what is wrong, the place of the primary label,
and the help. Here columns count characters, and a newline belongs to the line it ends; one at the
very end of the source opens no further line.

Under the head come excerpts of the source with the labels drawn on them, from top to bottom: a
label that ends on an earlier line than the label before it begins a new excerpt. The help stands in
the margin of the last excerpt. A label that runs over several lines takes that margin, and then
there is no help.
-/

namespace ScriptLang

structure Report where
  headline : String
  location : String
  help : Option String
  deriving DecidableEq, Repr

namespace Report

/-! ## Places -/

/-- The place behind the first characters of a source, which take up `bytes` bytes, when the place
before them is `line` and `column`. -/
def placeAt : (line column : Nat) → (bytes : Nat) → List Char → Nat × Nat
  | line, column, _, [] => (line, column)
  | line, column, bytes, c :: rest =>
    if bytes = 0 then (line, column)
    else if c = '\n' ∧ rest ≠ [] then placeAt (line + 1) 1 (bytes - c.utf8Size) rest
    else placeAt line (column + 1) (bytes - c.utf8Size) rest

/-- The line and the column of a byte offset. Offsets past the end stand for the end. -/
def place (source : String) (offset : Nat) : Nat × Nat :=
  placeAt 1 1 offset source.toList

def locationText (source : String) (offset : Nat) : String :=
  let (line, column) := place source offset
  s!"<unknown>:{line}:{column}"

/-- Whether the first `bytes` bytes of a text are whole characters. -/
def wholeChars : (bytes : Nat) → List Char → Bool
  | 0, _ => true
  | _ + 1, [] => false
  | bytes + 1, c :: rest => c.utf8Size ≤ bytes + 1 && wholeChars (bytes + 1 - c.utf8Size) rest

/-! ## Labels on the source -/

/-- The bytes from `start` up to `stop` that a label marks. -/
structure Mark where
  start : Nat
  stop : Nat
  deriving DecidableEq, Repr

namespace Mark

/-- The part of a span that lies in a source of `size` bytes. If there is nothing in it, the next
byte is marked, unless the source ends there. -/
def ofSpan (size : Nat) (span : Span) : Mark :=
  let start := min span.start.toNat size
  let stop := max start (min span.stop.toNat size)
  { start, stop := if stop = start then min (start + 1) size else stop }

/-- Whether a mark neither begins nor ends inside a character. -/
def isWhole (source : String) (mark : Mark) : Bool :=
  wholeChars mark.start source.toList && wholeChars mark.stop source.toList

def firstLine (source : String) (mark : Mark) : Nat :=
  (place source mark.start).1

/-- The line of the last marked byte. -/
def lastLine (source : String) (mark : Mark) : Nat :=
  (place source (max mark.start (mark.stop - 1))).1

def isOnOneLine (source : String) (mark : Mark) : Bool :=
  mark.firstLine source = mark.lastLine source

end Mark

/-- The marks of the last excerpt. A mark that ends above the one before it begins an excerpt. -/
def lastExcerpt (source : String) (marks : List Mark) : List Mark :=
  marks.foldl (fun excerpt mark =>
    match excerpt.getLast? with
    | some previous =>
      if previous.lastLine source ≤ mark.lastLine source then excerpt ++ [mark] else [mark]
    | none => [mark]) []

/-! ## The head -/

def headlineText (color : Bool) (d : Diagnostic) : String :=
  let tag := "[" ++ d.code ++ "] Error:"
  (if color then "\x1b[31m" ++ tag ++ "\x1b[0m" else tag) ++ " " ++ d.message

def helpText (source : String) (marks : List Mark) (d : Diagnostic) : Option String :=
  if (lastExcerpt source marks).all (Mark.isOnOneLine source) then d.help else none

end Report

/-- The head of the report of an error. Labels can be drawn only around whole characters. -/
def TypeError.report (error : TypeError) (source : String) (color : Bool) : Except Fault Report :=
  let d := Diagnostic.ofError error
  let marks := d.labels.map (Report.Mark.ofSpan source.utf8ByteSize ·.span)
  let start := (d.primaryLabel?.map (·.span.start.toNat)).getD 0
  if marks.all (Report.Mark.isWhole source) then
    .ok
      { headline := Report.headlineText color d
        location := Report.locationText source start
        help := Report.helpText source marks d }
  else
    .error .splitCharacter

end ScriptLang
