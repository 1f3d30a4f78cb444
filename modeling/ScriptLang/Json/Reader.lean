import ScriptLang.Json.Basic

/-!
# Reading JSON text

Every reader takes a list of characters and gives what it read with the characters left over. Each
step of the value reader takes at least one character, so the length of the text is enough fuel.
-/

namespace ScriptLang.Json

def isBlank (c : Char) : Bool :=
  c = ' ' || c = '\t' || c = '\n' || c = '\r'

def skipBlank (cs : List Char) : List Char :=
  cs.dropWhile isBlank

/-! ## Strings -/

def hexDigit? (c : Char) : Option Nat :=
  if '0' ≤ c ∧ c ≤ '9' then some (c.toNat - 48)
  else if 'A' ≤ c ∧ c ≤ 'F' then some (c.toNat - 55)
  else if 'a' ≤ c ∧ c ≤ 'f' then some (c.toNat - 87)
  else none

/-- The code unit that four hexadecimal digits name. -/
def codeUnit? (a b c d : Char) : Option Nat := do
  return 4096 * (← hexDigit? a) + 256 * (← hexDigit? b) + 16 * (← hexDigit? c) + (← hexDigit? d)

/-- The character that a letter behind a backslash names. -/
def escaped? (c : Char) : Option Char :=
  if c = '"' ∨ c = '\\' ∨ c = '/' then some c
  else if c = 'b' then some '\x08'
  else if c = 't' then some '\t'
  else if c = 'n' then some '\n'
  else if c = 'f' then some '\x0c'
  else if c = 'r' then some '\r'
  else none

/-- Reads up to the closing quote. Two code units of a surrogate pair are one character. -/
def readChars : List Char → Option (List Char × List Char)
  | [] => none
  | c :: rest =>
    if c = '"' then some ([], rest)
    else if c = '\\' then
      match rest with
      | 'u' :: a :: b :: c :: d :: rest => do
        let unit ← codeUnit? a b c d
        if 0xD800 ≤ unit ∧ unit < 0xDC00 then
          match rest with
          | '\\' :: 'u' :: e :: f :: g :: h :: rest => do
            let low ← codeUnit? e f g h
            if 0xDC00 ≤ low ∧ low < 0xE000 then
              let (chars, rest) ← readChars rest
              return (Char.ofNat (0x10000 + (unit - 0xD800) * 1024 + (low - 0xDC00)) :: chars, rest)
            else none
          | _ => none
        else if 0xDC00 ≤ unit ∧ unit < 0xE000 then none
        else
          let (chars, rest) ← readChars rest
          return (Char.ofNat unit :: chars, rest)
      | e :: rest => do
        let char ← escaped? e
        let (chars, rest) ← readChars rest
        return (char :: chars, rest)
      | [] => none
    else if c.toNat < 0x20 then none
    else do
      let (chars, rest) ← readChars rest
      return (c :: chars, rest)

theorem readChars_self {c : Char} (rest : List Char) (hquote : c ≠ '"') (hslash : c ≠ '\\')
    (hlow : ¬ c.toNat < 0x20) :
    readChars (c :: rest) = (readChars rest).map fun r => (c :: r.1, r.2) := by
  rw [readChars.eq_def]
  cases hrest : readChars rest <;> simp [hquote, hslash, hlow, hrest]

/-! ## Numbers -/

/-- The digits at the front of a text. -/
def digits (cs : List Char) : List Char × List Char :=
  (cs.takeWhile Char.isDigit, cs.dropWhile Char.isDigit)

def digitsValue (ds : List Char) : Nat :=
  ds.foldl (fun n d => 10 * n + (d.toNat - 48)) 0

/-- The whole part of a number: one zero, or digits that do not start with zero. -/
def wholePart (cs : List Char) : Option (List Char × List Char) :=
  match digits cs with
  | ([], _) => none
  | (['0'], rest) => some (['0'], rest)
  | ('0' :: _, _) => none
  | (ds, rest) => some (ds, rest)

/-- Digits behind a point, if there is a point. -/
def fractionPart : List Char → Option (Option (List Char) × List Char)
  | '.' :: rest =>
    match digits rest with
    | ([], _) => none
    | (ds, rest) => some (some ds, rest)
  | cs => some (none, cs)

/-- A power of ten, if there is one. -/
def exponentPart (cs : List Char) : Option (Option Int × List Char) :=
  let power (sign : Int) (cs : List Char) : Option (Option Int × List Char) :=
    match digits cs with
    | ([], _) => none
    | (ds, rest) => some (some (sign * digitsValue ds), rest)
  match cs with
  | c :: rest =>
    if c = 'e' ∨ c = 'E' then
      match rest with
      | '+' :: rest => power 1 rest
      | '-' :: rest => power (-1) rest
      | rest => power 1 rest
    else some (none, cs)
  | [] => some (none, [])

/-- The number with these parts. Without a fraction and a power of ten it is an integer, but zero
with a sign is not. -/
def number (negative : Bool) (whole : List Char) (fraction : Option (List Char))
    (power : Option Int) : Json :=
  match fraction, power with
  | none, none =>
    let n := digitsValue whole
    if negative then
      if n = 0 then .decimal true 0 0 else .int (-(n : Int))
    else .int n
  | _, _ =>
    let frac := fraction.getD []
    .decimal negative (digitsValue (whole ++ frac)) (power.getD 0 - (frac.length : Int))

def readNumber (cs : List Char) : Option (Json × List Char) := do
  let (negative, cs) := match cs with
    | '-' :: rest => (true, rest)
    | _ => (false, cs)
  let (whole, cs) ← wholePart cs
  let (fraction, cs) ← fractionPart cs
  let (power, cs) ← exponentPart cs
  return (number negative whole fraction power, cs)

/-! ## Values -/

/-- Takes a word off the front of a text. -/
def dropWord? : (word : List Char) → List Char → Option (List Char)
  | [], cs => some cs
  | w :: ws, c :: cs => if w = c then dropWord? ws cs else none
  | _ :: _, [] => none

mutual
def readValue : (fuel : Nat) → List Char → Option (Json × List Char)
  | 0, _ => none
  | fuel + 1, cs =>
    match skipBlank cs with
    | [] => none
    | c :: rest =>
      if c = '"' then do
        let (chars, rest) ← readChars rest
        return (.str (String.ofList chars), rest)
      else if c = '[' then
        match skipBlank rest with
        | ']' :: rest => some (.arr [], rest)
        | rest => do
          let (items, rest) ← readItems fuel rest
          return (.arr items, rest)
      else if c = '\x7b' then
        match skipBlank rest with
        | '\x7d' :: rest => some (.obj [], rest)
        | rest => do
          let (fields, rest) ← readFields fuel rest
          return (.obj (lastWins fields), rest)
      else if c = 'n' then do
        return (.null, ← dropWord? "ull".toList rest)
      else if c = 't' then do
        return (.bool true, ← dropWord? "rue".toList rest)
      else if c = 'f' then do
        return (.bool false, ← dropWord? "alse".toList rest)
      else readNumber (c :: rest)
/-- Reads the items of an array up to and with the closing bracket. -/
def readItems : (fuel : Nat) → List Char → Option (List Json × List Char)
  | 0, _ => none
  | fuel + 1, cs => do
    let (item, rest) ← readValue fuel cs
    match skipBlank rest with
    | ']' :: rest => return ([item], rest)
    | ',' :: rest =>
      let (items, rest) ← readItems fuel rest
      return (item :: items, rest)
    | _ => none
/-- Reads the fields of an object up to and with the closing brace. -/
def readFields : (fuel : Nat) → List Char → Option (List (String × Json) × List Char)
  | 0, _ => none
  | fuel + 1, cs =>
    match skipBlank cs with
    | '"' :: rest => do
      let (name, rest) ← readChars rest
      match skipBlank rest with
      | ':' :: rest =>
        let (value, rest) ← readValue fuel rest
        let field := (String.ofList name, value)
        match skipBlank rest with
        | '\x7d' :: rest => return ([field], rest)
        | ',' :: rest =>
          let (fields, rest) ← readFields fuel rest
          return (field :: fields, rest)
        | _ => none
      | _ => none
    | _ => none
end

/-- Reads a text that is one JSON value, with nothing but blanks around it. -/
def read? (text : String) : Option Json := do
  let cs := text.toList
  let (value, rest) ← readValue (cs.length + 1) cs
  if (skipBlank rest).isEmpty then some value else none

end ScriptLang.Json
