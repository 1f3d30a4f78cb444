import ScriptLang.Json.Basic

/-!
# Compact JSON text

One line without blanks. A string escapes the quote, the backslash and the control characters
below the blank, the common ones by letter; every other character stands for itself.
-/

namespace ScriptLang.Json

/-- One hexadecimal digit, in lower case. -/
def lowerHexDigit (n : Nat) : Char :=
  if n < 10 then Char.ofNat (48 + n) else Char.ofNat (87 + n)

/-- A character as it stands inside a string. -/
def escapeChar (c : Char) : List Char :=
  if c = '"' then ['\\', '"']
  else if c = '\\' then ['\\', '\\']
  else if c = '\x08' then ['\\', 'b']
  else if c = '\t' then ['\\', 't']
  else if c = '\n' then ['\\', 'n']
  else if c = '\x0c' then ['\\', 'f']
  else if c = '\r' then ['\\', 'r']
  else if c.toNat < 0x20 then
    ['\\', 'u', '0', '0', lowerHexDigit (c.toNat / 16), lowerHexDigit (c.toNat % 16)]
  else [c]

def quote (s : String) : String :=
  String.ofList ('"' :: s.toList.flatMap escapeChar ++ ['"'])

theorem toList_quote (s : String) (rest : List Char) :
    (quote s).toList ++ rest = '"' :: (s.toList.flatMap escapeChar ++ '"' :: rest) := by
  simp [quote]

mutual
def text : Json → String
  | .null => "null"
  | .bool true => "true"
  | .bool false => "false"
  | .int n => toString n
  | .decimal negative digits exponent =>
    (if negative then "-" else "") ++ toString digits ++ "e" ++ toString exponent
  | .str s => quote s
  | .arr items => "[" ++ textItems items ++ "]"
  | .obj fields => "\x7b" ++ textFields fields ++ "\x7d"
def textItems : List Json → String
  | [] => ""
  | [item] => text item
  | item :: items => text item ++ "," ++ textItems items
def textFields : List (String × Json) → String
  | [] => ""
  | [(name, value)] => quote name ++ ":" ++ text value
  | (name, value) :: fields => quote name ++ ":" ++ text value ++ "," ++ textFields fields
end

/-! ## The characters of a text -/

theorem toList_text_arr (items : List Json) (rest : List Char) :
    (text (.arr items)).toList ++ rest = '[' :: ((textItems items).toList ++ ']' :: rest) := by
  change ("[" ++ textItems items ++ "]").toList ++ rest = _
  simp

theorem toList_text_obj (fields : List (String × Json)) (rest : List Char) :
    (text (.obj fields)).toList ++ rest =
      '\x7b' :: ((textFields fields).toList ++ '\x7d' :: rest) := by
  change ("\x7b" ++ textFields fields ++ "\x7d").toList ++ rest = _
  simp

theorem toList_textItems_cons (item : Json) {items : List Json} (h : items ≠ []) (rest : List Char) :
    (textItems (item :: items)).toList ++ rest =
      item.text.toList ++ ',' :: ((textItems items).toList ++ rest) := by
  cases items with
  | nil => exact absurd rfl h
  | cons next items => simp [textItems]

theorem toList_textFields_nil (name : String) (value : Json) (rest : List Char) :
    (textFields [(name, value)]).toList ++ rest =
      '"' :: (name.toList.flatMap escapeChar ++ '"' :: ':' :: (value.text.toList ++ rest)) := by
  change (quote name ++ ":" ++ value.text).toList ++ rest = _
  simp [quote]

theorem toList_textFields_cons (name : String) (value : Json) {fields : List (String × Json)}
    (h : fields ≠ []) (rest : List Char) :
    (textFields ((name, value) :: fields)).toList ++ rest =
      '"' :: (name.toList.flatMap escapeChar ++ '"' :: ':' ::
        (value.text.toList ++ ',' :: ((textFields fields).toList ++ rest))) := by
  cases fields with
  | nil => exact absurd rfl h
  | cons next fields => simp [textFields, quote]

end ScriptLang.Json
