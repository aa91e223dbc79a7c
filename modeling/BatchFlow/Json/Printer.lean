import BatchFlow.Json.Basic

namespace BatchFlow.Json

/-!
# Printing

* `quote s` — a text in quotes, with the escapes of JSON.
* `compact j` — a value without blanks.
* `pretty j` — a value with one item or member a line, indented by two blanks a level.
-/

/-- A hexadecimal digit in lower case. -/
def hexDigit (n : Nat) : Char :=
  if n < 10 then Char.ofNat ('0'.toNat + n) else Char.ofNat ('a'.toNat + (n - 10))

/-- A character inside quotes. Quotes, backslashes and control characters are escaped. -/
def escape (c : Char) : List Char :=
  match c with
  | '"' => ['\\', '"']
  | '\\' => ['\\', '\\']
  | '\x08' => ['\\', 'b']
  | '\x0c' => ['\\', 'f']
  | '\n' => ['\\', 'n']
  | '\r' => ['\\', 'r']
  | '\t' => ['\\', 't']
  | c =>
    if c.toNat < 0x20 then ['\\', 'u', '0', '0', hexDigit (c.toNat / 16), hexDigit (c.toNat % 16)]
    else [c]

/-- A text in quotes. -/
def quote (s : String) : String := String.ofList ('"' :: s.toList.flatMap escape ++ ['"'])

mutual

/-- The text of a value without blanks. -/
def compact : Json → String
  | .null => "null"
  | .bool b => if b then "true" else "false"
  | .number n => n.text
  | .string s => quote s
  | .array items => "[" ++ ",".intercalate (compactItems items) ++ "]"
  | .object members => "\x7b" ++ ",".intercalate (compactMembers members) ++ "\x7d"

/-- The compact texts of items. -/
def compactItems : List Json → List String
  | [] => []
  | j :: rest => compact j :: compactItems rest

/-- The compact texts of members, each behind its quoted key. -/
def compactMembers : List (String × Json) → List String
  | [] => []
  | (key, j) :: rest => (quote key ++ ":" ++ compact j) :: compactMembers rest

end

/-- The start of a line at a nesting level. -/
def indent (level : Nat) : String := "\n" ++ "".pushn ' ' (2 * level)

mutual

/-- The text of a value at a nesting level, one item or member a line. -/
def prettyAt (level : Nat) : Json → String
  | .array items =>
    if items.isEmpty then "[]"
    else "[" ++ ",".intercalate (prettyItems (level + 1) items) ++ indent level ++ "]"
  | .object members =>
    if members.isEmpty then "\x7b\x7d"
    else "\x7b" ++ ",".intercalate (prettyMembers (level + 1) members) ++ indent level ++ "\x7d"
  | .null => "null"
  | .bool b => if b then "true" else "false"
  | .number n => n.text
  | .string s => quote s

/-- The lines of items at a level of indentation. -/
def prettyItems (level : Nat) : List Json → List String
  | [] => []
  | j :: rest => (indent level ++ prettyAt level j) :: prettyItems level rest

/-- The lines of members at a level of indentation. -/
def prettyMembers (level : Nat) : List (String × Json) → List String
  | [] => []
  | (key, j) :: rest =>
    (indent level ++ quote key ++ ": " ++ prettyAt level j) :: prettyMembers level rest

end

/-- The text of a value, one item or member a line. -/
def pretty (j : Json) : String := prettyAt 0 j

end BatchFlow.Json
