import CommandTemplate.Json
import CommandTemplate.Text.Decimal

namespace CommandTemplate

namespace Json

/-- How a character is written inside quotes. Only quotes, backslashes and control characters need
an escape. -/
def quoteChar (c : Char) : List Char :=
  if c == '"' then ['\\', '"']
  else if c == '\\' then ['\\', '\\']
  else if c == '\n' then ['\\', 'n']
  else if c == '\r' then ['\\', 'r']
  else if c == '\t' then ['\\', 't']
  else if c == '\x08' then ['\\', 'b']
  else if c == '\x0c' then ['\\', 'f']
  else if c.toNat < 0x20 then
    ['\\', 'u', '0', '0', hexDigit (c.toNat / 16), hexDigit (c.toNat % 16)]
  else [c]

/-- Writes a string in quotes. -/
def quote (s : String) : String :=
  "\"" ++ String.ofList (s.toList.flatMap quoteChar) ++ "\""

/-- Starts a line, two blanks in for each level. -/
def newLine (level : Nat) : String :=
  "\n" ++ String.ofList (List.replicate (2 * level) ' ')

mutual

/-- Writes a document with one item or field a line. -/
def layout (level : Nat) : Json → String
  | .null => "null"
  | .bool true => "true"
  | .bool false => "false"
  | .num n => intText n
  | .str s => quote s
  | .arr [] => "[]"
  | .arr (item :: items) =>
    "[" ++ newLine (level + 1) ++ layout (level + 1) item ++ layoutItems (level + 1) items ++
      newLine level ++ "]"
  | .obj [] => "\x7b\x7d"
  | .obj ((key, v) :: fields) =>
    "\x7b" ++ newLine (level + 1) ++ quote key ++ ": " ++ layout (level + 1) v ++
      layoutFields (level + 1) fields ++ newLine level ++ "\x7d"

/-- Writes the items after the first. -/
def layoutItems (level : Nat) : List Json → String
  | [] => ""
  | item :: items => "," ++ newLine level ++ layout level item ++ layoutItems level items

/-- Writes the fields after the first. -/
def layoutFields (level : Nat) : List (String × Json) → String
  | [] => ""
  | (key, v) :: fields =>
    "," ++ newLine level ++ quote key ++ ": " ++ layout level v ++ layoutFields level fields

end

/-- Writes a document over several lines. -/
def pretty (j : Json) : String :=
  layout 0 j

end Json

end CommandTemplate
