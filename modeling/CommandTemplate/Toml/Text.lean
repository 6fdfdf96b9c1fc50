import CommandTemplate.Text.Decimal
import CommandTemplate.Toml.Reader

namespace CommandTemplate

namespace Toml

open Reader

/-- Blanks within a line. -/
def isSpace (c : Char) : Bool :=
  c == ' ' || c == '\t'

/-- Characters that may stand in comments and in most strings. -/
def isVisible (c : Char) : Bool :=
  c == '\t' || (0x20 ≤ c.toNat && c.toNat ≠ 0x7F)

/-- Characters of a string in double quotes that stand for themselves. -/
def isBasicChar (c : Char) : Bool :=
  isVisible c && c != '"' && c != '\\'

/-- Characters of a string in single quotes. -/
def isLiteralChar (c : Char) : Bool :=
  isVisible c && c.toNat ≠ 0x27

def space : Reader Unit := do
  let _ ← satisfy isSpace

def spaces : Reader Unit := do
  let _ ← run isSpace

/-- A line feed, with or without a carriage return before it. -/
def newline : Reader Unit :=
  exactly "\n" <|> exactly "\r\n"

def comment : Reader Unit := do
  exactly "#"
  let _ ← run isVisible

/-- What may follow the content of a line: blanks and a comment, then the end of the line. -/
def lineEnd : Reader Unit := do
  spaces
  let _ ← Reader.optional comment
  newline <|> atEnd

/-- Blanks, comments and line breaks. -/
def gap : Reader Unit := do
  let _ ← many (space <|> newline <|> (do comment; newline))

def isHexDigit (c : Char) : Bool :=
  c.isDigit || ('a' ≤ c && c ≤ 'f') || ('A' ≤ c && c ≤ 'F')

/-- The character with the given number, unless the number is a surrogate or too large. -/
def charOf? (n : Nat) : Option Char :=
  if n.isValidChar then some (Char.ofNat n) else none

/-- A character given by `digits` hexadecimal digits. -/
def numbered (digits : Nat) : Reader Char := do
  let ds ← Reader.count isHexDigit digits
  match charOf? (ds.foldl (fun n c => n * 16 + hexValue c) 0) with
  | some c => pure c
  | none => failure

/-- An escape sequence. -/
def escaped : Reader Char := do
  exactly "\\"
  let c ← satisfy (fun _ => true)
  match c with
  | 'b' => pure '\x08'
  | 'f' => pure '\x0c'
  | 'n' => pure '\n'
  | 'r' => pure '\r'
  | 't' => pure '\t'
  | '"' => pure '"'
  | '\\' => pure '\\'
  | 'u' => numbered 4
  | 'U' => numbered 8
  | _ => failure

/-- A string in double quotes on one line. -/
def basicString : Reader String := do
  exactly "\""
  let cs ← many (satisfy isBasicChar <|> escaped)
  exactly "\""
  pure (String.ofList cs)

/-- A string in single quotes on one line. -/
def literalString : Reader String := do
  exactly "'"
  let cs ← run isLiteralChar
  exactly "'"
  pure (String.ofList cs)

/-- One or two quotes inside a string over several lines, which three quotes would end. -/
def innerQuotes (quote : Char) : Reader (List Char) := do
  let qs ← run (· == quote)
  let next ← peek
  if (qs.length == 1 || qs.length == 2) && next.isSome then pure qs else failure

/-- The end of a string over several lines: three quotes, after up to two that belong to it. -/
def lastQuotes (quote : String) : Reader (List Char) :=
  (do exactly (quote ++ quote ++ quote ++ quote ++ quote); pure (quote ++ quote).toList)
  <|> (do exactly (quote ++ quote ++ quote ++ quote); pure quote.toList)
  <|> (do exactly (quote ++ quote ++ quote); pure [])

/-- A backslash at the end of a line takes away the line break and all blanks after it. -/
def joinedLines : Reader (List Char) := do
  exactly "\\"
  spaces
  newline
  let _ ← many (space <|> newline)
  pure []

def lineBreak : Reader (List Char) := do
  newline
  pure ['\n']

/-- A string in double quotes over several lines. A line break directly after the quotes is left
out. -/
def basicLines : Reader String := do
  exactly "\"\"\""
  let _ ← Reader.optional newline
  let pieces ← many
    ((do
      let c ← satisfy isBasicChar
      pure [c])
    <|> joinedLines
    <|> (do
      let c ← escaped
      pure [c])
    <|> lineBreak <|> innerQuotes '"')
  let last ← lastQuotes "\""
  pure (String.ofList (pieces.flatten ++ last))

/-- A string in single quotes over several lines. -/
def literalLines : Reader String := do
  exactly "'''"
  let _ ← Reader.optional newline
  let pieces ← many
    ((do
      let c ← satisfy isLiteralChar
      pure [c])
    <|> lineBreak <|> innerQuotes (Char.ofNat 0x27))
  let last ← lastQuotes "'"
  pure (String.ofList (pieces.flatten ++ last))

def string : Reader String :=
  basicLines <|> basicString <|> literalLines <|> literalString

/-- Characters of a key without quotes. -/
def isBareChar (c : Char) : Bool :=
  c.isAlphanum || c == '_' || c == '-'

def bareKey : Reader String := do
  let c ← satisfy isBareChar
  let cs ← run isBareChar
  pure (String.ofList (c :: cs))

/-- One part of a key. -/
def keyPart : Reader String := do
  spaces
  let k ← basicString <|> literalString <|> bareKey
  spaces
  pure k

/-- Keys may not have this many parts, and containers may not be nested this deep. -/
def depthLimit : Nat := 80

/-- A key of one or more parts with points between them. -/
def key : Reader (List String) := do
  let k ← keyPart
  let ks ← many (do exactly "."; keyPart)
  if ks.length + 1 < depthLimit then pure (k :: ks) else failure

end Toml

end CommandTemplate
