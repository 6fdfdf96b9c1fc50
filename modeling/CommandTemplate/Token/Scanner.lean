import CommandTemplate.Dialect
import CommandTemplate.Text.Identifier
import CommandTemplate.Text.Whitespace
import CommandTemplate.Token

namespace CommandTemplate

/-- The escape character. It is ordinary unless the next character is special where it stands. -/
def escapeChar : Char := '\\'

/-- Characters with a meaning of their own in literal text. -/
def textSpecial : List Char := ['!', '?', '<', '>']

/-- Characters with a meaning of their own in expressions. -/
def expressionSpecial : List Char := ['!', '?', '<', '>', '(', ')', ',']

/-- Characters that can end the literal default of a substitution. -/
def defaultSpecial : List Char := ['?', '>', ')']

/-- The two ways to read characters outside substitutions. -/
inductive Context
  | text
  | expression
deriving DecidableEq

/-- The characters that must be escaped to stand for themselves. -/
def Context.special : Context → List Char
  | .text => textSpecial
  | .expression => expressionSpecial

/-- How a dialect reads what stands outside all brackets. -/
def Dialect.root : Dialect → Context
  | .standard => .text
  | .inlineExecution => .expression
  | .singleFunction => .expression

/-- What the scanner is inside of, apart from the root. -/
inductive Mode
  | angle
  | paren
  /-- Between the markers of a substitution. -/
  | body (marker : Marker)
  /-- Directly after the colon of an optional substitution. -/
  | defaultStart
  /-- In a literal default. -/
  | defaultText
  /-- After a default in parentheses, where the closing marker is due. -/
  | afterDefault
deriving DecidableEq

/-- One character of a pending text, read as it is or through an escape. -/
inductive Piece
  | plain (c : Char)
  | escaped (c : Char)
deriving DecidableEq

namespace Piece

def char : Piece → Char
  | .plain c => c
  | .escaped c => c

/-- How many characters of the text a piece was read from. -/
def width : Piece → Nat
  | .plain _ => 1
  | .escaped _ => 2

/-- Pieces that may belong to a name. -/
def inName : Piece → Bool
  | .plain c => isIdentContinue c
  | .escaped _ => false

/-- Pieces that may start a name. -/
def startsName : Piece → Bool
  | .plain c => isIdentStart c
  | .escaped _ => false

end Piece

/-- What pieces say. -/
def piecesText (pieces : List Piece) : String :=
  String.ofList (pieces.map Piece.char)

/-- How many characters of the text pieces were read from. -/
def piecesWidth : List Piece → Nat
  | [] => 0
  | p :: pieces => p.width + piecesWidth pieces

/-- The longest name at the end of `pieces`. -/
def trailingName (pieces : List Piece) : List Piece :=
  (pieces.reverse.takeWhile Piece.inName).reverse.dropWhile (fun p => !p.startsName)

/-- The unfinished token. Its content is kept with the newest character first. -/
inductive Pending
  | nothing
  | run (start : Nat) (pieces : List Piece)
  | number (start : Nat) (digits : List Char)
  | word (start : Nat) (letters : List Char)
deriving DecidableEq

/-- The state of a scan between two characters. `modes` has the innermost first, and `started`
says whether a token has been finished. -/
structure Scanner where
  dialect : Dialect
  offset : Nat
  modes : List Mode
  pending : Pending
  started : Bool
deriving DecidableEq

/-- Numbers of this size and more are no argument numbers. -/
def integerLimit : Nat := 4294967296

/-- A run of digits is an integer unless it is too large. -/
def numberValue (digits : List Char) : TokenValue :=
  if decimalValue digits < integerLimit then .integer (decimalValue digits)
  else .text (String.ofList digits)

namespace Scanner

def initial (dialect : Dialect) : Scanner :=
  ⟨dialect, 0, [], .nothing, false⟩

/-- A lone leading word is a function name in the dialect for single functions. -/
def namesFunction (s : Scanner) (pieces : List Piece) : Bool :=
  s.dialect == .singleFunction && !s.started && isIdentifier (pieces.map Piece.char)

/-- The token of a finished text. -/
def textToken (s : Scanner) (start : Nat) (pieces : List Piece) : Token :=
  ⟨if s.namesFunction pieces then .identifier (piecesText pieces) else .text (piecesText pieces),
    start, start + piecesWidth pieces⟩

/-- The tokens of a text that ends in front of an open parenthesis: the name at its end is a
token of its own. -/
def callTokens (start : Nat) (pieces : List Piece) : List Token :=
  let name := trailingName pieces
  let front := pieces.take (pieces.length - name.length)
  let middle := start + piecesWidth front
  (if front.isEmpty then [] else [⟨.text (piecesText front), start, middle⟩]) ++
    (if name.isEmpty then [] else
      [⟨.identifier (piecesText name), middle, middle + piecesWidth name⟩])

/-- The tokens of the unfinished token when it ends here. -/
def flush (s : Scanner) : List Token :=
  match s.pending with
  | .nothing => []
  | .run start pieces => [s.textToken start pieces.reverse]
  | .number start digits => [⟨numberValue digits.reverse, start, start + digits.length⟩]
  | .word start letters =>
    [⟨.identifier (String.ofList letters.reverse), start, start + letters.length⟩]

/-- The tokens of the unfinished token when an open parenthesis follows. -/
def flushBeforeParen (s : Scanner) : List Token :=
  match s.pending with
  | .run start pieces => callTokens start pieces.reverse
  | _ => s.flush

/-- The punctuation token of the current character. -/
def punctToken (s : Scanner) (p : Punct) : Token :=
  ⟨.punct p, s.offset, s.offset + 1⟩

/-- Goes on to the next character with nothing pending. -/
def next (s : Scanner) (modes : List Mode) : Scanner :=
  { s with offset := s.offset + 1, modes := modes, pending := .nothing, started := true }

/-- Finishes the unfinished token and emits the current character as punctuation. -/
def emit (s : Scanner) (p : Punct) (modes : List Mode) : List Token × Scanner :=
  (s.flush ++ [s.punctToken p], s.next modes)

/-- The modes left when `mode` ends along with everything inside it. -/
def leave (mode : Mode) (modes : List Mode) : List Mode :=
  (modes.dropWhile (fun m => m != mode)).drop 1

/-- Closes the nearest enclosing `mode`. Without one the punctuation is stray. -/
def close (s : Scanner) (p : Punct) (mode : Mode) : List Token × Scanner :=
  s.emit p (if mode ∈ s.modes then leave mode s.modes else s.modes)

/-- Adds a piece to the pending text. -/
def extend (s : Scanner) (piece : Piece) : List Token × Scanner :=
  let pending := match s.pending with
    | .run start pieces => Pending.run start (piece :: pieces)
    | _ => Pending.run s.offset [piece]
  ([], { s with offset := s.offset + 1, pending := pending })

/-- Reads the escape character before the current character as an escape. -/
def escape (s : Scanner) (c : Char) : List Token × Scanner :=
  let pending := match s.pending with
    | .run start (_ :: pieces) => Pending.run start (.escaped c :: pieces)
    | _ => s.pending
  ([], { s with offset := s.offset + 1, pending := pending })

/-- Whether the previous character is an escape character that still stands for itself. -/
def afterEscape (s : Scanner) : Bool :=
  match s.pending with
  | .run _ (.plain c :: _) => c == escapeChar
  | _ => false

/-- Whether the pending text is an escape character and nothing else. -/
def onlyEscape (s : Scanner) : Bool :=
  match s.pending with
  | .run _ [.plain c] => c == escapeChar
  | _ => false

/-- One character of literal text. -/
def stepText (s : Scanner) (c : Char) : List Token × Scanner :=
  if c ∈ textSpecial && s.afterEscape then s.escape c
  else match c with
    | '<' => s.emit .openAngle (.angle :: s.modes)
    | '>' => s.emit .closeAngle s.modes
    | '!' => s.emit .exclamation (.body .imperative :: s.modes)
    | '?' => s.emit .question (.body .optional :: s.modes)
    | _ => s.extend (.plain c)

/-- One character of an expression. -/
def stepExpression (s : Scanner) (c : Char) : List Token × Scanner :=
  if c ∈ expressionSpecial && s.afterEscape then s.escape c
  else match c with
    | '<' => s.emit .openAngle (.angle :: s.modes)
    | '>' => s.close .closeAngle .angle
    | '(' => (s.flushBeforeParen ++ [s.punctToken .openParen], s.next (.paren :: s.modes))
    | ')' => s.close .closeParen .paren
    | ',' => s.emit .comma s.modes
    | '!' => s.emit .exclamation (.body .imperative :: s.modes)
    | '?' => s.emit .question (.body .optional :: s.modes)
    | _ => s.extend (.plain c)

/-- A character of a substitution body that does not go on with the unfinished number or word.
A closing bracket ends the body early if the body stands inside such brackets. -/
def stepBodyFresh (s : Scanner) (marker : Marker) (below : List Mode) (c : Char) :
    List Token × Scanner :=
  if c = marker.punct.char then s.emit marker.punct below
  else if c = '-' then s.emit .hyphen s.modes
  else if c = ':' ∧ marker = .optional then s.emit .colon (.defaultStart :: below)
  else if c = '>' ∧ .angle ∈ s.modes then s.close .closeAngle .angle
  else if c = ')' ∧ .paren ∈ s.modes then s.close .closeParen .paren
  else if isBlank c then (s.flush, s.next s.modes)
  else if c.isDigit then (s.flush, { s.next s.modes with pending := .number s.offset [c] })
  else if isIdentStart c then (s.flush, { s.next s.modes with pending := .word s.offset [c] })
  else (s.flush ++ [⟨.text (String.singleton c), s.offset, s.offset + 1⟩], s.next s.modes)

/-- One character between the markers of a substitution. -/
def stepBody (s : Scanner) (marker : Marker) (below : List Mode) (c : Char) :
    List Token × Scanner :=
  match s.pending with
  | .number start digits =>
    if c.isDigit then
      ([], { s with offset := s.offset + 1, pending := .number start (c :: digits) })
    else s.stepBodyFresh marker below c
  | .word start letters =>
    if isIdentContinue c then
      ([], { s with offset := s.offset + 1, pending := .word start (c :: letters) })
    else s.stepBodyFresh marker below c
  | _ => s.stepBodyFresh marker below c

/-- One character of a literal default, or of what follows a default in parentheses. -/
def stepDefault (s : Scanner) (below : List Mode) (c : Char) : List Token × Scanner :=
  if c ∈ defaultSpecial && s.afterEscape then s.escape c
  else if c = '?' then s.emit .question below
  else if c = '>' ∧ .angle ∈ s.modes then s.close .closeAngle .angle
  else if c = ')' ∧ .paren ∈ s.modes then s.close .closeParen .paren
  else s.extend (.plain c)

/-- One character of a literal default. An escape directly after the colon keeps an open
parenthesis literal. -/
def stepDefaultText (s : Scanner) (below : List Mode) (c : Char) : List Token × Scanner :=
  if c = '(' ∧ s.onlyEscape then s.escape c else s.stepDefault below c

/-- The first character after the colon of an optional substitution. -/
def stepDefaultStart (s : Scanner) (below : List Mode) (c : Char) : List Token × Scanner :=
  if c = '(' then s.emit .openParen (.paren :: .afterDefault :: below)
  else { s with modes := .defaultText :: below }.stepDefault below c

/-- Reads one character: the tokens that it finishes, and the state after it. -/
def step (s : Scanner) (c : Char) : List Token × Scanner :=
  match s.modes with
  | [] =>
    match s.dialect.root with
    | .text => s.stepText c
    | .expression => s.stepExpression c
  | .angle :: _ => s.stepExpression c
  | .paren :: _ => s.stepExpression c
  | .body marker :: below => s.stepBody marker below c
  | .defaultStart :: below => s.stepDefaultStart below c
  | .defaultText :: below => s.stepDefaultText below c
  | .afterDefault :: below => s.stepDefault below c

/-- The tokens that a text finishes, and the state after it. -/
def advance (s : Scanner) : List Char → List Token × Scanner
  | [] => ([], s)
  | c :: cs =>
    let now := s.step c
    let later := advance now.2 cs
    (now.1 ++ later.1, later.2)

end Scanner

/-- The tokens of a text. -/
def scan (dialect : Dialect) (text : String) : List Token :=
  let read := (Scanner.initial dialect).advance text.toList
  read.1 ++ read.2.flush

/-- Tokens, and whether they hold literal text only. -/
structure Scanned where
  tokens : List Token
  justText : Bool
deriving DecidableEq

/-- What comes of scanning a text. -/
def scanned (dialect : Dialect) (text : String) : Scanned :=
  let tokens := scan dialect text
  ⟨tokens, isJustText tokens⟩

end CommandTemplate
