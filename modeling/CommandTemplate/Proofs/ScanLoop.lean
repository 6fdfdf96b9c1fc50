import CommandTemplate.Proofs.ModeStack

namespace CommandTemplate

/-- A layer of the stack of a scan: how the text is read outside all brackets, or what has been
entered. -/
inductive Layer
  | root (context : Context)
  | inner (mode : Mode)
deriving DecidableEq

/-- A piece of the pending text with the place of its first character. -/
structure PlacedPiece where
  piece : Piece
  position : Nat
deriving DecidableEq

/-- A scan by position. `layers` has the innermost first and the root last, `run` is the pending
text, and `refused` says whether the root was to be left or replaced, which is not done. -/
structure ScanLoop where
  dialect : Dialect
  text : List Char
  index : Nat
  layers : List Layer
  run : List PlacedPiece
  tokens : List Token
  refused : Bool
deriving DecidableEq

namespace ScanLoop

def initial (dialect : Dialect) (text : String) : ScanLoop :=
  ⟨dialect, text.toList, 0, [.root dialect.root], [], [], false⟩

/-- The innermost layer. -/
def top (l : ScanLoop) : Layer :=
  l.layers.head?.getD (.root .text)

def enter (l : ScanLoop) (mode : Mode) : ScanLoop :=
  { l with layers := .inner mode :: l.layers }

/-- Leaves the innermost layer, but never the root. -/
def leave (l : ScanLoop) : ScanLoop :=
  if 1 < l.layers.length then { l with layers := l.layers.tail } else { l with refused := true }

/-- Replaces the innermost layer, but never the root. -/
def replace (l : ScanLoop) (mode : Mode) : ScanLoop :=
  if 1 < l.layers.length then { l with layers := .inner mode :: l.layers.tail }
  else { l with refused := true }

/-- Whether a mode has been entered. -/
def encloses (l : ScanLoop) (mode : Mode) : Bool :=
  l.layers.dropLast.contains (.inner mode)

/-- The layers from the nearest `mode` outwards, or the root alone. -/
def unwindTo (mode : Mode) : List Layer → List Layer
  | layer :: next :: below =>
    if layer = .inner mode then layer :: next :: below else unwindTo mode (next :: below)
  | layers => layers

/-- Where the piece with the given number begins, and behind the last piece where the run ends. -/
def positionAt (run : List PlacedPiece) (stop i : Nat) : Nat :=
  ((run[i]?).map PlacedPiece.position).getD stop

/-- The tokens of a run that ends at `stop`. Its last pieces, `named` of them, are a name. -/
def runTokens (run : List PlacedPiece) (stop named : Nat) : List Token :=
  let pieces := run.map PlacedPiece.piece
  let split := run.length - named
  (if 0 < split then
    [⟨.text (piecesText (pieces.take split)), positionAt run stop 0, positionAt run stop split⟩]
  else []) ++
  (if 0 < named then
    [⟨.identifier (piecesText (pieces.drop split)), positionAt run stop split, stop⟩]
  else [])

/-- Whether a word that ends here could be the name of a single function. -/
def leadsFunction (l : ScanLoop) : Bool :=
  l.dialect == .singleFunction && l.tokens.isEmpty && l.layers.length == 1

/-- Emits the pending text. Before an open parenthesis the word at its end is a name. -/
def flush (l : ScanLoop) (beforeParen : Bool) : ScanLoop :=
  let trailing := (trailingName (l.run.map PlacedPiece.piece)).length
  let named :=
    if beforeParen || (trailing == l.run.length && l.leadsFunction) then trailing else 0
  if l.run.isEmpty then l
  else { l with run := [], tokens := l.tokens ++ runTokens l.run l.index named }

/-- Emits the current character as punctuation. -/
def emit (l : ScanLoop) (p : Punct) : ScanLoop :=
  { l with tokens := l.tokens ++ [⟨.punct p, l.index, l.index + 1⟩], index := l.index + 1 }

/-- Adds to the pending text. -/
def add (l : ScanLoop) (piece : Piece) : ScanLoop :=
  { l with run := l.run ++ [⟨piece, l.index⟩], index := l.index + piece.width }

/-- Reads an escape character, with the next character if that is special. -/
def escape (l : ScanLoop) (special : List Char) : ScanLoop :=
  match l.text[l.index + 1]? with
  | some c => if c ∈ special then l.add (.escaped c) else l.add (.plain escapeChar)
  | none => l.add (.plain escapeChar)

def enterWith (l : ScanLoop) (p : Punct) (mode : Mode) : ScanLoop :=
  ((l.flush false).emit p).enter mode

/-- Emits punctuation and leaves `mode` along with everything inside it. Without such a layer the
punctuation is stray. -/
def close (l : ScanLoop) (p : Punct) (mode : Mode) : ScanLoop :=
  let l := (l.flush false).emit p
  if l.encloses mode then { l with layers := unwindTo mode l.layers }.leave else l

/-- Emits all characters up to the first one that does not go on. -/
def takeWord (l : ScanLoop) (goesOn : Char → Bool) (value : List Char → TokenValue) : ScanLoop :=
  let cs := (l.text.drop l.index).takeWhile goesOn
  { l with
    tokens := l.tokens ++ [⟨value cs, l.index, l.index + cs.length⟩], index := l.index + cs.length }

def readText (l : ScanLoop) (c : Char) : ScanLoop :=
  if c = escapeChar then l.escape textSpecial
  else match c with
    | '<' => l.enterWith .openAngle .angle
    | '!' => l.enterWith .exclamation (.body .imperative)
    | '?' => l.enterWith .question (.body .optional)
    | '>' => (l.flush false).emit .closeAngle
    | _ => l.add (.plain c)

def readExpression (l : ScanLoop) (c : Char) : ScanLoop :=
  if c = escapeChar then l.escape expressionSpecial
  else match c with
    | '(' => ((l.flush true).emit .openParen).enter .paren
    | ')' => l.close .closeParen .paren
    | '<' => l.enterWith .openAngle .angle
    | '>' => l.close .closeAngle .angle
    | ',' => (l.flush false).emit .comma
    | '!' => l.enterWith .exclamation (.body .imperative)
    | '?' => l.enterWith .question (.body .optional)
    | _ => l.add (.plain c)

/-- Reads on between the markers of a substitution. -/
def readBody (l : ScanLoop) (marker : Marker) (c : Char) : ScanLoop :=
  if c = marker.punct.char then (l.emit marker.punct).leave
  else if c = '-' then l.emit .hyphen
  else if c = ':' ∧ marker = .optional then (l.emit .colon).replace .defaultStart
  else if c = '>' ∧ l.encloses .angle then l.close .closeAngle .angle
  else if c = ')' ∧ l.encloses .paren then l.close .closeParen .paren
  else if isBlank c then { l with index := l.index + 1 }
  else if c.isDigit then l.takeWord Char.isDigit numberValue
  else if isIdentStart c then l.takeWord isIdentContinue (fun cs => .identifier (String.ofList cs))
  else { l with
    tokens := l.tokens ++ [⟨.text (String.singleton c), l.index, l.index + 1⟩],
    index := l.index + 1 }

/-- Decides what the default is. Unless it starts with a parenthesis, escaped or not, nothing is
read. -/
def readDefaultStart (l : ScanLoop) (c : Char) : ScanLoop :=
  if c = '(' then ((l.replace .afterDefault).emit .openParen).enter .paren
  else if c = escapeChar ∧ l.text[l.index + 1]? = some '(' then
    (l.replace .defaultText).add (.escaped '(')
  else l.replace .defaultText

def readDefault (l : ScanLoop) (c : Char) : ScanLoop :=
  if c = escapeChar then l.escape defaultSpecial
  else if c = '?' then ((l.flush false).emit .question).leave
  else if c = '>' ∧ l.encloses .angle then l.close .closeAngle .angle
  else if c = ')' ∧ l.encloses .paren then l.close .closeParen .paren
  else l.add (.plain c)

/-- One round of the loop, which ends with the text. -/
def turn (l : ScanLoop) : ScanLoop :=
  match l.text[l.index]? with
  | none => l
  | some c =>
    match l.top with
    | .root .text => l.readText c
    | .root .expression => l.readExpression c
    | .inner .angle => l.readExpression c
    | .inner .paren => l.readExpression c
    | .inner (.body marker) => l.readBody marker c
    | .inner .defaultStart => l.readDefaultStart c
    | .inner .defaultText => l.readDefault c
    | .inner .afterDefault => l.readDefault c

def turns (l : ScanLoop) : Nat → ScanLoop
  | 0 => l
  | n + 1 => l.turn.turns n

/-- The tokens when the loop has ended. -/
def finished (l : ScanLoop) : List Token :=
  (l.flush false).tokens

end ScanLoop

end CommandTemplate
