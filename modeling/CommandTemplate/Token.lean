import CommandTemplate.Span
import CommandTemplate.Text.Decimal

namespace CommandTemplate

/-- Characters that are tokens of their own. -/
inductive Punct
  | openAngle
  | closeAngle
  | openParen
  | closeParen
  | comma
  | exclamation
  | question
  | colon
  | hyphen
deriving DecidableEq

namespace Punct

def all : List Punct :=
  [.openAngle, .closeAngle, .openParen, .closeParen, .comma, .exclamation, .question, .colon,
    .hyphen]

def char : Punct → Char
  | .openAngle => '<'
  | .closeAngle => '>'
  | .openParen => '('
  | .closeParen => ')'
  | .comma => ','
  | .exclamation => '!'
  | .question => '?'
  | .colon => ':'
  | .hyphen => '-'

def name : Punct → String
  | .openAngle => "open_angle_bracket"
  | .closeAngle => "close_angle_bracket"
  | .openParen => "open_parenthesis"
  | .closeParen => "close_parenthesis"
  | .comma => "comma"
  | .exclamation => "exclamation_point"
  | .question => "question_mark"
  | .colon => "colon"
  | .hyphen => "hyphen"

def ofName? (s : String) : Option Punct :=
  all.find? (fun p => p.name == s)

end Punct

/-- The two kinds of substitution: `!n!` must be filled in, `?n?` may be left out. -/
inductive Marker
  | imperative
  | optional
deriving DecidableEq

/-- The punctuation that opens and closes a substitution. -/
def Marker.punct : Marker → Punct
  | .imperative => .exclamation
  | .optional => .question

/-- The content of a token. -/
inductive TokenValue
  | text (s : String)
  | identifier (s : String)
  | integer (n : Nat)
  | punct (p : Punct)
deriving DecidableEq

namespace TokenValue

/-- How a token is quoted in messages. -/
def display : TokenValue → String
  | .text s => s
  | .identifier s => s
  | .integer n => natText n
  | .punct p => String.singleton p.char

def isText : TokenValue → Bool
  | .text _ => true
  | _ => false

end TokenValue

/-- A token and the characters it was read from: `start` is the first of them, `stop` the first
one after them. -/
structure Token where
  value : TokenValue
  start : Nat
  stop : Nat
deriving DecidableEq

namespace Token

def span (t : Token) : Span :=
  ⟨t.start, t.stop - t.start⟩

def isPunct (t : Token) (p : Punct) : Bool :=
  t.value == .punct p

end Token

/-- Whether tokens hold literal text only. -/
def isJustText (tokens : List Token) : Bool :=
  tokens.all (fun t => t.value.isText)

end CommandTemplate
