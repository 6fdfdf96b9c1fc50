import CommandTemplate.Expr
import CommandTemplate.Text.Decimal
import CommandTemplate.Token.Scanner

namespace CommandTemplate

/-- Writes a text with an escape before each special character. -/
def escapeText (special : List Char) : List Char → List Char
  | [] => []
  | c :: cs =>
    if c ∈ special then escapeChar :: c :: escapeText special cs else c :: escapeText special cs

/-- Writes the literal default of a substitution: a leading parenthesis is escaped, because it
would open a group. -/
def escapeDefault : List Char → List Char
  | '(' :: cs => escapeChar :: '(' :: escapeText defaultSpecial cs
  | cs => escapeText defaultSpecial cs

namespace Substitution

/-- Writes a bound. -/
def renderBound : Option Nat → List Char
  | some n => decimal n
  | none => openBound.toList

/-- Writes what stands between the markers. A range starts with a number in any case. -/
def render (s : Substitution) : List Char :=
  if s.singular then renderBound s.first
  else decimal (s.first.getD 1) ++ ['-'] ++ renderBound s.last

end Substitution

namespace Expr

mutual

/-- Writes an expression. In literal text a call needs brackets around it, and a default other
than a literal stands in parentheses. -/
def render (context : Context) : Expr → List Char
  | .literal text => escapeText context.special text.toList
  | .identifier name => name.toList
  | .group es => ['<'] ++ renderGroup .expression es ++ ['>']
  | .call name arguments =>
    let call := name.toList ++ ['('] ++ renderArguments arguments ++ [')']
    match context with
    | .text => ['<'] ++ call ++ ['>']
    | .expression => call
  | .imperative s => ['!'] ++ s.render ++ ['!']
  | .optional s none => ['?'] ++ s.render ++ ['?']
  | .optional s (some (.literal text)) =>
    ['?'] ++ s.render ++ [':'] ++ escapeDefault text.toList ++ ['?']
  | .optional s (some (.group es)) =>
    ['?'] ++ s.render ++ [':', '('] ++ renderGroup .expression es ++ [')', '?']
  | .optional s (some e) =>
    ['?'] ++ s.render ++ [':', '('] ++ render .expression e ++ [')', '?']

/-- Writes expressions one after the other. -/
def renderGroup (context : Context) : List Expr → List Char
  | [] => []
  | e :: es => render context e ++ renderGroup context es

/-- Writes arguments with commas between them. -/
def renderArguments : List (List Expr) → List Char
  | [] => []
  | [a] => renderGroup .expression a
  | a :: b :: as => renderGroup .expression a ++ [','] ++ renderArguments (b :: as)

end

end Expr

/-- Writes a tree as template text. -/
def renderTemplate (dialect : Dialect) (tree : List Expr) : String :=
  String.ofList (Expr.renderGroup dialect.root tree)

end CommandTemplate
