namespace CommandTemplate

/-- How much a diagnostic matters. -/
inductive Severity
  | error
  | warning
  | message
deriving DecidableEq

namespace Severity

def all : List Severity := [.error, .warning, .message]

def name : Severity → String
  | .error => "error"
  | .warning => "warning"
  | .message => "message"

def ofName? (s : String) : Option Severity :=
  all.find? (fun v => v.name == s)

end Severity

/-- The kinds of mistake that a template can hold. -/
inductive Code
  | expressionExpected
  | closeAngleExpected
  | closeParenExpected
  | openParenExpected
  | bothParensExpected
  | questionMarkExpected
  | parameterMissing
  | notUnderstood
  | argumentNumberExpected
  | argumentNumberOrOpenBoundExpected
  | argumentNumberZero
  | openBoundBeforeHyphen
  | hyphenExpected
  | reversedRange
  | symbolExpected
  | nestingTooDeep
deriving DecidableEq

namespace Code

def all : List Code :=
  [.expressionExpected, .closeAngleExpected, .closeParenExpected, .openParenExpected,
    .bothParensExpected, .questionMarkExpected, .parameterMissing, .notUnderstood,
    .argumentNumberExpected, .argumentNumberOrOpenBoundExpected, .argumentNumberZero,
    .openBoundBeforeHyphen, .hyphenExpected, .reversedRange, .symbolExpected, .nestingTooDeep]

/-- The short name under which a mistake is reported. -/
def id : Code → String
  | .expressionExpected => "E2001"
  | .closeAngleExpected => "E2002"
  | .closeParenExpected => "E2003"
  | .openParenExpected => "E2004"
  | .bothParensExpected => "E2005"
  | .questionMarkExpected => "E2006"
  | .parameterMissing => "E2007"
  | .notUnderstood => "E2008"
  | .argumentNumberExpected => "E2101"
  | .argumentNumberOrOpenBoundExpected => "E2102"
  | .argumentNumberZero => "E2103"
  | .openBoundBeforeHyphen => "E2104"
  | .hyphenExpected => "E2105"
  | .reversedRange => "E2106"
  | .symbolExpected => "E2107"
  | .nestingTooDeep => "E2201"

/-- The general wording of a mistake. -/
def message : Code → String
  | .expressionExpected => "an expression was expected"
  | .closeAngleExpected => "'>' expected"
  | .closeParenExpected => "')' expected"
  | .openParenExpected => "'(' expected"
  | .bothParensExpected => "'(' and ')' expected after the function name"
  | .questionMarkExpected => "'?' expected"
  | .parameterMissing => "a parameter is missing"
  | .notUnderstood => "this was not understood"
  | .argumentNumberExpected => "an argument number was expected before '-'"
  | .argumentNumberOrOpenBoundExpected => "an argument number or 'N' was expected"
  | .argumentNumberZero => "argument numbers start at 1 and cannot be zero"
  | .openBoundBeforeHyphen => "the value before '-' cannot be 'N'"
  | .hyphenExpected => "'-' expected"
  | .reversedRange => "the first argument number must be less than the last argument number"
  | .symbolExpected => "a closing symbol was expected"
  | .nestingTooDeep => "expressions are nested too deeply"

def ofId? (s : String) : Option Code :=
  all.find? (fun c => c.id == s)

end Code

end CommandTemplate
