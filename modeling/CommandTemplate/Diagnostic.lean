import CommandTemplate.Diagnostic.Code
import CommandTemplate.Json
import CommandTemplate.Token

namespace CommandTemplate

/-- A mistake found in a template. Most are described by their code alone. -/
inductive Problem
  | general (code : Code)
  | notUnderstood (value : TokenValue)
  | unclosed (marker : Marker)
deriving DecidableEq

namespace Problem

def code : Problem → Code
  | .general code => code
  | .notUnderstood _ => .notUnderstood
  | .unclosed _ => .symbolExpected

def description : Problem → String
  | .general code => code.message
  | .notUnderstood value => "'" ++ value.display ++ "' was not understood"
  | .unclosed marker => "'" ++ String.singleton marker.punct.char ++ "' expected"

end Problem

/-- One entry of feedback. It is shown under the text only if it is locatable and has a span. -/
structure Diagnostic where
  code : Option Code
  severity : Severity
  description : String
  span : Option Span
  locatable : Bool
  payload : Option Json

namespace Diagnostic

/-- An entry about the text as a whole. -/
def plain (description : String) (severity : Severity) : Diagnostic :=
  ⟨none, severity, description, none, false, none⟩

/-- An entry about the text as a whole with a document attached. -/
def withPayload (description : String) (severity : Severity) (payload : Json) : Diagnostic :=
  { plain description severity with payload := some payload }

/-- An entry about a stretch of the text. -/
def located (description : String) (severity : Severity) (span : Span) (locatable : Bool) :
    Diagnostic :=
  { plain description severity with span := some span, locatable := locatable }

/-- A mistake, reported where it was found. -/
def ofProblem (problem : Problem) (span : Span) : Diagnostic :=
  ⟨some problem.code, .error, problem.description, some span, true, none⟩

/-- The same entry about a text in which `offset` characters stand in front. -/
def shift (offset : Nat) (d : Diagnostic) : Diagnostic :=
  { d with span := d.span.map (Span.shift offset) }

end Diagnostic

/-- Whether an entry of the given severity is present. -/
def hasSeverity (severity : Severity) (diagnostics : List Diagnostic) : Bool :=
  diagnostics.any (fun d => d.severity == severity)

/-- Whether an error is present. -/
def hasErrors (diagnostics : List Diagnostic) : Bool :=
  hasSeverity .error diagnostics

end CommandTemplate
