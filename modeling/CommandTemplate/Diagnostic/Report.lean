import CommandTemplate.Diagnostic
import CommandTemplate.Text.Split
import CommandTemplate.Text.Whitespace

namespace CommandTemplate

/-- A text on one line: line breaks become blanks, so that columns stay right. -/
def oneLine (text : String) : String :=
  String.ofList (text.toList.map fun c => if c == '\n' || c == '\r' then ' ' else c)

namespace Diagnostic

/-- How an entry starts: its severity, with the code if there is one. -/
def label (d : Diagnostic) : String :=
  match d.code with
  | some code => d.severity.name ++ "[" ++ code.id ++ "]"
  | none => d.severity.name

/-- The lines of an entry about the text as a whole. -/
def plainLines (source : String) (d : Diagnostic) : String :=
  d.label ++ " " ++ source ++ " " ++ d.description ++ "\n"

/-- The lines of an entry about a stretch: what is wrong, the text, and carets under the stretch.
A place gets one caret. -/
def locatedLines (source text : String) (d : Diagnostic) (span : Span) : String :=
  d.label ++ " " ++ source ++ ":1:" ++ natText (span.start + 1) ++ " " ++ d.description ++ "\n" ++
    "  | " ++ oneLine text ++ "\n" ++
    "  | " ++ String.ofList (List.replicate span.start ' ') ++
      String.ofList (List.replicate (max span.length 1) '^') ++ "\n"

/-- An entry as it is shown for a text. White space at its end is dropped. -/
def report (source text : String) (d : Diagnostic) : String :=
  trimBlanks <|
    match d.span with
    | some span => if d.locatable then d.locatedLines source text span else d.plainLines source
    | none => d.plainLines source

end Diagnostic

/-- All entries as they are shown for a text. -/
def report (source text : String) (diagnostics : List Diagnostic) : String :=
  joinWith "\n" (diagnostics.map (Diagnostic.report source text))

end CommandTemplate
