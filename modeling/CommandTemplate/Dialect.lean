namespace CommandTemplate

/-- How the text outside all brackets is read: as literal text, as an expression, or as an
expression whose leading word names a function. -/
inductive Dialect
  | standard
  | inlineExecution
  | singleFunction
deriving DecidableEq

namespace Dialect

instance : Inhabited Dialect := ⟨.standard⟩

def all : List Dialect := [.standard, .inlineExecution, .singleFunction]

/-- The exact spelling of a dialect. -/
def name : Dialect → String
  | .standard => "standard"
  | .inlineExecution => "inline_execution"
  | .singleFunction => "single_function"

/-- Reads an exact spelling. -/
def ofName? (s : String) : Option Dialect :=
  all.find? (fun d => d.name == s)

/-- Letter case and the choice of hyphen or underscore do not matter to a typed spelling. -/
def normalize (s : String) : String :=
  String.ofList (s.toList.map fun c => if c == '-' then '_' else c.toLower)

/-- The typed spellings, two of them short forms. -/
def spellings : List (String × Dialect) :=
  [("standard", .standard), ("inline", .inlineExecution), ("inline_execution", .inlineExecution),
    ("single_function", .singleFunction), ("function", .singleFunction)]

/-- Reads a typed spelling. -/
def parse? (s : String) : Option Dialect :=
  spellings.lookup (normalize s)

/-- What is said about a spelling that is not a dialect. -/
def unknownMessage (s : String) : String :=
  "unknown dialect `" ++ s ++ "` (expected standard, inline or single-function)"

end Dialect

end CommandTemplate
