import CommandTemplate.CommandLine.Request
import CommandTemplate.Compilation.Document
import CommandTemplate.Diagnostic.Report

namespace CommandTemplate

/-- What a run leaves behind. -/
structure Outcome where
  exit : UInt32
  stdout : String
  stderr : String
deriving DecidableEq

/-- The commands. -/
inductive Command
  | parse
  | check
  | format
  | tokens
deriving DecidableEq

namespace Command

/-- The commands by the names under which they are called. -/
def all : List (String × Command) :=
  [("parse", .parse), ("check", .check), ("fmt", .format), ("tokens", .tokens)]

/-- How the text is called in reports. -/
def sourceName : String := "<input>"

/-- The report on a text as it goes to the standard error output. -/
def feedback (text : String) (diagnostics : List Diagnostic) : String :=
  report sourceName text diagnostics ++ "\n"

def exitCode (diagnostics : List Diagnostic) : UInt32 :=
  if hasErrors diagnostics then 1 else 0

/-- Does the work of a command. -/
def perform (job : Job) : Command → Outcome
  | .parse =>
    let c := compile job.options job.text
    ⟨exitCode c.diagnostics, c.document.pretty ++ "\n",
      if c.diagnostics.isEmpty then "" else feedback job.text c.diagnostics⟩
  | .check =>
    let c := compile job.options job.text
    ⟨exitCode c.diagnostics, "",
      if c.diagnostics.isEmpty then "" else feedback job.text c.diagnostics⟩
  | .format =>
    match formatTemplate job.options.dialect job.text with
    | .ok s => ⟨0, s ++ "\n", ""⟩
    | .error diagnostics => ⟨1, "", feedback job.text diagnostics⟩
  | .tokens =>
    ⟨0, (scanned job.options.dialect job.text).document.pretty ++ "\n", ""⟩

end Command

/-- The help text. -/
def helpText : String :=
  "itl\n\nUSAGE:\n  itl <COMMAND> [OPTIONS] <text|->\n\nCOMMANDS:\n" ++
  "  parse   print the syntax tree and diagnostics as JSON\n" ++
  "  check   report diagnostics only\n" ++
  "  fmt     print the template in canonical form\n" ++
  "  tokens  print the scanned tokens as JSON\n\nOPTIONS:\n" ++
  "  --dialect <standard|inline|single-function>\n" ++
  "  --allow-unterminated\n" ++
  "  --config <path>   (default: nearest itl.toml)\n" ++
  "  --debug-trace\n\n  -h, --help\n\nLOGGING:\n" ++
  "  ITL_LOG=<filter>  overrides the log filter (default: itl=warn)\n"

/-- A run that fails with nothing but a message. -/
def Failure.outcome (f : Failure) : Outcome :=
  ⟨1, "", f.message ++ "\n"⟩

/-- Runs the program with the given arguments. -/
def runProgram (w : World) : List String → Outcome
  | [] => ⟨0, helpText, ""⟩
  | name :: arguments =>
    if name == "-h" || name == "--help" then ⟨0, helpText, ""⟩
    else match Command.all.lookup name with
      | none => (Failure.usage (.unknownCommand name)).outcome
      | some command =>
        match readJob Config.parse w arguments with
        | .error f => f.outcome
        | .ok job => command.perform job

end CommandTemplate
