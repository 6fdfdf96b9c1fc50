import CommandTemplate.Config.Discovery
import CommandTemplate.Text.Whitespace

namespace CommandTemplate

/-- Why an argument vector is refused. -/
inductive UsageError
  | missingValue (flag : String)
  | unknownDialect (name : String)
  | unexpectedArgument (argument : String)
  | unknownFlag (flag : String)
  | missingText
  | unknownCommand (command : String)
deriving DecidableEq

def UsageError.message : UsageError → String
  | .missingValue flag => flag ++ " expects a value"
  | .unknownDialect name => Dialect.unknownMessage name
  | .unexpectedArgument argument => "unexpected argument " ++ argument
  | .unknownFlag flag => "unknown flag " ++ flag
  | .missingText => "missing template text (pass it as the last argument, or - for stdin)"
  | .unknownCommand command => "unknown command " ++ command

/-- Why a run fails before its command does its work. -/
inductive Failure
  | io (reason : String)
  | usage (error : UsageError)
  | config (path : String) (error : ConfigError)

def Failure.message : Failure → String
  | .io reason => "IO error: " ++ reason
  | .usage error => "Invalid argument: " ++ error.message
  | .config path .malformed => "Config error: failed to parse " ++ path ++ ": TOML parse error"
  | .config path (.mismatch reason) =>
    "Config error: failed to parse " ++ path ++ ": TOML parse error: " ++ reason

/-- What surrounds a run: the standard input, the current directory and the files. -/
structure World where
  stdin : ByteArray
  currentDirectory : String
  entry : String → Entry

/-- The text on the standard input, without the line breaks at its end. -/
def World.stdinText (w : World) : Except Failure String :=
  match String.fromUTF8? w.stdin with
  | some s => .ok (trimLineBreaks s)
  | none => .error (.io "stream did not contain valid UTF-8")

/-- What the arguments of a command ask for. The last of several options counts. -/
structure Request where
  dialect : Option Dialect
  allowUnterminated : Bool
  config : Option String
  text : Option String
deriving DecidableEq

namespace Request

def empty : Request :=
  ⟨none, false, none, none⟩

/-- Adds the one argument that is no option. -/
def setText (r : Request) (argument : String) (text : Except Failure String) :
    Except Failure Request :=
  match r.text with
  | some _ => .error (.usage (.unexpectedArgument argument))
  | none => do
    let s ← text
    pure { r with text := some s }

/-- Arguments that look like options. -/
def isFlag (argument : String) : Bool :=
  match argument.toList with
  | '-' :: '-' :: _ => true
  | _ => false

/-- Reads the arguments of a command from the left to the right. A single hyphen stands for the
text on the standard input. -/
def addArguments (stdin : Except Failure String) (r : Request) :
    List String → Except Failure Request
  | [] => .ok r
  | argument :: rest =>
    if argument == "--dialect" then
      match rest with
      | [] => .error (.usage (.missingValue argument))
      | name :: rest =>
        match Dialect.parse? name with
        | some d => addArguments stdin { r with dialect := some d } rest
        | none => .error (.usage (.unknownDialect name))
    else if argument == "--allow-unterminated" then
      addArguments stdin { r with allowUnterminated := true } rest
    else if argument == "--config" then
      match rest with
      | [] => .error (.usage (.missingValue argument))
      | path :: rest => addArguments stdin { r with config := some path } rest
    else if argument == "--debug-trace" then addArguments stdin r rest
    else if argument == "-" then do
      let r ← r.setText argument stdin
      addArguments stdin r rest
    else if isFlag argument then .error (.usage (.unknownFlag argument))
    else do
      let r ← r.setText argument (.ok argument)
      addArguments stdin r rest

/-- Whether reading the arguments comes to the standard input. -/
def readsStdin : List String → Bool
  | [] => false
  | argument :: rest =>
    if argument == "--dialect" || argument == "--config" then
      match rest with
      | [] => false
      | _ :: rest => readsStdin rest
    else argument == "-" || readsStdin rest

end Request

/-- The options and the text that a command works on. -/
structure Job where
  options : Options
  text : String

/-- The settings file to be used, if any: the one asked for, or else the nearest one. -/
def Request.configPath (w : World) (r : Request) : Option String :=
  match r.config with
  | some path => some path
  | none => Config.find? w.entry w.currentDirectory

/-- Reads the settings file. -/
def loadOptions (reader : SettingsReader) (w : World) : Option String → Except Failure Options
  | none => .ok default
  | some path =>
    match Config.load reader w.entry path with
    | .ok options => .ok options
    | .error (.unreadable reason) => .error (.io reason)
    | .error (.refused e) => .error (.config path e)

/-- Options on the command line come before those in the settings file. -/
def Request.override (r : Request) (options : Options) : Options :=
  ⟨r.dialect.getD options.dialect, r.allowUnterminated || options.allowUnterminated⟩

/-- The job that the arguments of a command describe. -/
def readJob (reader : SettingsReader) (w : World) (arguments : List String) :
    Except Failure Job := do
  let r ← Request.empty.addArguments w.stdinText arguments
  match r.text with
  | none => throw (.usage .missingText)
  | some text =>
    let options ← loadOptions reader w (r.configPath w)
    pure ⟨r.override options, text⟩

end CommandTemplate
