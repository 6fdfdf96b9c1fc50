import CommandTemplate.Config
import CommandTemplate.Path

namespace CommandTemplate

/-- Why a settings file gives no options. -/
inductive LoadError
  | unreadable (reason : String)
  | refused (error : ConfigError)

/-- A way to read the text of a settings file. -/
abbrev SettingsReader := String → Except ConfigError Options

namespace Config

/-- Reads the settings file at a path. -/
def load (reader : SettingsReader) (entry : String → Entry) (path : String) :
    Except LoadError Options :=
  match entry path with
  | .missing => .error (.unreadable "No such file or directory (os error 2)")
  | .directory => .error (.unreadable "Is a directory (os error 21)")
  | .file content =>
    match String.fromUTF8? content with
    | none => .error (.unreadable "stream did not contain valid UTF-8")
    | some text =>
      match reader text with
      | .ok options => .ok options
      | .error e => .error (.refused e)

/-- The places where the settings file for a directory may be, the nearest first. -/
def candidates (directory : String) : List String :=
  (Path.ancestors directory).map (fun dir => Path.join dir configFileName)

def isFile : Entry → Bool
  | .file _ => true
  | _ => false

/-- The nearest settings file in a directory or around it. -/
def find? (entry : String → Entry) (directory : String) : Option String :=
  (candidates directory).find? (fun path => isFile (entry path))

end Config

end CommandTemplate
