import CommandTemplate.Compilation
import CommandTemplate.Decimal.Shortest
import CommandTemplate.Text.Quoted
import CommandTemplate.Toml.Document

namespace CommandTemplate

/-- Why settings are refused: the text is no settings file or has the wrong shape, or a value does
not fit, for the given reason. -/
inductive ConfigError
  | malformed
  | mismatch (reason : String)
deriving DecidableEq

/-- The name of settings files. -/
def configFileName : String := "itl.toml"

namespace Config

open Toml

/-- How a value is named where another kind was expected. -/
def unexpected : Value → String
  | .string s => "string " ++ quoted s
  | .integer n => "integer `" ++ intText n ++ "`"
  | .float x => "floating point `" ++ x.shortest ++ "`"
  | .boolean b => "boolean `" ++ (if b then "true" else "false") ++ "`"
  | .moment => "map"
  | .array _ => "sequence"
  | .table _ => "map"

def wrongType (v : Value) (expected : String) : ConfigError :=
  .mismatch ("invalid type: " ++ unexpected v ++ ", expected " ++ expected)

def unknownField (name expected : String) : ConfigError :=
  .mismatch ("unknown field `" ++ name ++ "`, expected " ++ expected)

def unknownDialect (name : String) : ConfigError :=
  .mismatch ("unknown variant `" ++ name ++
    "`, expected one of `standard`, `inline_execution`, `single_function`")

def dialectNamed (name : String) : Except ConfigError Dialect :=
  match Dialect.ofName? name with
  | some d => .ok d
  | none => .error (unknownDialect name)

/-- A dialect is given by its name, or as the only key of a table with nothing under it. -/
def readDialect : Value → Except ConfigError Dialect
  | .string s => dialectNamed s
  | .table [(name, content)] => do
    let d ← dialectNamed name
    match content with
    | .table [] => pure d
    | .array [] => pure d
    | _ => throw .malformed
  | _ => .error .malformed

def readSwitch : Value → Except ConfigError Bool
  | .boolean b => .ok b
  | v => .error (wrongType v "a boolean")

/-- The options in a table. Each field is checked in turn. -/
def readFields (options : Options) : List (String × Value) → Except ConfigError Options
  | [] => pure options
  | (name, v) :: fields =>
    if name == "dialect" then do
      let d ← readDialect v
      readFields { options with dialect := d } fields
    else if name == "allow_unterminated_function_calls" then do
      let b ← readSwitch v
      readFields { options with allowUnterminated := b } fields
    else .error (unknownField name "`dialect` or `allow_unterminated_function_calls`")

/-- The options in a list: the dialect first, the switch second. -/
def readItems : List Value → Except ConfigError Options
  | [] => pure default
  | [d] => do
    let d ← readDialect d
    pure { (default : Options) with dialect := d }
  | d :: b :: _ => do
    let d ← readDialect d
    let b ← readSwitch b
    pure ⟨d, b⟩

/-- The key under which the format keeps a date, should one stand where a table belongs. -/
def momentField : String := "$__toml_private_datetime"

def readOptions : Value → Except ConfigError Options
  | .table fields => readFields default fields
  | .array items => readItems items
  | .moment =>
    .error (unknownField momentField "`dialect` or `allow_unterminated_function_calls`")
  | v => .error (wrongType v "struct CompileOptions")

/-- The options in a settings file, which has one table at most. -/
def readRoot (options : Options) : List (String × Value) → Except ConfigError Options
  | [] => pure options
  | (name, v) :: fields =>
    if name == "compile" then do
      let o ← readOptions v
      readRoot o fields
    else .error (unknownField name "`compile`")

/-- Reads the text of a settings file. -/
def parse (text : String) : Except ConfigError Options :=
  match Toml.parse? text with
  | none => .error .malformed
  | some fields => readRoot default fields

end Config

end CommandTemplate
