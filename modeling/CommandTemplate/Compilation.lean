import CommandTemplate.Expr.Render
import CommandTemplate.Region.Group

namespace CommandTemplate

/-- How a template is to be read. -/
structure Options where
  dialect : Dialect
  allowUnterminated : Bool
deriving DecidableEq

instance : Inhabited Options := ⟨⟨default, false⟩⟩

/-- What comes of a template. Without a tree, the last diagnostic says why parsing gave up. -/
structure Compilation where
  tree : Option (List Expr)
  diagnostics : List Diagnostic
  justText : Bool

/-- What is said about a parse that gave up: it is located at the last character. -/
def giveUp (length : Nat) (p : Problem) : Diagnostic :=
  .ofProblem p (.place (length - 1))

/-- Reads a template. -/
def compile (options : Options) (text : String) : Compilation :=
  let tokens := scan options.dialect text
  let length := text.toList.length
  let parsed := parseTokens options.allowUnterminated tokens length
  match parsed.result with
  | .ok tree => ⟨some tree, parsed.log, isJustText tokens⟩
  | .error p => ⟨none, parsed.log ++ [giveUp length p], isJustText tokens⟩

/-- The canonical form of a template without errors, or its diagnostics. -/
def formatTemplate (dialect : Dialect) (text : String) : Except (List Diagnostic) String :=
  let c := compile ⟨dialect, false⟩ text
  match c.tree with
  | some tree =>
    if hasErrors c.diagnostics then .error c.diagnostics else .ok (renderTemplate dialect tree)
  | none => .error c.diagnostics

end CommandTemplate
