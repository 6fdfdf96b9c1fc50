import CommandTemplate.Toml.Scalar
import CommandTemplate.Toml.Table

namespace CommandTemplate

namespace Toml

open Reader

/-- A value of an array, with the blanks, comments and line breaks around it. -/
def arrayItem (inner : Reader Value) : Reader Value := do
  gap
  let v ← inner
  gap
  pure v

/-- An array. A comma may follow the last item. -/
def array (inner : Reader Value) : Reader Value := do
  exactly "["
  let first ← Reader.optional (arrayItem inner)
  match first with
  | none => do
    gap
    exactly "]"
    pure (.array [])
  | some v => do
    let vs ← many (do exactly ","; arrayItem inner)
    let _ ← Reader.optional (exactly ",")
    gap
    exactly "]"
    pure (.array (v :: vs))

/-- The parts of a key in front of its last one, and the last one. -/
def splitKey (parts : List String) : Option (List String × String) := do
  let last ← parts.getLast?
  pure (parts.dropLast, last)

def pair (inner : Reader Value) : Reader Pair := do
  let parts ← key
  exactly "="
  spaces
  let v ← inner
  match splitKey parts with
  | some (path, k) => pure ⟨path, k, v⟩
  | none => failure

/-- A table on one line. -/
def inlineTable (inner : Reader Value) : Reader Value := do
  let item : Reader Pair := do
    let p ← pair inner
    spaces
    pure p
  exactly "\x7b"
  let first ← Reader.optional item
  let pairs ← match first with
    | none => pure []
    | some p => do
      let ps ← many (do exactly ","; item)
      pure (p :: ps)
  spaces
  exactly "\x7d"
  match insertPairs [] pairs with
  | some entries => pure (.table (Node.finishEntries entries))
  | none => failure

/-- A value with at most `budget` containers inside one another. -/
def value : Nat → Reader Value
  | 0 => scalar
  | budget + 1 => do
    match ← peek with
    | some '[' => array (value budget)
    | some '\x7b' => inlineTable (value budget)
    | _ => scalar

/-- The lines of a file. -/
inductive Line
  | blank
  | pair (p : Pair)
  | header (h : Header)

def tableHeader : Reader Header := do
  exactly "["
  let parts ← key
  exactly "]"
  match splitKey parts with
  | some (path, k) => pure (.table path k)
  | none => failure

def itemHeader : Reader Header := do
  exactly "[["
  let parts ← key
  exactly "]]"
  match splitKey parts with
  | some (path, k) => pure (.item path k)
  | none => failure

/-- One line. Line breaks stand between the values of an array and inside strings, too. -/
def line : Reader Line := do
  spaces
  match ← peek with
  | none => failure
  | some '[' => do
    let h ← itemHeader <|> tableHeader
    lineEnd
    pure (.header h)
  | some '#' => do
    lineEnd
    pure .blank
  | some '\n' => do
    lineEnd
    pure .blank
  | some '\r' => do
    lineEnd
    pure .blank
  | some _ => do
    let p ← pair (value (depthLimit - 1))
    lineEnd
    pure (.pair p)

/-- All lines of a file. A byte order mark may stand in front. -/
def lines : Reader (List Line) := do
  let _ ← Reader.optional (exactly "\uFEFF")
  let ls ← many line
  spaces
  atEnd
  pure ls

/-- Gathers the pairs in front of all headers, and those under each header. -/
def sections : List Line → List Pair × List Section
  | [] => ([], [])
  | .blank :: ls => sections ls
  | .pair p :: ls =>
    let later := sections ls
    (p :: later.1, later.2)
  | .header h :: ls =>
    let later := sections ls
    ([], ⟨h, later.1⟩ :: later.2)

/-- The table that a settings file describes, if it is well formed. -/
def parse? (text : String) : Option (List (String × Value)) := do
  let (ls, _) ← StateT.run lines text.toList
  let (pairs, ss) := sections ls
  assemble pairs ss

end Toml

end CommandTemplate
