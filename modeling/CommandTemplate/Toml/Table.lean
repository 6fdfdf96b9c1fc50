import CommandTemplate.Toml.Value

namespace CommandTemplate

namespace Toml

/-- How a table came about: from a header of its own, from a header further inside, or from a
key with points. -/
inductive Origin
  | header
  | outer
  | dotted
deriving DecidableEq

/-- What a table under construction holds: values, tables, and lists of tables, of which the last
one can still grow. -/
inductive Node
  | value (v : Value)
  | table (origin : Origin) (entries : List (String × Node))
  | tables (before : List (List (String × Node))) (last : List (String × Node))

/-- A table under construction. -/
abbrev Entries := List (String × Node)

namespace Node

mutual

/-- The finished value. -/
def finish : Node → Value
  | .value v => v
  | .table _ entries => .table (finishEntries entries)
  | .tables before last => .array (finishTables before ++ [.table (finishEntries last)])

def finishEntries : List (String × Node) → List (String × Value)
  | [] => []
  | (k, n) :: entries => (k, finish n) :: finishEntries entries

def finishTables : List (List (String × Node)) → List Value
  | [] => []
  | t :: ts => .table (finishEntries t) :: finishTables ts

end

end Node

/-- Puts a node in the place of the one under the key. -/
def replaceEntry (k : String) (n : Node) (entries : Entries) : Entries :=
  entries.map fun e => if e.1 == k then (k, n) else e

/-- The entries without the one under the key. -/
def eraseEntry (k : String) (entries : Entries) : Entries :=
  entries.filter fun e => e.1 != k

/-- Changes the table at the end of a path. Tables that are missing on the way get the origin
`fresh`. A list of tables leads to its last one, and a value leads nowhere. Keys with points may
not enter a table that has a header. -/
def changeAt (fresh : Origin) (change : Origin → Entries → Option Entries) :
    List String → Origin → Entries → Option Entries
  | [], origin, entries => change origin entries
  | k :: path, _, entries =>
    match entries.lookup k with
    | none => do
      let inner ← changeAt fresh change path fresh []
      pure (entries ++ [(k, .table fresh inner)])
    | some (.table origin inner) =>
      if fresh == .dotted && origin == .header then none
      else do
        let inner ← changeAt fresh change path origin inner
        pure (replaceEntry k (.table origin inner) entries)
    | some (.tables before last) => do
      let last ← changeAt fresh change path .header last
      pure (replaceEntry k (.tables before last) entries)
    | some (.value _) => none

/-- A key, in parts, and the value it gets. -/
structure Pair where
  path : List String
  key : String
  value : Value

/-- Adds a pair to a table. A key with points has to end in a table that such a key made, and a
key without points belongs to a table that none made. -/
def insertPair (entries : Entries) (p : Pair) : Option Entries :=
  changeAt .dotted
    (fun origin found =>
      if (origin == .dotted) == p.path.isEmpty then none
      else if (found.lookup p.key).isSome then none
      else some (found ++ [(p.key, .value p.value)]))
    p.path .header entries

/-- Adds pairs one after the other. -/
def insertPairs (entries : Entries) (pairs : List Pair) : Option Entries :=
  pairs.foldlM insertPair entries

/-- The lines that open a table: `[path.key]` for a table, `[[path.key]]` for the next one of a
list. -/
inductive Header
  | table (path : List String) (key : String)
  | item (path : List String) (key : String)

/-- Adds a table with a header. A table that so far only held others moves to the end. -/
def insertTable (pairs : List Pair) (k : String) (entries : Entries) : Option Entries :=
  match entries.lookup k with
  | none => do
    let inner ← insertPairs [] pairs
    pure (entries ++ [(k, .table .header inner)])
  | some (.table .outer inner) => do
    let inner ← insertPairs inner pairs
    pure (eraseEntry k entries ++ [(k, .table .header inner)])
  | some _ => none

/-- Adds a table to a list of tables. -/
def insertItem (pairs : List Pair) (k : String) (entries : Entries) : Option Entries := do
  let inner ← insertPairs [] pairs
  match entries.lookup k with
  | none => pure (entries ++ [(k, .tables [] inner)])
  | some (.tables before last) =>
    pure (replaceEntry k (.tables (before ++ [last]) inner) entries)
  | some _ => none

/-- A header and the pairs under it. -/
structure Section where
  header : Header
  pairs : List Pair

/-- Adds a section to the table of the whole file. -/
def insertSection (root : Entries) (s : Section) : Option Entries :=
  match s.header with
  | .table path k => changeAt .outer (fun _ => insertTable s.pairs k) path .header root
  | .item path k => changeAt .outer (fun _ => insertItem s.pairs k) path .header root

/-- The table of a whole file, from the pairs in front of all headers and the sections. -/
def assemble (pairs : List Pair) (sections : List Section) :
    Option (List (String × Value)) := do
  let root ← insertPairs [] pairs
  let root ← sections.foldlM insertSection root
  pure (Node.finishEntries root)

end Toml

end CommandTemplate
