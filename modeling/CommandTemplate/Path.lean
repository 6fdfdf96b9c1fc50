import CommandTemplate.Text.Split

namespace CommandTemplate

/-- What stands at a path. -/
inductive Entry
  | missing
  | directory
  | file (content : ByteArray)

namespace Path

/-- The parts of a path between its slashes. -/
def parts (path : String) : List String :=
  (splitChars '/' path.toList).map String.ofList

def isAbsolute (path : String) : Bool :=
  path.toList.head? == some '/'

/-- Parts that stay where they are. -/
def isInert (part : String) : Bool :=
  part == "" || part == "."

/-- The path `name` seen from `dir`. -/
def join (dir name : String) : String :=
  if isAbsolute name then name
  else if dir.isEmpty || dir.toList.getLast? == some '/' then dir ++ name
  else dir ++ "/" ++ name

/-- Writes the parts of a path. -/
def ofParts (absolute : Bool) (ps : List String) : String :=
  (if absolute then "/" else "") ++ joinWith "/" ps

/-- The parts of a path behind the slash of an absolute one. -/
def relativeParts (path : String) : List String :=
  if isAbsolute path then (parts path).drop 1 else parts path

/-- The enclosing directories of a directory, by their text alone, from the inside to the outside.
All are given by their parts, the last part first. That part goes first, whatever it means. -/
def outward : List String → List (List String)
  | [] => []
  | p :: ps => if isInert p then outward ps else ps.dropWhile isInert :: outward ps

/-- A directory and its enclosing ones, by their text alone. -/
def ancestors (path : String) : List String :=
  path :: (outward (relativeParts path).reverse).map fun ps => ofParts (isAbsolute path) ps.reverse

end Path

end CommandTemplate
