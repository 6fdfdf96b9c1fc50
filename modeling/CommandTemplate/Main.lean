import CommandTemplate.CommandLine.Run

open CommandTemplate

/-- What stands at a path of the file system. -/
def fetchEntry (path : String) : IO Entry := do
  try
    let content ← IO.FS.readBinFile path
    pure (.file content)
  catch
    | .inappropriateType .. => pure .directory
    | _ => pure .missing

/-- The paths that may be asked for as settings files. -/
def namedPaths : List String → List String
  | [] => []
  | argument :: rest =>
    if argument == "--config" then rest.take 1 ++ namedPaths rest else namedPaths rest

/-- Fetches what a run may need, runs the program, and passes its output on. -/
def main (arguments : List String) : IO UInt32 := do
  let directory := toString (← IO.currentDir)
  let input ← IO.getStdin
  let stdin ←
    if Request.readsStdin (arguments.drop 1) then input.readBinToEnd else pure ByteArray.empty
  let paths := namedPaths arguments ++ Config.candidates directory
  let entries ← paths.mapM fun path => do
    let entry ← fetchEntry path
    pure (path, entry)
  let world : World := ⟨stdin, directory, fun path => (entries.lookup path).getD .missing⟩
  let outcome := runProgram world arguments
  IO.print outcome.stdout
  IO.eprint outcome.stderr
  pure outcome.exit
