import RowConfig.CommandLine

/-!
# The program

The thin layer around `CommandLine.execute`: it looks up every file that the command can ask for,
runs the command on what it has found, and prints and saves what the command leaves behind.
-/

namespace RowConfig.Main

/-- The words for a path that cannot be followed. -/
def problemOf (e : IO.Error) : PathProblem :=
  match e with
  | .noFileOrDirectory .. => .missing
  | .inappropriateType .. => .notDirectory
  | e => .other (toString e)

/-- Bytes as text, if they are UTF-8. -/
def contentOf (bytes : ByteArray) : Content :=
  match String.fromUTF8? bytes with
  | some s => .text s
  | none => .notText

/-- Where paths lead, and what the files there hold, as far as it has been looked up. -/
structure Found where
  paths : Entries (Except PathProblem String)
  files : Entries Content

/-- The file system that shows what has been looked up. -/
def Found.fileSystem (found : Found) : FileSystem :=
  { files := found.files
    resolve := fun path => (Entries.get? found.paths path).getD (.error .missing) }

/-- The paths that the lines of a text include, relative to a directory. -/
def wanted (dir text : String) : List String :=
  (SourceLine.ofText none text).filterMap fun line =>
    match Include.ofLine line with
    | .ok (.file path _) => some (Path.join dir path)
    | _ => none

/-- Looks up paths, and the paths that the files there include. -/
partial def lookUp (found : Found) : List String → IO Found
  | [] => return found
  | path :: more => do
    if (Entries.get? found.paths path).isSome then lookUp found more
    else if Path.hasNul path then
      lookUp { found with paths := (path, .error .nulCharacter) :: found.paths } more
    else
      match ← (IO.FS.realPath path).toBaseIO with
      | .error e => lookUp { found with paths := (path, .error (problemOf e)) :: found.paths } more
      | .ok real =>
        let name := real.toString
        let paths := (name, .ok name) :: (path, .ok name) :: found.paths
        if (Entries.get? found.files name).isSome || (← real.isDir) then
          lookUp { found with paths := paths } more
        else
          let content := contentOf (← IO.FS.readBinFile real)
          let next := match content with
            | .text s => wanted (Path.parent name) s
            | .notText => []
          lookUp ⟨paths, (name, content) :: found.files⟩ (next ++ more)

/-- The paths that a command begins with. -/
def beginnings (cwd : String) (stdin : Content) : CommandLine.Command → List String
  | .compile file .. | .check file =>
    if CommandLine.isStdin file then
      match stdin with
      | .text s => wanted cwd s
      | .notText => []
    else [file]
  | .lines file => [file]
  | .eval source _ => wanted "." source

def readsInput : CommandLine.Command → Bool
  | .compile file .. | .check file => CommandLine.isStdin file
  | _ => false

/-- Looks up what a command needs. -/
def worldFor (command : CommandLine.Command) : IO CommandLine.World := do
  let cwd := (← IO.currentDir).toString
  let stdin ←
    if readsInput command then contentOf <$> (← IO.getStdin).readBinToEnd else pure (.text "")
  let found ← lookUp ⟨[], []⟩ (beginnings cwd stdin command)
  return ⟨found.fileSystem, cwd, stdin⟩

/-- Saves what an outcome asks to save. -/
def save (outcome : CommandLine.Outcome) : IO CommandLine.Outcome := do
  match outcome.save with
  | none => return outcome
  | some (path, text) =>
    match ← (IO.FS.writeFile path text).toBaseIO with
    | .ok () => return outcome
    | .error e => return .unsaved path (problemOf e)

def runProgram (arguments : List String) : IO UInt32 := do
  let outcome ←
    match CommandLine.parse false arguments with
    | .error usage => pure (CommandLine.Outcome.ofUsage usage)
    | .ok command => save (CommandLine.run (← worldFor command) command)
  (← IO.getStdout).putStr outcome.stdout
  (← IO.getStderr).putStr outcome.stderr
  return outcome.code

end RowConfig.Main

def main (arguments : List String) : IO UInt32 := RowConfig.Main.runProgram arguments
