import RowConfig.Compile

/-!
# Files and directories

A file system, as far as a compilation can see it: where paths lead, and what the files hold. `Disk`
is a finite tree of directories, in which paths are followed name by name, as an operating system
does: every name before the last must be that of a directory, also where the path goes up again.
Beside files there are devices, which take output and hold no document.
-/

namespace RowConfig

/-- Files by their canonical names, and where paths lead. -/
structure FileSystem where
  files : Entries Content
  resolve : String → Except PathProblem String

/-- The files of a file system as sources of a document. -/
def FileSystem.sources (fs : FileSystem) : Sources :=
  { files := fs.files
    canonical := fun path => (fs.resolve path).toOption }

/-- The resolved document of the file with a path. -/
def FileSystem.compile (fs : FileSystem) (path : String) : Except Fault Document :=
  match fs.resolve path with
  | .error problem => .error (.io (.unresolved path problem))
  | .ok name => RowConfig.compile fs.sources (.file name)

/-- A place that takes output without being a file. -/
inductive Device where
  /-- Takes everything and keeps nothing. -/
  | sink
  /-- Takes nothing. -/
  | full
  /-- Standard output of the program. It is no place that a path can be resolved to. -/
  | output
  /-- Another stream of the program, which likewise has no place. -/
  | stream
deriving DecidableEq, Repr

/-- A path can be resolved to the device. -/
def Device.hasPlace : Device → Bool
  | sink | full => true
  | output | stream => false

/-- A tree of directories, by the names on the way to its files, devices and directories.
Directories on the way to something need not be listed. -/
structure Disk where
  files : List (List String × Content)
  directories : List (List String)
  devices : List (List String × Device)

namespace Disk

/-- The path of a place in the tree. -/
def pathOf (names : List String) : String := "/" ++ "/".intercalate names

def file? (d : Disk) (names : List String) : Option Content :=
  (d.files.find? fun (file, _) => file == names).map Prod.snd

def device? (d : Disk) (names : List String) : Option Device :=
  (d.devices.find? fun (device, _) => device == names).map Prod.snd

/-- A directory is at the place: it is listed or on the way to something. -/
def isDirectory (d : Disk) (names : List String) : Bool :=
  let leadsTo (place : List String) := names.isPrefixOf place && names.length < place.length
  names.isEmpty || d.directories.any names.isPrefixOf ||
    d.files.any (fun (file, _) => leadsTo file) || d.devices.any fun (device, _) => leadsTo device

/-- A path can be resolved to the place. -/
def hasPlace (d : Disk) (names : List String) : Bool :=
  d.isDirectory names || (d.file? names).isSome || (d.device? names).any Device.hasPlace

def maxNameSize : Nat := 255

/-- The number of bytes from which on a path is too long to be opened. -/
def pathLimit : Nat := 4096

/-- Follows the parts of a path between slashes from a place. -/
def walk (d : Disk) (here : List String) : List String → Except PathProblem (List String)
  | [] => .ok here
  | part :: more =>
    if !d.isDirectory here then .error .notDirectory
    else if part = "" ∨ part = "." then d.walk here more
    else if part = ".." then d.walk here.dropLast more
    else if maxNameSize < Chars.byteSize part.toList then .error .nameTooLong
    else if d.hasPlace (here ++ [part]) then d.walk (here ++ [part]) more
    else .error .missing

/-- The parts of a path between slashes. -/
def parts (path : String) : List String := (Chars.splitAll '/' path.toList).map String.ofList

/-- The place that a path leads to from a working directory. It is found name by name, so the length
of the whole path does not matter. -/
def resolve (d : Disk) (cwd : List String) (path : String) : Except PathProblem (List String) :=
  if Path.hasNul path then .error .nulCharacter
  else if path = "" then .error .missing
  else d.walk (if Path.isAbsolute path then [] else cwd) (parts path)

/-- The tree as seen from a working directory. -/
def fileSystem (d : Disk) (cwd : List String) : FileSystem :=
  { files := d.files.map fun (names, content) => (pathOf names, content)
    resolve := fun path => (d.resolve cwd path).map pathOf }

/-- The place at which a path names a file or a device to write to: the directories on the way
exist, and the last name is not that of a directory. -/
def target (d : Disk) (cwd : List String) (path : String) : Except PathProblem (List String) :=
  if Path.hasNul path then .error .nulCharacter
  else if path = "" then .error .missing
  else if pathLimit ≤ Chars.byteSize path.toList then .error .nameTooLong
  else
    match d.walk (if Path.isAbsolute path then [] else cwd) (parts path).dropLast with
    | .error problem => .error problem
    | .ok dir =>
      let name := (parts path).getLastD ""
      if !d.isDirectory dir then .error .notDirectory
      else if name = "" ∨ name = "." ∨ name = ".." ∨ d.isDirectory (dir ++ [name]) then
        .error .isDirectory
      else if maxNameSize < Chars.byteSize name.toList then .error .nameTooLong
      else .ok (dir ++ [name])

/-- The tree with a file at a place. -/
def put (d : Disk) (place : List String) (content : Content) : Disk :=
  { d with files := (place, content) :: d.files.filter fun (file, _) => file != place }

/-- The text of the file that a path leads to. A device has the empty text. -/
def read? (d : Disk) (cwd : List String) (path : String) : Option String :=
  match d.resolve cwd path with
  | .error _ => none
  | .ok place =>
    match d.file? place with
    | some (.text s) => some s
    | some .notText => none
    | none => (d.device? place).map fun _ => ""

end Disk

end RowConfig
