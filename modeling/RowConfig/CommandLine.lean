import RowConfig.FileSystem

/-!
# Command line

The commands `compile`, `check`, `lines` and `eval`: how arguments are read, and what a command
prints, saves and reports. Running a command is a function of the file system and of standard input;
what it saves is left to the caller.
-/

namespace RowConfig.CommandLine

/-- A command with its arguments. -/
inductive Command where
  /-- Compiles a file and prints the output or saves it. -/
  | compile (file : String) (output format : Option String)
  | check (file : String)
  | lines (file : String)
  | eval (source format : String)
deriving DecidableEq, Repr

/-- Why arguments make no command. -/
inductive Usage where
  /-- The user asks for help or for the version. -/
  | asked
  /-- The arguments are wrong. -/
  | wrong
deriving DecidableEq, Repr

inductive Verb where
  | compile
  | check
  | lines
  | eval
deriving DecidableEq, Repr

namespace Verb

def ofName? : String → Option Verb
  | "compile" => some compile
  | "check" => some check
  | "lines" => some lines
  | "eval" => some eval
  | _ => none

def takesOutput : Verb → Bool
  | compile => true
  | _ => false

def takesFormat : Verb → Bool
  | compile | eval => true
  | _ => false

/-- The operand of the command is a path, which cannot be empty. -/
def takesPath : Verb → Bool
  | eval => false
  | _ => true

end Verb

/-- What an option is about. -/
inductive Setting where
  | output
  | format
  | verbose
  | help
deriving DecidableEq, Repr

def Setting.ofWord? (verb : Verb) : String → Option Setting
  | "output" => if verb.takesOutput then some output else none
  | "format" => if verb.takesFormat then some format else none
  | "verbose" => some verbose
  | "help" => some help
  | _ => none

def Setting.ofLetter? (verb : Verb) : Char → Option Setting
  | 'o' => if verb.takesOutput then some output else none
  | 'f' => if verb.takesFormat then some format else none
  | 'v' => some verbose
  | 'h' => some help
  | _ => none

/-- What has been read of the arguments after the name of a command. -/
structure Given where
  operand : Option String
  output : Option String
  format : Option String
  verbose : Bool

namespace Given

def nothing : Given := ⟨none, none, none, false⟩

/-- Takes an operand; there is one at most. -/
def addOperand (g : Given) (verb : Verb) (word : String) : Except Usage Given :=
  if g.operand.isSome || (verb.takesPath && word.isEmpty) then .error .wrong
  else .ok { g with operand := some word }

/-- Takes an option with a value; each is given once at most. -/
def addValue (g : Given) (setting : Setting) (value : String) : Except Usage Given :=
  match setting with
  | .output =>
    if g.output.isSome || value.isEmpty then .error .wrong else .ok { g with output := some value }
  | .format => if g.format.isSome then .error .wrong else .ok { g with format := some value }
  | .verbose | .help => .error .wrong

/-- Takes an option without a value. -/
def addFlag (g : Given) (setting : Setting) : Except Usage Given :=
  match setting with
  | .verbose => if g.verbose then .error .wrong else .ok { g with verbose := true }
  | .help => .error .asked
  | .output | .format => .error .wrong

/-- The command that the arguments make. -/
def command (g : Given) : Verb → Except Usage Command
  | .compile => operand fun file => .compile file g.output g.format
  | .check => operand .check
  | .lines => operand .lines
  | .eval => operand fun source => .eval source (g.format.getD "json")
where
  operand (make : String → Command) : Except Usage Command :=
    match g.operand with
    | some word => .ok (make word)
    | none => .error .wrong

end Given

/-- An argument as it looks on its own. -/
inductive Word where
  /-- The mark after which nothing is an option. -/
  | endOfOptions
  /-- A long option, perhaps with a value after an equals sign. -/
  | long (name : String) (value : Option String)
  /-- Short options in one word. -/
  | short (letters : List Char)
  | operand
deriving DecidableEq, Repr

/-- How an argument looks. A single dash is an operand. -/
def Word.ofString (s : String) : Word :=
  match s.toList with
  | ['-', '-'] => endOfOptions
  | '-' :: '-' :: cs =>
    match Chars.splitOnce? '=' cs with
    | some (name, value) => long (String.ofList name) (some (String.ofList value))
    | none => long (String.ofList cs) none
  | '-' :: c :: cs => short (c :: cs)
  | _ => operand

/-- The value that follows the letter of a short option in the same word. -/
def attachedValue : List Char → String
  | '=' :: cs => String.ofList cs
  | cs => String.ofList cs

/-- The options of a word of short ones: what they give, and the option that still needs a value. -/
def readLetters (verb : Verb) (g : Given) : List Char → Except Usage (Given × Option Setting)
  | [] => .ok (g, none)
  | c :: cs =>
    match Setting.ofLetter? verb c with
    | none => .error .wrong
    | some .verbose => (g.addFlag .verbose).bind fun g => readLetters verb g cs
    | some .help => .error .asked
    | some setting =>
      if cs.isEmpty then .ok (g, some setting)
      else (g.addValue setting (attachedValue cs)).map fun g => (g, none)

/-- Reads the arguments after the name of a command: `waiting` is the option whose value comes next,
and `raw` says that options have ended. -/
def readArguments (verb : Verb) (g : Given) (waiting : Option Setting) (raw : Bool) :
    List String → Except Usage Given
  | [] => if waiting.isSome then .error .wrong else .ok g
  | word :: more =>
    match waiting with
    | some setting =>
      if Word.ofString word = .operand then
        (g.addValue setting word).bind fun g => readArguments verb g none raw more
      else .error .wrong
    | none =>
      if raw then (g.addOperand verb word).bind fun g => readArguments verb g none true more
      else
        match Word.ofString word with
        | .operand => (g.addOperand verb word).bind fun g => readArguments verb g none false more
        | .endOfOptions => readArguments verb g none true more
        | .short letters =>
          (readLetters verb g letters).bind fun (g, waiting) =>
            readArguments verb g waiting false more
        | .long name value =>
          match Setting.ofWord? verb name, value with
          | none, _ => .error .wrong
          | some setting, some value =>
            (g.addValue setting value).bind fun g => readArguments verb g none false more
          | some .output, none => readArguments verb g (some .output) false more
          | some .format, none => readArguments verb g (some .format) false more
          | some setting, none =>
            (g.addFlag setting).bind fun g => readArguments verb g none false more

/-- Reads the arguments of the program: options, the name of a command, and its arguments. -/
def parse (verbose : Bool) : List String → Except Usage Command
  | [] => .error .wrong
  | word :: more =>
    if word = "-v" ∨ word = "--verbose" then
      if verbose then .error .wrong else parse true more
    else if word = "-h" ∨ word = "--help" ∨ word = "-V" ∨ word = "--version" ∨ word = "help" then
      .error .asked
    else
      match Verb.ofName? word with
      | none => .error .wrong
      | some verb =>
        (readArguments verb .nothing none false more).bind fun g => g.command verb

/-- What a command leaves behind. -/
structure Outcome where
  code : UInt32
  stdout : String
  stderr : String
  /-- A path and the text that is to be saved there. -/
  save : Option (String × String)

namespace Outcome

/-- A command that has succeeded and printed a text. -/
def printed (text : String) : Outcome := ⟨0, text, "", none⟩

/-- The report of a fault: its message, its advice and its place. -/
def report (f : Fault) : String :=
  f.message ++ "\n" ++ (f.help?.elim "" fun help => "help: " ++ help ++ "\n") ++
    (f.snippet?.elim "" (· ++ "\n"))

/-- A command that has met a fault. Faults of reading and writing have a code of their own, and so
has a program that stops. -/
def failed (f : Fault) : Outcome :=
  let code := match f with
    | .io _ => 3
    | .overflow => 101
    | _ => 1
  ⟨code, "", report f, none⟩

def ofUsage : Usage → Outcome
  | .asked => printed ""
  | .wrong => ⟨2, "", "unusable arguments\n", none⟩

/-- A command that was to save its output and could not. -/
def unsaved (path : String) (problem : PathProblem) : Outcome :=
  failed (.io (.notWritten path problem))

/-- The outcome of something that may fail. -/
def ofExcept (result : Except Fault Outcome) : Outcome :=
  match result with
  | .ok outcome => outcome
  | .error f => failed f

end Outcome

/-- Saves on a disk what an outcome asks to save: the outcome and the disk afterwards. What is saved
to standard output is printed. -/
def Outcome.saveOn (d : Disk) (cwd : List String) (o : Outcome) : Outcome × Disk :=
  match o.save with
  | none => (o, d)
  | some (path, text) =>
    match d.target cwd path with
    | .error problem => (unsaved path problem, d)
    | .ok place =>
      match d.device? place with
      | none => (o, d.put place (.text text))
      | some .full => (unsaved path .full, d)
      | some .output => ({ o with stdout := o.stdout ++ text }, d)
      | some .sink | some .stream => (o, d)

/-- What a command sees: files, the path of the working directory, and standard input. -/
structure World where
  fileSystem : FileSystem
  cwd : String
  stdin : Content

/-- The path stands for standard input. -/
def isStdin (file : String) : Bool := file == "-" || file == "/dev/stdin"

/-- The resolved document of a file or of standard input. -/
def compileFile (w : World) (file : String) : Except Fault Document :=
  if isStdin file then
    match w.stdin with
    | .notText => .error (.io .inputNotText)
    | .text source => RowConfig.compile w.fileSystem.sources (.text w.cwd source)
  else w.fileSystem.compile file

/-- The format with a name. -/
def formatNamed (name : String) : Except Fault OutputFormat :=
  match OutputFormat.ofName? name with
  | some format => .ok format
  | none => .error (.io (.unknownFormat name))

/-- The format that is asked for by name, else that of the output file, else indented JSON. -/
def chooseFormat (name output : Option String) : Except Fault OutputFormat :=
  match name, output with
  | some name, _ => formatNamed name
  | none, some path => .ok (.ofPath path)
  | none, none => .ok .indentedJson

/-- A logical line under the name of its file, sixteen characters wide, and its number. -/
def listing (l : LogicalLine) : String :=
  let file := (l.origin.file.bind Path.fileName?).getD "<input>"
  let number := toString l.origin.number
  Location.blanks (16 - file.length) ++ file ++ ":" ++ number ++
    Location.blanks (4 - number.length) ++ "  " ++ l.text ++ "\n"

def run (w : World) : Command → Outcome
  | .compile file output format => Outcome.ofExcept do
    let format ← chooseFormat format output
    let document ← compileFile w file
    let text := format.render document.toNode
    return match output with
      | some path => ⟨0, "", "", some (path, text)⟩
      | none => .printed (text ++ "\n")
  | .check file => Outcome.ofExcept do
    let _ ← compileFile w file
    return ⟨0, "", (if isStdin file then "<stdin>" else file) ++ ": OK\n", none⟩
  | .lines file => Outcome.ofExcept do
    let lines ← expandFile w.fileSystem.sources file
    let logical ← assemble lines
    let heading := "Logical lines from " ++ file ++ ":\n" ++
      String.ofList (List.replicate 60 '-') ++ "\n"
    return .printed (heading ++ String.join (logical.map listing))
  | .eval source format => Outcome.ofExcept do
    let format ← formatNamed format
    let text ← compileTo w.fileSystem.sources (.text "." source) format
    return .printed (text ++ "\n")

/-- The outcome of a program call. -/
def execute (w : World) (arguments : List String) : Outcome :=
  match parse false arguments with
  | .error usage => .ofUsage usage
  | .ok command => run w command

end RowConfig.CommandLine
