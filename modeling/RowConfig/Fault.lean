import RowConfig.Escape
import RowConfig.FieldType
import RowConfig.Location
import RowConfig.Scan
import RowConfig.Suggestion

/-!
# Faults

Everything that can be wrong with a document, as causes. The wording, the code, the advice and the
location of a fault are functions of its cause.
-/

namespace RowConfig

/-- What makes a line unexpected. -/
inductive LineProblem where
  /-- The line has none of the shapes of the language. -/
  | unrecognized
  /-- A global is marked as a primary key. -/
  | keyGlobal (name : String)
  /-- A global is given a list of choices. -/
  | choiceGlobal (name : String)
  /-- An indented line follows something other than a row. -/
  | strayContinuation
  /-- An include directive does not quote a path. -/
  | malformedInclude
deriving DecidableEq, Repr

namespace LineProblem

def message : LineProblem → String
  | unrecognized => "unrecognized line"
  | keyGlobal name => "global '" ++ name ++ "' cannot be a primary key"
  | choiceGlobal name => "global '" ++ name ++ "' cannot have enum choices"
  | strayContinuation => "indented line does not continue a row"
  | malformedInclude => "malformed include directive"

def help : LineProblem → String
  | unrecognized =>
    "expected a struct header `Name:`, a declaration `type name: value`, or a row `- a, b`"
  | keyGlobal _ => "only struct fields can be marked with '*'"
  | choiceGlobal _ => "enum choices are only allowed on struct fields"
  | strayContinuation => "continuation lines must follow a row starting with '-'"
  | malformedInclude => "write the path in quotes: #include \"common.keel\""

end LineProblem

/-- A line that needs a struct header above it. -/
inductive StructLine where
  | row
  | field
  | override
deriving DecidableEq, Repr

def StructLine.describe : StructLine → String
  | row => "instance row"
  | field => "field declaration"
  | override => "default override"

/-- Why a list of choices is refused. -/
inductive ChoiceProblem where
  | arrayField
  | structField
  | notAList
  | emptyList
deriving DecidableEq, Repr

def ChoiceProblem.describe : ChoiceProblem → String
  | arrayField => "array fields cannot be enum-constrained"
  | structField => "struct-typed fields cannot be enum-constrained"
  | notAList => "expected a list such as (a, b, c)"
  | emptyList => "the list of choices is empty"

/-- Why a path leads to no file. -/
inductive PathProblem where
  /-- A name on the path does not exist. -/
  | missing
  /-- A name on the path is a file and the path goes on. -/
  | notDirectory
  /-- The path, or a name on it, has more bytes than a file system takes. -/
  | nameTooLong
  /-- The path holds the character that ends texts for the operating system. -/
  | nulCharacter
  /-- The path is that of a directory where a file is needed. -/
  | isDirectory
  /-- The device behind the path takes no output. -/
  | full
  /-- The operating system gives another reason. -/
  | other (reason : String)
deriving DecidableEq, Repr

/-- The words of the operating system for a path problem. -/
def PathProblem.describe : PathProblem → String
  | missing => "No such file or directory (os error 2)"
  | notDirectory => "Not a directory (os error 20)"
  | nameTooLong => "File name too long (os error 36)"
  | nulCharacter => "file name contained an unexpected NUL byte"
  | isDirectory => "Is a directory (os error 21)"
  | full => "No space left on device (os error 28)"
  | other reason => reason

/-- A failure to read or write. -/
inductive IoProblem where
  /-- No file has this path. -/
  | notFound (path : String)
  /-- The path of the document cannot be followed. -/
  | unresolved (path : String) (problem : PathProblem)
  /-- The file is not UTF-8 text. -/
  | notText (path : String)
  /-- Standard input is not UTF-8 text. -/
  | inputNotText
  /-- No output format has this name. -/
  | unknownFormat (name : String)
  /-- The output cannot be written. -/
  | notWritten (path : String) (problem : PathProblem)
  /-- The receiver of the output refuses it. -/
  | refused (reason : String)
deriving DecidableEq, Repr

def IoProblem.message : IoProblem → String
  | notFound path => "file not found: " ++ path
  | unresolved path problem => "failed to resolve path " ++ path ++ ": " ++ problem.describe
  | notText path => "failed to read " ++ path ++ ": stream did not contain valid UTF-8"
  | inputNotText => "failed to read stdin: stream did not contain valid UTF-8"
  | unknownFormat name =>
    "unknown output format '" ++ name ++ "'. Use: json, json-pretty, yaml"
  | notWritten path problem => "failed to write " ++ path ++ ": " ++ problem.describe
  | refused reason => reason

/-- A cause for rejecting a document. -/
inductive Fault where
  /-- A line that cannot stand where it stands. -/
  | unexpectedLine (location : Location) (problem : LineProblem)
  /-- A literal without its closing quote; `multiline` if the end of the document was reached. -/
  | unclosedString (location : Location) (multiline : Bool) (quote : Quote)
  | invalidEscape (location : Location) (sequence : String) (problem : Escape.Problem)
  /-- A round bracket without its closing bracket at the end of the document. -/
  | unclosedList (location : Location)
  | outsideStruct (location : Location) (line : StructLine)
  | includeNotFound (location : Location) (path : String)
  /-- A token is no value of the scalar type. -/
  | typeMismatch (location : Location) (expected : ScalarType) (found : String)
  | malformedArray (location : Location) (found : String)
  /-- A token is not of the form `Name(…)`. -/
  | malformedCall (location : Location) (found : String) (expected : String)
  | invalidChoices (location : Location) (field : String) (problem : ChoiceProblem)
  | choiceViolation (field : String) (value : String) (choices : List String)
  /-- A struct that is not among the known ones. -/
  | unknownStruct (name : String) (key : String) (known : List String)
  /-- A field that is not among the known ones of its struct. -/
  | unknownField (struct : String) (field : String) (known : List String)
  | unknownKey (struct : String) (key : String)
  | tooManyArguments (struct : String) (count : Nat) (max : Nat)
  | positionalAfterNamed (struct : String)
  /-- A path that comes back to where it was. -/
  | circular (chain : List String)
  | io (problem : IoProblem)
  /-- A sum does not fit the word that it is computed in, and the program stops. -/
  | overflow
deriving DecidableEq, Repr

namespace Fault

def location? : Fault → Option Location
  | unexpectedLine l _ | unclosedString l _ _ | invalidEscape l _ _ | unclosedList l
  | outsideStruct l _ | includeNotFound l _ | typeMismatch l _ _ | malformedArray l _
  | malformedCall l _ _ | invalidChoices l _ _ => some l
  | choiceViolation .. | unknownStruct .. | unknownField .. | unknownKey .. | tooManyArguments ..
  | positionalAfterNamed _ | circular _ | io _ | overflow => none

/-- The wording of a fault without its location. -/
def statement : Fault → String
  | unexpectedLine _ problem => problem.message
  | unclosedString _ multiline _ =>
    "unterminated " ++ if multiline then "multi-line string" else "string"
  | invalidEscape _ sequence _ => "invalid escape sequence " ++ sequence
  | unclosedList _ => "unterminated parenthesized list"
  | outsideStruct _ line => line.describe ++ " outside of a struct block"
  | includeNotFound _ path => "include not found: " ++ path
  | typeMismatch _ expected found => "expected " ++ expected.name ++ ", found '" ++ found ++ "'"
  | malformedArray _ found => "malformed array '" ++ found ++ "'"
  | malformedCall _ found _ => "malformed struct call '" ++ found ++ "'"
  | invalidChoices _ field problem =>
    "invalid enum constraint on field '" ++ field ++ "': " ++ problem.describe
  | choiceViolation field value _ =>
    "value '" ++ value ++ "' is not allowed for field '" ++ field ++ "'"
  | unknownStruct name key _ =>
    "unknown struct '" ++ name ++ "' (referenced with key '" ++ key ++ "')"
  | unknownField struct field _ => "unknown field '" ++ field ++ "' in struct '" ++ struct ++ "'"
  | unknownKey struct key => "no '" ++ struct ++ "' instance has primary key '" ++ key ++ "'"
  | tooManyArguments struct count max =>
    "too many positional arguments for struct '" ++ struct ++ "': got " ++ toString count ++
      ", fields declared: " ++ toString max
  | positionalAfterNamed struct =>
    "positional argument after named arguments for struct '" ++ struct ++ "'"
  | circular chain => "circular reference: " ++ " -> ".intercalate chain
  | io problem => "I/O error: " ++ problem.message
  | overflow => "attempt to add with overflow"

def message (f : Fault) : String :=
  match f.location? with
  | some l => l.display ++ ": " ++ f.statement
  | none => f.statement

/-- The code under which a kind of fault is documented. -/
def code? : Fault → Option String
  | unexpectedLine .. => some "E0001"
  | unclosedString .. => some "E0004"
  | invalidEscape .. => some "E0005"
  | unclosedList _ => some "E0006"
  | outsideStruct .. => some "E0007"
  | includeNotFound .. => some "E0101"
  | typeMismatch .. => some "E0202"
  | malformedArray .. => some "E0207"
  | malformedCall .. => some "E0208"
  | invalidChoices .. => some "E0209"
  | choiceViolation .. => some "E0210"
  | unknownStruct .. => some "E0301"
  | unknownField .. => some "E0302"
  | unknownKey .. => some "E0303"
  | tooManyArguments .. => some "E0304"
  | positionalAfterNamed _ => some "E0305"
  | circular _ => some "E0501"
  | io _ | overflow => none

/-- The advice for a token that is no value of a type. Every text is a value of the types that are
not named here. -/
def typeHelp : ScalarType → String
  | .bool => "booleans are written as true or false"
  | .int => "integers are decimal, or prefixed with 0x, 0o or 0b"
  | .float => "floats look like 1.5 or 2e10"
  | .struct name => "this field holds " ++ name ++ " values"
  | .str | .date | .time | .dateTime => ""

def help? : Fault → Option String
  | unexpectedLine _ problem => some problem.help
  | unclosedString _ _ quote => some ("add the closing " ++ String.ofList quote.delimiter)
  | invalidEscape _ _ problem => some problem.help
  | unclosedList _ => some "add the closing ')'"
  | outsideStruct .. => some "declare a struct header such as `Name:` before this line"
  | includeNotFound .. => none
  | typeMismatch _ expected _ => some (typeHelp expected)
  | malformedArray .. => some "arrays are written as [a, b, c] or []"
  | malformedCall _ _ expected => some ("expected " ++ expected ++ "(...)")
  | invalidChoices .. => some "enum constraints are only allowed on non-array scalar fields"
  | choiceViolation _ _ choices => some ("allowed values: " ++ ", ".intercalate choices)
  | unknownStruct name _ known => some (Suggestion.advice name "struct" known)
  | unknownField _ field known => some (Suggestion.advice field "field" known)
  | unknownKey .. => some "references are matched against the rendered text of the primary key"
  | tooManyArguments .. => some "remove the extra arguments or declare more fields"
  | positionalAfterNamed _ =>
    some "move positional arguments before any `name: value` argument"
  | circular _ => some "a referenced row cannot refer back to itself"
  | io _ | overflow => none

/-- The source line of a fault with carets under the place, where it has one. -/
def snippet? (f : Fault) : Option String := f.location?.map Location.snippet

end Fault

end RowConfig
