import Frontend.Diagnostic.Report
import Frontend.Text.Numeral

/-!
# Options

The arguments of the command line are read from left to right. The first thing
that is wrong with them ends the reading, and so does a request for the version
or for help. Every flag but the one for verbosity may be given once.
-/

namespace Frontend
namespace CommandLine

/-- What is wrong with the arguments. -/
inductive UsageError
  /-- There is no such flag. -/
  | unknownFlag (argument : String)
  /-- The flag was given before. -/
  | repeatedFlag (flag : String)
  /-- The flag takes no value. -/
  | unneededValue (flag value : String)
  /-- The flag takes a value. -/
  | missingValue (flag : String)
  /-- The flag does not take this value. -/
  | badValue (flag value : String)
  /-- There is more than one file. -/
  | secondFile (path : String)
  /-- The name of the file is empty. -/
  | emptyFile
  /-- There is no file. -/
  | missingFile
  deriving DecidableEq, Repr

/-- The error in words. -/
def UsageError.message : UsageError -> String
  | .unknownFlag argument => s!"unexpected argument '{argument}'"
  | .repeatedFlag flag => s!"'{flag}' cannot be used multiple times"
  | .unneededValue flag value => s!"unexpected value '{value}' for '{flag}'"
  | .missingValue flag => s!"a value is required for '{flag}'"
  | .badValue flag value => s!"invalid value '{value}' for '{flag}'"
  | .secondFile path => s!"unexpected argument '{path}'"
  | .emptyFile => "the name of the file is empty"
  | .missingFile => "no file is given"

/-- What to do with a file. -/
structure Options where
  path : String
  /-- The number of errors to print. -/
  maxErrors : Nat
  /-- Print the syntax tree. -/
  dumpTree : Bool
  /-- Print the declared names. -/
  dumpNames : Bool
  /-- Print the types of the declared names. -/
  dumpTypes : Bool
  verbosity : Nat
  deriving DecidableEq, Repr

/-- What the arguments ask for. -/
inductive Request
  | analyze (options : Options)
  | version
  | help
  deriving DecidableEq, Repr

/-- The arguments read so far. -/
structure Given where
  path : Option String := none
  maxErrors : Option Nat := none
  dumpTree : Bool := false
  dumpNames : Bool := false
  dumpTypes : Bool := false
  verbosity : Nat := 0
  deriving DecidableEq, Repr

namespace Given

variable (given : Given)

/-- Take a file. -/
def withPath (path : String) : Except UsageError Given :=
  if path.isEmpty then
    .error .emptyFile
  else
    match given.path with
    | some _ => .error (.secondFile path)
    | none => .ok { given with path := some path }

/-- Take the number of errors to print. -/
def withMaxErrors (value : String) : Except UsageError Given :=
  if given.maxErrors.isSome then
    .error (.repeatedFlag "--max-errors")
  else
    match Text.natural? value with
    | some number => .ok { given with maxErrors := some number }
    | none => .error (.badValue "--max-errors" value)

/-- Take one more flag for verbosity. -/
def withVerbosity : Given :=
  { given with verbosity := given.verbosity + 1 }

/-- Take a flag that may be given once. -/
def withFlag
    (flag : String)
    (wasGiven : Bool)
    (result : Given) : Except UsageError Given :=
  if wasGiven then .error (.repeatedFlag flag) else .ok result

/-- What all arguments together ask for. -/
def request : Except UsageError Request :=
  match given.path with
  | none => .error .missingFile
  | some path =>
      .ok (.analyze
        { path
          maxErrors := given.maxErrors.getD Report.defaultLimit
          dumpTree := given.dumpTree
          dumpNames := given.dumpNames
          dumpTypes := given.dumpTypes
          verbosity := given.verbosity })

end Given

/-- What a flag without a value means: the arguments with it, or a request that
ends the reading. -/
def readFlag (given : Given) : String -> Except UsageError (Request ⊕ Given)
  | "--dump-tree" =>
      Sum.inr <$> Given.withFlag "--dump-tree" given.dumpTree
        { given with dumpTree := true }
  | "--dump-names" =>
      Sum.inr <$> Given.withFlag "--dump-names" given.dumpNames
        { given with dumpNames := true }
  | "--dump-types" =>
      Sum.inr <$> Given.withFlag "--dump-types" given.dumpTypes
        { given with dumpTypes := true }
  | "--verbose" => .ok (.inr given.withVerbosity)
  | "--version" => .ok (.inl .version)
  | "--help" => .ok (.inl .help)
  | argument => .error (.unknownFlag argument)

/-- The long form of a flag of one letter. -/
def longForm (letter : Char) : Except UsageError String :=
  match letter with
  | 'v' => .ok "--verbose"
  | 'V' => .ok "--version"
  | 'h' => .ok "--help"
  | _ => .error (.unknownFlag s!"-{letter}")

/-- Read flags of one letter that share a dash. -/
def readLetters (given : Given) :
    List Char -> Except UsageError (Request ⊕ Given)
  | [] => .ok (.inr given)
  | letter :: rest => do
      match <- readFlag given (<- longForm letter) with
      | .inl request => return .inl request
      | .inr given => readLetters given rest

/-- Read files only. -/
def readFiles (given : Given) : List String -> Except UsageError Request
  | [] => given.request
  | path :: rest => do readFiles (<- given.withPath path) rest

/-- Read arguments. -/
def readArguments (given : Given) : List String -> Except UsageError Request
  | [] => given.request
  | "--" :: rest => readFiles given rest
  | "--max-errors" :: rest =>
      match rest with
      | [] => .error (.missingValue "--max-errors")
      | value :: rest =>
          if value.startsWith "-" then
            .error (.missingValue "--max-errors")
          else do
            readArguments (<- given.withMaxErrors value) rest
  | argument :: rest =>
      match argument.toList with
      | '-' :: '-' :: _ =>
          let flag := argument.toList.takeWhile (· ≠ '=')
          match argument.toList.dropWhile (· ≠ '=') with
          | '=' :: value =>
              if flag = "--max-errors".toList then do
                readArguments (<- given.withMaxErrors (String.ofList value)) rest
              else
                .error (.unneededValue (String.ofList flag) (String.ofList value))
          | _ => do
              match <- readFlag given argument with
              | .inl request => return request
              | .inr given => readArguments given rest
      | '-' :: letter :: letters => do
          match <- readLetters given (letter :: letters) with
          | .inl request => return request
          | .inr given => readArguments given rest
      | _ => do readArguments (<- given.withPath argument) rest

/-- What the arguments of the command line ask for. -/
def readRequest (arguments : List String) : Except UsageError Request :=
  readArguments {} arguments

end CommandLine
end Frontend
