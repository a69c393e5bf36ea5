import Frontend.CommandLine.Run

/-!
# The program

Reads the file that the arguments name, and prints the outcome of the run.
-/

namespace Frontend
namespace CommandLine

/-- What a failure of the file system says about a file. -/
def ReadError.ofError : IO.Error -> ReadError
  | .noFileOrDirectory .. => .notFound
  | .inappropriateType _ _ "not a directory" => .notDirectory
  | .inappropriateType .. => .isDirectory
  | .invalidArgument _ _ "name too long" => .nameTooLong
  | error => .other (toString error)

/-- The text of the file at a path. -/
def readText (path : String) : IO (Except ReadError String) := do
  try
    match String.fromUTF8? (<- IO.FS.readBinFile path) with
    | some text => return .ok text
    | none => return .error .notText
  catch error => return .error (.ofError error)

/-- What can be read of the file that the arguments name, if they name one. -/
def readNamed (arguments : List String) : IO (Except ReadError String) := do
  match readRequest arguments with
  | .ok (.analyze options) => readText options.path
  | _ => return .error .notFound

end CommandLine
end Frontend

open Frontend.CommandLine in
/-- Runs the command line. -/
def main (arguments : List String) : IO UInt32 := do
  let content <- readNamed arguments
  match run (fun _ => content) arguments with
  | .ok outcome =>
      (<- IO.getStdout).putStr (Outcome.text outcome.output)
      (<- IO.getStderr).putStr (Outcome.text outcome.errors)
      return UInt32.ofNat outcome.exitCode
  | .error fault =>
      (<- IO.getStderr).putStrLn s!"internal fault: {repr fault}"
      return 101
