import Frontend.Analysis
import Frontend.CommandLine.Excerpt
import Frontend.CommandLine.Options
import Frontend.CommandLine.Workspace
import Frontend.Tree.Dump

/-!
# Runs of the command line

A run reads one file, analyses it, prints what the options ask for, and then
shows what is wrong with the file. It ends with an exit code: zero if nothing is
wrong, one if something is, two if the arguments are wrong, and 101 if the run
breaks off.
-/

namespace Frontend
namespace CommandLine

/-- What a run leaves behind. -/
structure Outcome where
  exitCode : Nat
  /-- The lines of the standard output. -/
  output : List String := []
  /-- The lines of the standard error. -/
  errors : List String := []
  deriving DecidableEq, Repr

namespace Outcome

/-- Lines as one text. -/
def text (lines : List String) : String :=
  String.join (lines.map (· ++ "\n"))

end Outcome

/-- The name and version of the program. -/
def version : String := "sema 0.1.0"

/-- What the program is and which arguments it takes. -/
def help : List String :=
  ["Resolve names and infer types for a source file",
    "",
    "Usage: sema [OPTIONS] <FILE>",
    "",
    "Arguments:",
    "  <FILE>  Source file to analyze",
    "",
    "Options:",
    "      --max-errors <MAX_ERRORS>  Maximum number of errors to print [default: 10]",
    "      --dump-tree                Print the syntax tree as an S-expression",
    "      --dump-names               Print every declaration with its qualified name",
    "      --dump-types               Print the inferred type of every declaration",
    "  -v, --verbose...               Increases the level of verbosity",
    "  -h, --help                     Print help",
    "  -V, --version                  Print version"]

/-- The last name of a path that leads to a file. -/
def fileName (path : String) : String :=
  (Workspace.names path).getLast?.getD path

section Dumps

variable (analysis : Analysis)

/-- The declarations, each with its place and its qualified name. -/
def nameLines : Except Fault (List String) := do
  let declared := analysis.names.declarations.toList.filterMap fun node =>
    (analysis.names.name? node).map fun name => (node, name)
  declared.mapM fun (node, name) => do
    let location <- analysis.tree.location node
    return s!"{location.line}:{location.column}\t{name.text}"

/-- The declared names with their types. -/
def typeLines : Except Fault (List String) := do
  let nameTypes <- Analysis.nameTypes analysis.names analysis.types
  return nameTypes.map fun (name, type) => name.text ++ ": " ++ type.getD "?"

/-- What the options ask to print about a program. -/
def dumpLines (options : Options) : Except Fault (List String) := do
  let tree <-
    if options.dumpTree then List.singleton <$> analysis.tree.dump else pure []
  let names <- if options.dumpNames then nameLines analysis else pure []
  let types <- if options.dumpTypes then typeLines analysis else pure []
  return tree ++ names ++ types

end Dumps

/-- The display of a whole report. -/
def displayAll (report : Report) (text path : String) : Diagnostic.Display :=
  let displays := report.shown.map (·.display text path)
  let omission : Diagnostic.Display := { lines := report.omission?.toList }
  displays.foldr Diagnostic.Display.append omission

/-- The run on a file with this text. -/
def runOnText (options : Options) (text : String) : Except Fault Outcome := do
  let source := Source.ofText text (some (fileName options.path))
  let (analysis, report) <- source.analyze (.empty options.maxErrors)
  let output <-
    match analysis with
    | some analysis => dumpLines analysis options
    | none => pure []
  let shown := displayAll report text options.path
  return {
    exitCode := if report.isEmpty then 0 else if shown.complete then 1 else 101
    output
    errors := shown.lines }

/-- The run on what could be read of a file. -/
def runOnFile
    (options : Options)
    (content : Except ReadError String) : Except Fault Outcome :=
  match content with
  | .ok text => runOnText options text
  | .error error =>
      .ok
        { exitCode := 1
          errors := [s!"Error: failed to read {options.path}: {error.message}"] }

/-- The run with these arguments, where `read` gives the text of the file at a
path. -/
def run
    (read : String -> Except ReadError String)
    (arguments : List String) : Except Fault Outcome :=
  match readRequest arguments with
  | .error error => .ok { exitCode := 2, errors := [s!"error: {error.message}"] }
  | .ok .version => .ok { exitCode := 0, output := [version] }
  | .ok .help => .ok { exitCode := 0, output := help }
  | .ok (.analyze options) => runOnFile options (read options.path)

end CommandLine
end Frontend
