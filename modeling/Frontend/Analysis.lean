import Frontend.Diagnostic.Report
import Frontend.Grammar.Program
import Frontend.Scope.Resolution
import Frontend.Types.Inference

/-!
# Analysis

The analysis of a source runs in stages. The tokens and the tree have to be
right, or the first thing wrong with them ends the analysis. Names and types are
then found for the whole tree, whatever is wrong with them.
-/

namespace Frontend

/-- What is known of a program. -/
structure Analysis where
  tree : Tree
  names : NameTable
  types : TypeTable

namespace Analysis

/-- The text of the type of every declared name, in the order of declaration. -/
def nameTypes
    (names : NameTable)
    (types : TypeTable) :
    Except Fault (List (QualifiedName × Option String)) :=
  (names.declarations.toList.filterMap names.name?).mapM fun name => do
    return (name, <- types.renderName? name)

end Analysis

namespace Tree

/-- Find the names and types of a tree, and report what is wrong with them. -/
def analyze (tree : Tree) (report : Report) :
    Except Fault (Analysis × Report) := do
  let resolution <- tree.resolution
  let names <- resolution.names tree
  let inference <- tree.inference names
  let types <- inference.table
  return (
    { tree, names, types },
    (report.append resolution.diagnostics).append inference.diagnostics)

end Tree

namespace Source

/-- The tree of a source. -/
def tree (source : Source) : Except (Stop Diagnostic) Tree :=
  match source.stream with
  | .ok stream => stream.tree
  | .error diagnostic => .error (.failed diagnostic)

/-- Analyse a source, and report what is wrong with it. There is an analysis if
there is a tree. -/
def analyze (source : Source) (report : Report) :
    Except Fault (Option Analysis × Report) :=
  match source.tree with
  | .error (.fault fault) => .error fault
  | .error (.failed diagnostic) => .ok (none, report.push diagnostic)
  | .ok tree => do
      let (analysis, report) <- tree.analyze report
      return (some analysis, report)

end Source

end Frontend
