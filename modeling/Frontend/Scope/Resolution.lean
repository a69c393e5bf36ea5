import Frontend.Diagnostic.Basic
import Frontend.Scope.Name
import Frontend.Scope.Stack
import Frontend.Tree.Walk

/-!
# Resolution of names

A walk through a tree finds, for every identifier, whether it declares a name or
uses one. Roots, blocks and functions are scopes. Inside an expression an
identifier is a usage, and refers to the latest declaration of its text that is
in force; everywhere else it is a declaration. The name of a function is declared
in the scope around the function, before that of the function opens.
-/

namespace Frontend

/-- A node that uses a name, with the record of that name. -/
structure Usage where
  user : NodeId
  declaration : DeclId
  deriving DecidableEq, Repr

/-- What a walk has found. -/
structure Resolution where
  scopes : Scopes := {}
  usages : Array Usage := #[]
  inExpression : Bool := false
  /-- The function names that were declared before the walk reached them. -/
  predeclared : List NodeId := []
  diagnostics : Array Diagnostic := #[]
  deriving DecidableEq, Repr

namespace Resolution

variable (tree : Tree) (resolution : Resolution)

/-- The record is that of a name with this text. -/
def declares (lexeme : String) (declaration : Declaration) : Bool :=
  declaration.isBinding &&
    match tree.text declaration.node with
    | .ok text => text == lexeme
    | .error _ => false

/-- Add a diagnostic. -/
def report (cause : Diagnostic.Cause) (location : Location) : Resolution :=
  { resolution with
    diagnostics := resolution.diagnostics.push { cause, location } }

/-- Declare the text of a node. A second declaration in the same scope is
reported and takes the place of the first. -/
def declare (node : NodeId) : Except Fault Resolution := do
  let lexeme <- tree.text node
  let location <- tree.location node
  let clash := resolution.scopes.lookupInnermost? (declares tree lexeme)
  let resolution :=
    if clash.isSome then
      resolution.report (.redeclared lexeme) location
    else
      resolution
  return { resolution with
    scopes := resolution.scopes.declare node location.line location.column }

/-- Find the declaration that a node refers to. -/
def use (node : NodeId) : Except Fault Resolution := do
  let lexeme <- tree.text node
  match resolution.scopes.lookup? (declares tree lexeme) with
  | some declaration =>
      return { resolution with
        usages := resolution.usages.push { user := node, declaration } }
  | none =>
      return resolution.report (.undeclared lexeme) (<- tree.location node)

/-- Open the scope of a node. -/
def enterScope (node : NodeId) : Except Fault Resolution := do
  let location <- tree.location node
  return { resolution with
    scopes := resolution.scopes.enter node location.line location.column }

/-- What to do on the way into a node. -/
def enter (node : NodeId) : Except Fault Resolution := do
  match (<- tree.node node).tag with
  | .root | .block => resolution.enterScope tree node
  | .function =>
      let name := (<- tree.functionParts node).name
      let resolution <- resolution.declare tree name
      let resolution :=
        { resolution with predeclared := resolution.predeclared.insert name }
      resolution.enterScope tree node
  | .expression => return { resolution with inExpression := true }
  | .identifier =>
      if resolution.inExpression then
        resolution.use tree node
      else if node ∈ resolution.predeclared then
        return { resolution with
          predeclared := resolution.predeclared.erase node }
      else
        resolution.declare tree node
  | _ => return resolution

/-- What to do on the way out of a node. -/
def leave (node : NodeId) : Except Fault Resolution := do
  match (<- tree.node node).tag with
  | .root | .block | .function =>
      return { resolution with scopes := <- resolution.scopes.leave }
  | .expression => return { resolution with inExpression := false }
  | _ => return resolution

/-- One step of the walk. -/
def step : Event -> Except Fault Resolution
  | .enter node => resolution.enter tree node
  | .leave node => resolution.leave tree node

/-- Name the record of this index, if it is that of a name. -/
def nameDeclaration
    (table : NameTable) :
    Declaration × DeclId -> Except Fault NameTable
  | (declaration, id) => do
      if declaration.isBinding then
        let path <- resolution.scopes.path id
        let lexeme <- tree.text declaration.node
        return table.declare declaration.node
          (.ofParts path lexeme declaration.node)
      else
        return table

/-- Name a usage. -/
def nameUsage (table : NameTable) (usage : Usage) : Except Fault NameTable := do
  let declaration <- resolution.scopes.declaration usage.declaration
  return table.use usage.user declaration.node

/-- The table of names that a finished walk has found. -/
def names : Except Fault NameTable := do
  let records := resolution.scopes.declarations.toList.zipIdx
  let declared <- records.foldlM (resolution.nameDeclaration tree) {}
  resolution.usages.foldlM resolution.nameUsage declared

end Resolution

namespace Tree

/-- What a walk through the whole tree finds. -/
def resolution (tree : Tree) : Except Fault Resolution := do
  (<- tree.events).foldlM (Resolution.step tree) {}

end Tree

end Frontend
