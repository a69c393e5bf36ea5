import Std.Data.HashMap
import Frontend.Tree.Basic

/-!
# Qualified names

A qualified name tells declarations of one text apart: it gives the nodes of the
scopes around the declaration, the declared text and the declaring node.

The table of names knows the name of every declaration and gives a usage the
name of the declaration that it refers to.
-/

namespace Frontend

/-- The name of a declaration, unique in its program. -/
structure QualifiedName where
  text : String
  deriving DecidableEq, Hashable, Repr

namespace QualifiedName

/-- The name of a declaration by the scopes around it, outermost first. -/
def ofParts
    (scopes : List NodeId)
    (lexeme : String)
    (node : NodeId) : QualifiedName :=
  ⟨String.join (scopes.map fun scope => s!"{scope}::") ++ s!"{lexeme}#{node}"⟩

/-- The order of names is the order of their texts. -/
def order (left right : QualifiedName) : Ordering :=
  compare left.text right.text

end QualifiedName

/-- The names of declarations and usages. -/
structure NameTable where
  nameOfNode : Std.HashMap NodeId QualifiedName := {}
  nodeOfName : Std.HashMap QualifiedName NodeId := {}
  /-- The declaring nodes, in the order of their declaration. -/
  declarations : Array NodeId := #[]
  /-- The nodes that use a name, each with the declaring node, in the order of
  the text. -/
  usages : Array (NodeId × NodeId) := #[]

namespace NameTable

variable (table : NameTable)

/-- Name a declaration. -/
def declare (node : NodeId) (name : QualifiedName) : NameTable :=
  { table with
    nameOfNode := table.nameOfNode.insert node name
    nodeOfName := table.nodeOfName.insert name node
    declarations := table.declarations.push node }

/-- Give a usage the name of its declaration. A declaration without a name has no
usages. -/
def use (user declaration : NodeId) : NameTable :=
  match table.nameOfNode[declaration]? with
  | some name =>
      { table with
        nameOfNode := table.nameOfNode.insert user name
        usages := table.usages.push (user, declaration) }
  | none => table

/-- The name of a declaration or usage. -/
def name? (node : NodeId) : Option QualifiedName :=
  table.nameOfNode[node]?

/-- The declaration of this name. -/
def node? (name : QualifiedName) : Option NodeId :=
  table.nodeOfName[name]?

/-- The declaration that a usage or declaration refers to. -/
def declarationOf? (node : NodeId) : Option NodeId :=
  (table.name? node).bind table.node?

end NameTable

end Frontend
