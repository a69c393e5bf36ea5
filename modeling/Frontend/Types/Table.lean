import Std.Data.TreeMap
import Frontend.Scope.Name
import Frontend.Types.Repository

/-!
# Type tables

The outcome of inference: a repository in which every type has a representative,
and the types of nodes and names.
-/

namespace Frontend

/-- The types of nodes and names. -/
structure TypeTable where
  repository : Repository := {}
  representatives : Array TypeId := #[]
  nodeTypes : Std.TreeMap NodeId TypeId := {}
  nameTypes : Std.HashMap QualifiedName TypeId := {}

namespace TypeTable

variable (table : TypeTable)

/-- The representative of a type. A type beyond the table is its own. -/
def canonical (id : TypeId) : TypeId :=
  table.representatives[id]?.getD id

/-- The type of a node. -/
def typeOfNode? (node : NodeId) : Option TypeId :=
  table.nodeTypes[node]?.map table.canonical

/-- The type of a name. -/
def typeOfName? (name : QualifiedName) : Option TypeId :=
  table.nameTypes[name]?.map table.canonical

/-- The text of a type. -/
def render (id : TypeId) : Except Fault String :=
  table.repository.render table.canonical id

/-- The text of the type of a node. -/
def renderNode? (node : NodeId) : Except Fault (Option String) :=
  (table.typeOfNode? node).mapM table.render

/-- The text of the type of a name. -/
def renderName? (name : QualifiedName) : Except Fault (Option String) :=
  (table.typeOfName? name).mapM table.render

/-- The nodes that have a type, in ascending order. -/
def typedNodes : List NodeId :=
  table.nodeTypes.keys

end TypeTable

end Frontend
