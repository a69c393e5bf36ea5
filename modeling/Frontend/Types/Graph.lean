import Frontend.Types.Partition
import Frontend.Types.Repository

/-!
# Type graphs

A type graph is a repository together with a partition of its types into sets of
types that are known to be the same. Unification makes two types the same, and
with them the types in their terms. A set that holds a type with a known term has
such a type as its representative.

Unification asks for representatives without shortening the ways to them. Looking
them up with `find` has the same outcome (`Unifier.respects_unify`).
-/

namespace Frontend

/-- Types, and which of them are the same. -/
structure TypeGraph where
  repository : Repository := {}
  partition : Partition := .empty

/-- Why two types cannot be the same. -/
inductive Clash
  /-- Their terms differ in shape or base type. -/
  | mismatch
  /-- A type would be a part of itself. -/
  | occurs
  /-- They are function types with different numbers of subtypes. -/
  | arity
  deriving DecidableEq, Repr

/-- A computation on a type graph. What was merged before a clash stays merged. -/
abbrev Unifier := EStateM (Stop Clash) TypeGraph

namespace TypeGraph

variable (graph : TypeGraph)

/-- Take over a repository with a new type. -/
def withNew : TypeId × Repository -> TypeId × TypeGraph
  | (id, repository) =>
      (id, { repository, partition := graph.partition.insert id })

/-- Add a type of which nothing is known. -/
def fresh (node : Option NodeId) : TypeId × TypeGraph :=
  graph.withNew (graph.repository.fresh node)

/-- The type that stands for a base type. -/
def base (base : BaseType) : TypeId × TypeGraph :=
  graph.withNew (graph.repository.base base)

/-- Add a pointer type. -/
def pointer (pointee : TypeId) : TypeId × TypeGraph :=
  graph.withNew (graph.repository.pointer pointee)

/-- Add a function type. -/
def function (subtypes : List TypeId) : TypeId × TypeGraph :=
  graph.withNew (graph.repository.function subtypes)

/-- The representative of a type. -/
def root (id : TypeId) : TypeId :=
  graph.partition.root id

/-- The text of a type, as far as it is known. -/
def render (id : TypeId) : Except Fault String :=
  graph.repository.render graph.root id

/-- The representative of a type, and the graph with a shorter way to it. -/
def find (id : TypeId) : TypeId × TypeGraph :=
  let (representative, partition) := graph.partition.find id
  (representative, { graph with partition })

/-- Whether a representative is a part of a type, on paths of at most `depth`
types. -/
def occursWithin (part : TypeId) : Nat -> TypeId -> Except Fault Bool
  | 0, _ => .error .endless
  | depth + 1, id => do
      let id := graph.root id
      if id = part then
        return true
      (<- graph.repository.subtypes id).anyM (occursWithin part depth)

/-- Whether a representative is a part of a type. A path with more types than the
graph has runs in a circle. -/
def occurs (part id : TypeId) : Except Fault Bool :=
  graph.occursWithin part (graph.repository.size + 1) id

end TypeGraph

namespace Unifier

/-- The result of a computation that can only fault. -/
def ofFault {α : Type} : Except Fault α -> Unifier α
  | .ok value => pure value
  | .error fault => throw (.fault fault)

/-- Give up because of a clash. -/
def clash {α : Type} (clash : Clash) : Unifier α :=
  throw (.failed clash)

/-- Make the representative of the second type that of both. -/
def merge (source target : TypeId) : Unifier Unit :=
  modify fun graph =>
    { graph with partition := graph.partition.union source target }

/-- Make a type of which nothing is known the same as another one. -/
def assign (source target : TypeId) : Unifier Unit := do
  if <- ofFault ((<- get).occurs source target) then
    clash .occurs
  merge source target

/-- Make two types the same, with calls nested at most `depth` deep. -/
def unifyWithin : Nat -> TypeId -> TypeId -> Unifier Unit
  | 0, _, _ => throw (.fault .endless)
  | depth + 1, left, right => do
      let graph <- get
      let left := graph.root left
      let right := graph.root right
      if left = right then
        return
      let leftTerm <- ofFault (graph.repository.term left)
      let rightTerm <- ofFault (graph.repository.term right)
      match leftTerm, rightTerm with
      | .unbound, .unbound => merge left right
      | .unbound, _ => assign left right
      | _, .unbound => assign right left
      | .base leftBase, .base rightBase =>
          if leftBase = rightBase then
            merge left right
          else
            clash .mismatch
      | .pointer leftPointee, .pointer rightPointee =>
          unifyWithin depth leftPointee rightPointee
          merge left right
      | .function _ _, .function _ _ =>
          let leftSubtypes := graph.repository.termSubtypes leftTerm
          let rightSubtypes := graph.repository.termSubtypes rightTerm
          if leftSubtypes.length ≠ rightSubtypes.length then
            clash .arity
          (leftSubtypes.zip rightSubtypes).forM fun (left, right) =>
            unifyWithin depth left right
          merge left right
      | _, _ => clash .mismatch

/-- Make two types the same. Calls that are nested deeper than this ask twice for
the same two representatives without a merger between, and so never end. -/
def unify (left right : TypeId) : Unifier Unit := do
  let size := (<- get).repository.size
  unifyWithin (Nat.pow (size + 1) 3) left right

end Unifier

end Frontend
