import Std.Data.HashMap
import Frontend.Tree.Basic
import Frontend.Types.Base

/-!
# Repositories of types

A repository holds types by index. The term of a type says what is known of it;
the types in it are named by index as well. The subtypes of a function type are a
run in a pool that all function types share: first the parameters, last the
result.
-/

namespace Frontend

/-- What is known of a type. -/
inductive Term
  /-- Nothing is known. -/
  | unbound
  | base (base : BaseType)
  | pointer (pointee : TypeId)
  /-- A function type by the bounds of its run in the pool. -/
  | function (start stop : Nat)
  deriving DecidableEq, Repr

/-- The shapes of terms. -/
inductive Shape
  | identity
  | pointer
  | function
  deriving DecidableEq, Repr

/-- The shape of a term. -/
def Term.shape : Term -> Shape
  | .unbound | .base _ => .identity
  | .pointer _ => .pointer
  | .function _ _ => .function

/-- A type with the node it was made for, if it was made for one. -/
structure TypeEntry where
  node : Option NodeId
  term : Term
  deriving DecidableEq, Repr

/-- Types by index. -/
structure Repository where
  entries : Array TypeEntry := #[]
  pool : Array TypeId := #[]
  /-- The types that stand for base types, at most one for each. -/
  bases : List (BaseType × TypeId) := []
  deriving DecidableEq, Repr

namespace Repository

variable (repository : Repository)

/-- The number of types. -/
def size : Nat :=
  repository.entries.size

/-- Add a type. -/
def push (node : Option NodeId) (term : Term) : TypeId × Repository :=
  (repository.size,
    { repository with entries := repository.entries.push { node, term } })

/-- Add a type of which nothing is known. -/
def fresh (node : Option NodeId) : TypeId × Repository :=
  repository.push node .unbound

/-- The one type that stands for a base type. It is added when it is first asked
for. -/
def base (base : BaseType) : TypeId × Repository :=
  match repository.bases.lookup base with
  | some id => (id, repository)
  | none =>
      let (id, repository) := repository.push none (.base base)
      (id, { repository with bases := repository.bases ++ [(base, id)] })

/-- Add a pointer type. -/
def pointer (pointee : TypeId) : TypeId × Repository :=
  repository.push none (.pointer pointee)

/-- Add a function type. The last subtype is that of the result. -/
def function (subtypes : List TypeId) : TypeId × Repository :=
  let start := repository.pool.size
  let pool := repository.pool ++ subtypes
  { repository with pool }.push none (.function start pool.size)

/-- The entry of a type. -/
def entry (id : TypeId) : Except Fault TypeEntry :=
  match repository.entries[id]? with
  | some entry => .ok entry
  | none => .error (.type id)

/-- The term of a type. -/
def term (id : TypeId) : Except Fault Term := do
  return (<- repository.entry id).term

/-- The types in a term. -/
def termSubtypes : Term -> List TypeId
  | .unbound | .base _ => []
  | .pointer pointee => [pointee]
  | .function start stop => (repository.pool.extract start stop).toList

/-- The types in the term of a type. -/
def subtypes (id : TypeId) : Except Fault (List TypeId) := do
  return repository.termSubtypes (<- repository.term id)

section Rendering

variable (resolve : TypeId -> TypeId)

/-- The text of a type, on paths of at most `depth` types. -/
def renderWithin : Nat -> TypeId -> Except Fault String
  | 0, _ => .error .endless
  | depth + 1, id => do
      let id := resolve id
      match <- repository.term id with
      | .unbound => return s!"'t{id}"
      | .base base => return base.name
      | .pointer pointee =>
          let part <- renderWithin depth pointee
          return s!"(^ {part})"
      | .function start stop =>
          let subtypes := repository.termSubtypes (.function start stop)
          let parts <- subtypes.mapM (renderWithin depth)
          return "(FN" ++ String.join (parts.map (" " ++ ·)) ++ ")"

/-- The text of a type, where `resolve` replaces every type that is met. A path
with more types than the repository has runs in a circle. -/
def render (id : TypeId) : Except Fault String :=
  repository.renderWithin resolve (repository.size + 1) id

end Rendering

section Canonical

variable (representatives : Array TypeId)

/-- The representative of a type, by a list. -/
def representative (id : TypeId) : Except Fault TypeId :=
  match representatives[id]? with
  | some representative => .ok representative
  | none => .error (.representative id)

/-- The term of a type with representatives for the types in it, and the pool to
which its run has been added. -/
def canonicalTerm (pool : Array TypeId) :
    Term -> Except Fault (Term × Array TypeId)
  | .unbound => .ok (.unbound, pool)
  | .base base => .ok (.base base, pool)
  | .pointer pointee => do
      return (.pointer (<- representative representatives pointee), pool)
  | .function start stop => do
      let subtypes := repository.termSubtypes (.function start stop)
      let run <- subtypes.mapM (representative representatives)
      let extended := pool ++ run
      return (.function pool.size extended.size, extended)

/-- A repository under construction, with the terms that representatives have in
it. -/
structure Canonicalization where
  entries : Array TypeEntry := #[]
  pool : Array TypeId := #[]
  terms : Std.HashMap TypeId Term := {}

/-- Add the next type with the term of its representative. -/
def canonicalEntry
    (progress : Canonicalization)
    (entry : TypeEntry) : Except Fault Canonicalization := do
  let id <- representative representatives progress.entries.size
  match progress.terms[id]? with
  | some term =>
      return { progress with
        entries := progress.entries.push { entry with term } }
  | none =>
      let (term, pool) <-
        repository.canonicalTerm representatives progress.pool
          (<- repository.term id)
      return {
        entries := progress.entries.push { entry with term }
        pool
        terms := progress.terms.insert id term }

/-- The repository in which every type has the term of its representative, and
every type in a term is a representative. -/
def canonicalize : Except Fault Repository := do
  let progress <-
    repository.entries.foldlM (repository.canonicalEntry representatives) {}
  let bases <- repository.bases.mapM fun (base, id) => do
    return (base, <- representative representatives id)
  return { entries := progress.entries, pool := progress.pool, bases }

end Canonical

end Repository

end Frontend
