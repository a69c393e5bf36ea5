import Frontend.Types.Graph
import Mathlib.Data.List.Forall2

/-!
# Solutions of type graphs

A type graph is a system of equations between finite type trees. A solution gives
every type a tree, such that types of one set have one tree, and a type of which
something is known has the tree that this makes of the trees of its subtypes.

What is known of a type is one layer of a tree. Layers are functorial in their
parts, so that the same layer is read with types, with representatives or with
trees as its parts.
-/

namespace Frontend

/-- The outermost layer of a type, with its parts. -/
inductive Layer (Part : Type)
  | base (base : BaseType)
  | pointer (pointee : Part)
  /-- The last subtype is that of the result. -/
  | function (subtypes : List Part)
  deriving DecidableEq, Repr

/-- A finite type tree. Its leaves are base types and variables. -/
inductive TypeTree (Var : Type)
  | var (name : Var)
  | base (base : BaseType)
  | pointer (pointee : TypeTree Var)
  /-- The last subtype is that of the result. -/
  | function (subtypes : List (TypeTree Var))
  deriving Repr

namespace Layer

variable {Part Other Third : Type}

/-- Replace every part. -/
def map (change : Part -> Other) : Layer Part -> Layer Other
  | .base kind => .base kind
  | .pointer pointee => .pointer (change pointee)
  | .function subtypes => .function (subtypes.map change)

/-- The parts in order. -/
def parts : Layer Part -> List Part
  | .base _ => []
  | .pointer pointee => [pointee]
  | .function subtypes => subtypes

/-- The layers differ at most in their parts. -/
def SameShape : Layer Part -> Layer Other -> Prop
  | .base left, .base right => left = right
  | .pointer _, .pointer _ => True
  | .function left, .function right => left.length = right.length
  | _, _ => False

@[simp] theorem map_map
    (first : Part -> Other)
    (second : Other -> Third)
    (layer : Layer Part) :
    (layer.map first).map second = layer.map (second ∘ first) := by
  cases layer <;> simp [map]

theorem map_congr
    {first second : Part -> Other}
    {layer : Layer Part}
    (agree : ∀ part ∈ layer.parts, first part = second part) :
    layer.map first = layer.map second := by
  cases layer with
  | base base => rfl
  | pointer pointee => simp [map, agree pointee (by simp [parts])]
  | function subtypes =>
      simp only [map, function.injEq]
      exact List.map_congr_left agree

theorem parts_map (change : Part -> Other) (layer : Layer Part) :
    (layer.map change).parts = layer.parts.map change := by
  cases layer <;> rfl

/-- A layer is determined by its shape and its parts. -/
theorem map_eq_map_iff
    (change : Part -> Other)
    (left right : Layer Part) :
    left.map change = right.map change ↔
      left.SameShape right ∧
        ∀ pair ∈ left.parts.zip right.parts, change pair.1 = change pair.2 := by
  cases left <;> cases right <;> simp [map, SameShape, parts]
  case function.function left right =>
      rw [← List.forall₂_eq_eq_eq, List.forall₂_map_left_iff,
        List.forall₂_map_right_iff, List.forall₂_iff_zip]

end Layer

namespace TypeTree

variable {Var Other : Type}

/-- The tree with this layer on top. -/
def ofLayer : Layer (TypeTree Var) -> TypeTree Var
  | .base kind => .base kind
  | .pointer pointee => .pointer pointee
  | .function subtypes => .function subtypes

theorem ofLayer_injective :
    Function.Injective (ofLayer : Layer (TypeTree Var) -> TypeTree Var) := by
  intro left right equal
  cases left <;> cases right <;> simp_all [ofLayer]

/-- A part of a tree is smaller than the tree. -/
theorem sizeOf_lt_ofLayer
    {layer : Layer (TypeTree Var)}
    {part : TypeTree Var}
    (present : part ∈ layer.parts) :
    sizeOf part < sizeOf (ofLayer layer) := by
  cases layer with
  | base base => simp [Layer.parts] at present
  | pointer pointee =>
      simp only [Layer.parts, List.mem_singleton] at present
      simp [ofLayer, present]
  | function subtypes =>
      have smaller : sizeOf part < sizeOf subtypes :=
        List.sizeOf_lt_of_mem present
      simp only [ofLayer, function.sizeOf_spec]
      omega

/-- Replace every variable by a tree. -/
def subst (values : Var -> TypeTree Other) : TypeTree Var -> TypeTree Other
  | .var name => values name
  | .base kind => .base kind
  | .pointer pointee => .pointer (pointee.subst values)
  | .function subtypes => .function (subtypes.map (subst values))

/-- A function type between variables becomes one between their trees. -/
theorem subst_function_var (values : Var -> TypeTree Other) (names : List Var) :
    (function (names.map var)).subst values = function (names.map values) := by
  rw [subst, List.map_map]
  congr 2
  funext name
  rw [Function.comp_apply, subst]

/-- Variables are replaced in every part. -/
theorem subst_ofLayer (values : Var -> TypeTree Other) (layer : Layer (TypeTree Var)) :
    (ofLayer layer).subst values = ofLayer (layer.map (subst values)) := by
  cases layer <;> simp [ofLayer, Layer.map, subst]

end TypeTree

namespace Repository

variable (repository : Repository)

/-- What a term says, if it says anything. -/
def layerOfTerm? : Term -> Option (Layer TypeId)
  | .unbound => none
  | .base base => some (.base base)
  | .pointer pointee => some (.pointer pointee)
  | .function start stop =>
      some (.function (repository.termSubtypes (.function start stop)))

/-- What is known of a type. -/
def layer? (id : TypeId) : Option (Layer TypeId) :=
  match repository.term id with
  | .ok term => repository.layerOfTerm? term
  | .error _ => none

theorem layerOfTerm?_eq_none_iff (term : Term) :
    repository.layerOfTerm? term = none ↔ term = .unbound := by
  cases term <;> simp [layerOfTerm?]

/-- The parts of a layer are the subtypes of the term. -/
theorem parts_of_layerOfTerm?
    {term : Term}
    {layer : Layer TypeId}
    (known : repository.layerOfTerm? term = some layer) :
    layer.parts = repository.termSubtypes term := by
  cases term <;> simp_all [layerOfTerm?]
  all_goals subst known; rfl

/-- A type has a term exactly if it exists. -/
theorem exists_term_iff (id : TypeId) :
    (∃ term, repository.term id = .ok term) ↔ id < repository.size := by
  unfold term entry size
  by_cases bound : id < repository.entries.size
  · simp only [Array.getElem?_eq_getElem bound, bound, iff_true]
    exact ⟨_, rfl⟩
  · simp only [Array.getElem?_eq_none (Nat.le_of_not_lt bound), bound, iff_false]
    rintro ⟨term, found⟩
    cases found

/-- Only of a type that exists is something known. -/
theorem lt_size_of_layer?
    {id : TypeId}
    {layer : Layer TypeId}
    (known : repository.layer? id = some layer) :
    id < repository.size := by
  rw [← exists_term_iff]
  unfold layer? at known
  split at known
  next term found => exact ⟨term, found⟩
  next => cases known

section Trees

variable {Var Other : Type} (resolve : TypeId -> TypeId) (values : TypeId -> TypeTree Var)

/-- The tree of a type down to this depth, where `resolve` replaces every type that is
met. A type of which nothing is known has the tree that it is given. -/
def treeWithin : Nat -> TypeId -> TypeTree Var
  | 0, id => values (resolve id)
  | depth + 1, id =>
      match repository.layer? (resolve id) with
      | some layer => .ofLayer (layer.map (treeWithin depth))
      | none => values (resolve id)

/-- The tree of a type. A path with more types than the repository has runs in a
circle. -/
def tree (id : TypeId) : TypeTree Var :=
  repository.treeWithin resolve values (repository.size + 1) id

/-- The tree of a type depends only on what the type is replaced by. -/
theorem treeWithin_congr
    {left right : TypeId}
    (same : resolve left = resolve right)
    (depth : Nat) :
    repository.treeWithin resolve values depth left =
      repository.treeWithin resolve values depth right := by
  cases depth <;> simp only [treeWithin, same]

/-- Replacing the variables in a tree is replacing them in the trees that are given. -/
theorem subst_treeWithin (change : Var -> TypeTree Other) (depth : Nat) (id : TypeId) :
    (repository.treeWithin resolve values depth id).subst change =
      repository.treeWithin resolve (fun id => (values id).subst change) depth id := by
  induction depth generalizing id with
  | zero => rfl
  | succ depth ih =>
      simp only [treeWithin]
      split
      next layer known =>
        rw [TypeTree.subst_ofLayer, Layer.map_map]
        congr 1
        apply Layer.map_congr
        intro part _
        exact ih part
      next => rfl

end Trees

end Repository

namespace TypeGraph

variable {Var : Type} (graph : TypeGraph)

/-- The types are in one set. -/
def Same (left right : TypeId) : Prop :=
  graph.root left = graph.root right

/-- The trees solve the equations of a graph. -/
structure Solves (trees : TypeId -> TypeTree Var) : Prop where
  same : ∀ left right, graph.Same left right -> trees left = trees right
  layer : ∀ id layer,
    graph.repository.layer? id = some layer ->
      trees id = .ofLayer (layer.map trees)

/-- The graph in which the first set is merged into the second. -/
def merge (source target : TypeId) : TypeGraph :=
  { graph with partition := graph.partition.union source target }

variable {graph}

theorem Same.symm {left right : TypeId} (same : graph.Same left right) :
    graph.Same right left :=
  Eq.symm same

/-- A type is in the set of its representative. -/
theorem same_root (id : TypeId) : graph.Same id (graph.root id) :=
  (graph.partition.root_root id).symm

@[simp] theorem root_root (id : TypeId) :
    graph.root (graph.root id) = graph.root id :=
  graph.partition.root_root id

theorem root_merge (source target id : TypeId) :
    (graph.merge source target).root id =
      if graph.root id = graph.root source then
        graph.root target
      else
        graph.root id :=
  graph.partition.root_union source target id

/-- What was the same remains the same. -/
theorem Same.merge
    {left right : TypeId}
    (same : graph.Same left right)
    (source target : TypeId) :
    (graph.merge source target).Same left right := by
  unfold Same at same ⊢
  rw [root_merge, root_merge, same]

theorem same_merge (source target : TypeId) :
    (graph.merge source target).Same source target := by
  unfold Same
  rw [root_merge, root_merge, if_pos rfl]
  split <;> rfl

namespace Solves

variable {trees : TypeId -> TypeTree Var}

/-- A type has the tree of its representative. -/
theorem root (solves : graph.Solves trees) (id : TypeId) :
    trees (graph.root id) = trees id :=
  solves.same _ _ (same_root id).symm

/-- The trees of types of one set are built from the same parts. -/
theorem map_eq_map
    (solves : graph.Solves trees)
    {left right : TypeId}
    {leftLayer rightLayer : Layer TypeId}
    (leftKnown : graph.repository.layer? left = some leftLayer)
    (rightKnown : graph.repository.layer? right = some rightLayer) :
    trees left = trees right ↔ leftLayer.map trees = rightLayer.map trees := by
  rw [solves.layer left leftLayer leftKnown, solves.layer right rightLayer rightKnown]
  exact TypeTree.ofLayer_injective.eq_iff

/-- The tree of a subtype is smaller than that of the type. -/
theorem sizeOf_part_lt
    (solves : graph.Solves trees)
    {id part : TypeId}
    {layer : Layer TypeId}
    (known : graph.repository.layer? id = some layer)
    (present : part ∈ layer.parts) :
    sizeOf (trees part) < sizeOf (trees id) := by
  rw [solves.layer id layer known]
  apply TypeTree.sizeOf_lt_ofLayer
  cases layer <;> simp_all [Layer.map, Layer.parts]
  exact ⟨part, present, rfl⟩

end Solves

/-- Merging two sets adds the equation of the merged types, and no other. -/
theorem solves_merge_iff
    (source target : TypeId)
    (trees : TypeId -> TypeTree Var) :
    (graph.merge source target).Solves trees ↔
      graph.Solves trees ∧ trees source = trees target := by
  constructor
  · intro solves
    refine ⟨⟨fun left right same => ?_, solves.layer⟩, ?_⟩
    · exact solves.same left right (same.merge source target)
    · exact solves.same source target (same_merge source target)
  · rintro ⟨solves, equal⟩
    refine ⟨fun left right same => ?_, solves.layer⟩
    have toRoot : ∀ id, trees id = trees ((graph.merge source target).root id) := by
      intro id
      rw [root_merge]
      split
      next member =>
        calc
          trees id = trees source := solves.same id source member
          _ = trees target := equal
          _ = trees (graph.root target) := (solves.root target).symm
      next => exact (solves.root id).symm
    rw [toRoot left, toRoot right]
    exact congrArg trees same

end TypeGraph

end Frontend
