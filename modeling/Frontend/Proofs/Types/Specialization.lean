import Frontend.Proofs.Types.Demand

/-!
# Types become more specific

Operations on a type graph add to what is known of its types and take nothing back. The
trees of a later graph are those of an earlier one with trees put for the variables, the
same for all types. Where an earlier tree has a constructor or a base type, the later tree
has the same one.
-/

namespace Frontend

/-! ## Positions in trees -/

namespace TypeTree

variable {Var Other : Type}

/-- The trees right below the root. -/
def parts : TypeTree Var -> List (TypeTree Var)
  | .var _ => []
  | .base _ => []
  | .pointer pointee => [pointee]
  | .function subtypes => subtypes

/-- The tree at a position, which says which part to take at each step down. -/
def at? (tree : TypeTree Var) : List Nat -> Option (TypeTree Var)
  | [] => some tree
  | index :: position => tree.parts[index]?.bind fun part => part.at? position

/-- A tree with parts keeps them where variables are replaced. -/
theorem getElem?_parts_subst
    {tree part : TypeTree Var}
    {index : Nat}
    (present : tree.parts[index]? = some part)
    (values : Var -> TypeTree Other) :
    (tree.subst values).parts[index]? = some (part.subst values) := by
  cases tree with
  | var name => simp [parts] at present
  | base base => simp [parts] at present
  | pointer pointee =>
      obtain ⟨rfl, rfl⟩ : index = 0 ∧ pointee = part := by
        simpa [parts, List.getElem?_singleton] using present
      rw [subst]
      rfl
  | function subtypes =>
      rw [parts] at present
      rw [subst, parts, List.getElem?_map, present, Option.map_some]

/-- What stands at a position stands there with its variables replaced. -/
theorem at?_subst
    {tree part : TypeTree Var}
    {position : List Nat}
    (found : tree.at? position = some part)
    (values : Var -> TypeTree Other) :
    (tree.subst values).at? position = some (part.subst values) := by
  induction position generalizing tree with
  | nil =>
      cases found
      rfl
  | cons index position ih =>
      obtain ⟨top, present, below⟩ := Option.bind_eq_some_iff.mp found
      rw [at?, getElem?_parts_subst present, Option.bind_some]
      exact ih below

end TypeTree

/-- Replacing the parts keeps the shape. -/
theorem Layer.sameShape_map
    {Part Other : Type}
    (layer : Layer Part)
    (change : Part -> Other) :
    layer.SameShape (layer.map change) := by
  cases layer <;> simp [map, SameShape]

namespace TypeGraph

variable {Var : Type} {graph earlier later : TypeGraph}

/-! ## Variables -/

/-- The type is a variable: it represents its set, and its term says nothing. -/
def IsUnbound (graph : TypeGraph) (id : TypeId) : Prop :=
  graph.root id = id ∧ graph.repository.term id = .ok .unbound

/-- A representative of which nothing is known is a variable. -/
theorem WellFormed.isUnbound_root
    (wellFormed : graph.WellFormed)
    {id : TypeId}
    (bound : id < graph.repository.size)
    (unknown : graph.repository.layer? (graph.root id) = none) :
    graph.IsUnbound (graph.root id) := by
  obtain ⟨term, found⟩ :=
    (graph.repository.exists_term_iff _).mpr (wellFormed.root_lt id bound)
  refine ⟨root_root id, ?_⟩
  rw [Repository.layer?, found] at unknown
  rw [found, (graph.repository.layerOfTerm?_eq_none_iff term).mp unknown]

/-- The tree of a type depends on the trees of the variables only. -/
theorem WellFormed.tree_congr
    (wellFormed : graph.WellFormed)
    {first second : TypeId -> TypeTree Var}
    (agree : ∀ id, graph.IsUnbound id -> first id = second id)
    {id : TypeId}
    (bound : id < graph.repository.size) :
    graph.tree first id = graph.tree second id := by
  obtain ⟨height, falls⟩ := wellFormed.acyclic
  -- The induction is on the height, which falls from a type to its parts.
  induction low : height (graph.root id) using Nat.strong_induction_on generalizing id with
  | _ _ ih =>
      rw [wellFormed.tree_eq, wellFormed.tree_eq]
      cases known : graph.repository.layer? (graph.root id) with
      | none => exact agree _ (wellFormed.isUnbound_root bound known)
      | some layer =>
          apply congrArg TypeTree.ofLayer
          apply Layer.map_congr
          intro part present
          have below := falls _ _ _ (root_root id) known present
          exact ih _ (low ▸ below)
            (wellFormed.part_lt _ _ known part present) rfl

/-! ## What remains true of a graph -/

/-- The later graph has the types and the equations of the earlier one. -/
structure Persists (earlier later : TypeGraph) : Prop where
  size_le : earlier.repository.size ≤ later.repository.size
  same : ∀ left right, earlier.Same left right -> later.Same left right
  solves : ∀ (Var : Type) (trees : TypeId -> TypeTree Var),
    later.Solves trees -> earlier.Solves trees

theorem Persists.refl (graph : TypeGraph) : graph.Persists graph :=
  ⟨Nat.le_refl _, fun _ _ same => same, fun _ _ solves => solves⟩

theorem Persists.trans
    (first : earlier.Persists graph)
    (second : graph.Persists later) :
    earlier.Persists later where
  size_le := first.size_le.trans second.size_le
  same := fun left right same => second.same left right (first.same left right same)
  solves := fun Var trees solves => first.solves Var trees (second.solves Var trees solves)

/-- A graph persists when types are added to it. -/
theorem Grows.persists (grows : earlier.Grows later) : earlier.Persists later where
  size_le := grows.size_le
  same := fun left right same => by
    rw [Same, grows.root, grows.root]
    exact same
  solves := fun _ _ solves => grows.solves solves

/-- A graph persists when sets of it are merged. -/
theorem Coarsens.persists (coarsens : earlier.Coarsens later) : earlier.Persists later where
  size_le := by rw [coarsens.repository]
  same := coarsens.same
  solves := fun _ _ solves => coarsens.solves solves

/-- A graph persists in every operation, and so it does in a unification that fails. -/
theorem WellFormed.persists_step
    (wellFormed : earlier.WellFormed)
    (step : earlier.Step later) :
    earlier.Persists later := by
  cases step with
  | fresh node => exact (wellFormed.provides_fresh node).grows.persists
  | base base => exact (wellFormed.provides_base base).grows.persists
  | pointer bound => exact (wellFormed.provides_pointer _ bound).grows.persists
  | function bound => exact (wellFormed.provides_function _ bound).grows.persists
  | find bound =>
      exact Grows.persists ⟨Nat.le_refl _, earlier.partition.root_find _, fun _ _ => rfl,
        fun _ _ => rfl⟩
  | unify leftExists rightExists =>
      exact (wellFormed.unified leftExists rightExists).2.persists

/-- A sequence of operations leads from one graph to another, which is well-formed, and in
which the first persists. -/
theorem WellFormed.persists_steps
    (wellFormed : earlier.WellFormed)
    (steps : Relation.ReflTransGen Step earlier later) :
    later.WellFormed ∧ earlier.Persists later := by
  induction steps with
  | refl => exact ⟨wellFormed, .refl earlier⟩
  | tail _ step ih =>
      obtain ⟨middleWellFormed, persists⟩ := ih
      exact ⟨middleWellFormed.step step, persists.trans (middleWellFormed.persists_step step)⟩

/-! ## Trees of an earlier and of a later graph -/

/-- What is known of types in the later graph is what is known of them in the earlier one,
and more. -/
structure Specializes (earlier later : TypeGraph) : Prop where
  size_le : earlier.repository.size ≤ later.repository.size
  /-- Trees for the variables of the earlier graph make its trees those of the later one. -/
  substituted : ∃ values : TypeId -> TypeTree TypeId,
    (∀ id, ¬ earlier.IsUnbound id -> values id = .var id) ∧
      ∀ id, id < earlier.repository.size ->
        later.tree .var id = (earlier.tree .var id).subst values
  /-- A constructor or a base type at some position remains there. -/
  resolved : ∀ id position layer,
    id < earlier.repository.size ->
      (earlier.tree .var id).at? position = some (.ofLayer layer) ->
        ∃ other, (later.tree .var id).at? position = some (.ofLayer other) ∧
          layer.SameShape other
  /-- Types of one set stay in one set. -/
  joined : ∀ left right, earlier.Same left right -> later.Same left right

open Classical in
/-- The trees of a graph in which another one persists are instances of the trees of that
graph. -/
theorem Persists.specializes
    (persists : earlier.Persists later)
    (wellFormed : earlier.WellFormed)
    (laterWellFormed : later.WellFormed) :
    earlier.Specializes later := by
  let values := fun id => if earlier.IsUnbound id then later.tree .var id else .var id
  have instances : ∀ id, id < earlier.repository.size ->
      later.tree .var id = (earlier.tree .var id).subst values := by
    intro id bound
    have solves := persists.solves _ _ (laterWellFormed.solves_tree .var)
    calc
      later.tree .var id = earlier.tree (later.tree .var) id :=
        congrFun (solves.eq_tree wellFormed) id
      _ = earlier.tree values id :=
        wellFormed.tree_congr (fun id unbound => (if_pos unbound).symm) bound
      _ = (earlier.tree .var id).subst values := by
        rw [tree, tree, Repository.tree, Repository.tree, Repository.subst_treeWithin]
        simp only [TypeTree.subst]
  refine ⟨persists.size_le, ⟨values, fun id bound => if_neg bound, instances⟩, ?_,
    persists.same⟩
  intro id position layer bound found
  refine ⟨layer.map (TypeTree.subst values), ?_, layer.sameShape_map _⟩
  rw [instances id bound, ← TypeTree.subst_ofLayer]
  exact TypeTree.at?_subst found values

/-- From any graph that operations lead to, further operations make types more specific,
also where a unification fails: the trees of types, which their texts are read from, become
instances of what they were, all by one substitution. -/
theorem steps_specialize
    (reachable : earlier.Reachable)
    (steps : Relation.ReflTransGen Step earlier later) :
    earlier.Specializes later ∧
      (∀ id, id < earlier.repository.size ->
        earlier.render id = .ok (earlier.tree .var id).text) ∧
      ∀ id, id < later.repository.size ->
        later.render id = .ok (later.tree .var id).text := by
  obtain ⟨laterWellFormed, persists⟩ := reachable.wellFormed.persists_steps steps
  refine ⟨persists.specializes reachable.wellFormed laterWellFormed, ?_, ?_⟩
  · exact fun id bound => reachable.wellFormed.renderWithin_eq bound (Nat.lt_succ_self _)
  · exact fun id bound => laterWellFormed.renderWithin_eq bound (Nat.lt_succ_self _)

/-- Two function types clash in their results. By then the parameter of the first one has
become an integer, and so it stays. -/
theorem steps_specialize_clashing :
    ∃ earlier later : TypeGraph,
      earlier = (((((({} : TypeGraph).fresh none).2.base .int).2.base .bool).2.function
          [0, 1]).2.function [1, 2]).2 ∧
        later = earlier.unified 3 4 ∧
        earlier.Reachable ∧ Relation.ReflTransGen Step earlier later ∧
        earlier.render 3 = .ok "(FN 't0 int)" ∧ later.render 3 = .ok "(FN int int)" ∧
        earlier.Specializes later := by
  let earlier := (((((({} : TypeGraph).fresh none).2.base .int).2.base .bool).2.function
    [0, 1]).2.function [1, 2]).2
  have reachable : earlier.Reachable :=
    ((((Relation.ReflTransGen.single (.fresh none)).tail (.base .int)).tail
      (.base .bool)).tail (.function (by decide))).tail (.function (by decide))
  have steps : Relation.ReflTransGen Step earlier (earlier.unified 3 4) :=
    .single (.unify (by decide) (by decide))
  exact ⟨earlier, _, rfl, rfl, reachable, steps, by cbv, by cbv,
    (steps_specialize reachable steps).1⟩

end TypeGraph

end Frontend
