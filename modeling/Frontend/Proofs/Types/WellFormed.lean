import Frontend.Proofs.Run
import Frontend.Proofs.Types.Solution
import Mathlib.Data.Finset.Card
import Mathlib.Algebra.Order.BigOperators.Group.List
import Mathlib.Algebra.Order.Group.Nat

/-!
# Well-formed type graphs

A well-formed graph knows the same of all types in one set, and no type in it is a
part of itself. Such a graph has a solution for every choice of trees for the
types of which nothing is known.

Adding a type keeps a graph well-formed. Merging two sets does so if what is
known of the first is known of the second, and no type becomes a part of itself.
-/

namespace Frontend

namespace TypeGraph

variable {Var : Type} (graph : TypeGraph)

/-- A height falls from every representative to the sets of its parts. -/
def FallsAlong (height : TypeId -> Nat) : Prop :=
  ∀ id layer part,
    graph.root id = id ->
      graph.repository.layer? id = some layer ->
        part ∈ layer.parts -> height (graph.root part) < height id

/-- What holds of a type graph at all times. -/
structure WellFormed : Prop where
  /-- The run of a function type lies in the pool. -/
  run_le : ∀ id start stop,
    graph.repository.term id = .ok (.function start stop) ->
      stop ≤ graph.repository.pool.size
  /-- Parts are types that exist. -/
  part_lt : ∀ id layer,
    graph.repository.layer? id = some layer ->
      ∀ part ∈ layer.parts, part < graph.repository.size
  /-- The types that stand for base types do. -/
  bases : ∀ pair ∈ graph.repository.bases,
    graph.repository.term pair.2 = .ok (.base pair.1)
  /-- Types that exist are represented by types that exist. -/
  root_lt : ∀ id, id < graph.repository.size -> graph.root id < graph.repository.size
  /-- Any other type is alone in its set. -/
  root_eq : ∀ id, graph.repository.size ≤ id -> graph.root id = id
  /-- What is known of a type is known of its representative. -/
  layer_root : ∀ id layer,
    graph.repository.layer? id = some layer ->
      ∃ top, graph.repository.layer? (graph.root id) = some top ∧
        layer.map graph.root = top.map graph.root
  /-- No type is a part of itself. -/
  acyclic : ∃ height, graph.FallsAlong height

/-- A representative is a type or a part of it, or a part of its parts, and so
on. -/
inductive Occurs (part : TypeId) : TypeId -> Prop
  | here {id : TypeId} : graph.root id = part -> Occurs part id
  | deeper {id inner : TypeId} {layer : Layer TypeId} :
      graph.repository.layer? (graph.root id) = some layer ->
        inner ∈ layer.parts -> Occurs part inner -> Occurs part id

variable {graph}

/-- A height can be bounded by the number of types: count the representatives
that are lower. -/
theorem WellFormed.exists_bounded
    (wellFormed : graph.WellFormed) :
    ∃ height, graph.FallsAlong height ∧ ∀ id, height id ≤ graph.repository.size := by
  obtain ⟨height, falls⟩ := wellFormed.acyclic
  let lower := fun id =>
    (Finset.range graph.repository.size).filter fun other => height other < height id
  refine ⟨fun id => (lower id).card, ?_, fun id => ?_⟩
  · intro id layer part fixed known present
    have below := falls id layer part fixed known present
    have exists_part :=
      wellFormed.root_lt part (wellFormed.part_lt id layer known part present)
    apply Finset.card_lt_card
    refine Finset.ssubset_iff_of_subset ?_ |>.mpr ⟨graph.root part, ?_, ?_⟩
    · intro other
      simp only [lower, Finset.mem_filter]
      rintro ⟨bound, lowerThan⟩
      exact ⟨bound, by omega⟩
    · simp [lower, exists_part, below]
    · simp [lower]
  · calc
      (lower id).card ≤ (Finset.range graph.repository.size).card :=
        Finset.card_filter_le _ _
      _ = graph.repository.size := Finset.card_range _

/-- A solution gives heights: a part has a smaller tree. -/
theorem Solves.fallsAlong
    {trees : TypeId -> TypeTree Var}
    (solves : graph.Solves trees) :
    graph.FallsAlong fun id => sizeOf (trees id) := by
  intro id layer part _ known present
  have smaller := solves.sizeOf_part_lt known present
  rwa [← solves.root part] at smaller

/-! ## Trees of a well-formed graph -/

section Trees

variable (values : TypeId -> TypeTree Var)

/-- The tree of a type, where a type of which nothing is known has the tree that its
representative is given. -/
def tree (graph : TypeGraph) (values : TypeId -> TypeTree Var) (id : TypeId) :
    TypeTree Var :=
  graph.repository.tree graph.root values id

/-- A tree is complete at any depth beyond the height of its type. -/
theorem treeWithin_eq_of_height_lt
    {height : TypeId -> Nat}
    (falls : graph.FallsAlong height)
    (depth other : Nat)
    (id : TypeId)
    (deep : height (graph.root id) < depth)
    (otherDeep : height (graph.root id) < other) :
    graph.repository.treeWithin graph.root values depth id =
      graph.repository.treeWithin graph.root values other id := by
  induction depth generalizing other id with
  | zero => omega
  | succ depth ih =>
      obtain ⟨other, rfl⟩ : ∃ smaller, other = smaller + 1 :=
        ⟨other - 1, by omega⟩
      simp only [Repository.treeWithin]
      split
      next layer known =>
        congr 1
        apply Layer.map_congr
        intro part present
        have below := falls _ _ _ (root_root id) known present
        exact ih other part (by omega) (by omega)
      next => rfl

/-- The tree of a type is what is known of its representative, made of the trees
of the parts. -/
theorem WellFormed.tree_eq
    (wellFormed : graph.WellFormed)
    (id : TypeId) :
    graph.tree values id =
      match graph.repository.layer? (graph.root id) with
      | some layer => .ofLayer (layer.map (graph.tree values))
      | none => values (graph.root id) := by
  obtain ⟨height, falls, bounded⟩ := wellFormed.exists_bounded
  rw [tree, Repository.tree, Repository.treeWithin]
  cases known : graph.repository.layer? (graph.root id) with
  | none => rfl
  | some layer =>
      apply congrArg TypeTree.ofLayer
      apply Layer.map_congr
      intro part present
      have below := falls _ _ _ (root_root id) known present
      have bound := bounded (graph.root id)
      exact treeWithin_eq_of_height_lt values falls _ _ part (by omega) (by omega)

/-- The trees of a well-formed graph solve it. -/
theorem WellFormed.solves_tree (wellFormed : graph.WellFormed) :
    graph.Solves (graph.tree values) := by
  have same : ∀ left right, graph.Same left right ->
      graph.tree values left = graph.tree values right := by
    intro left right same
    rw [wellFormed.tree_eq, wellFormed.tree_eq, same]
  refine ⟨same, fun id layer known => ?_⟩
  obtain ⟨top, topKnown, equal⟩ := wellFormed.layer_root id layer known
  have throughRoot : graph.tree values = graph.tree values ∘ graph.root := by
    funext part
    exact same part _ (same_root part)
  rw [wellFormed.tree_eq, topKnown]
  simp only
  rw [throughRoot, ← Layer.map_map, ← Layer.map_map, equal]

/-- A solution is determined by the trees of the types of which nothing is
known. -/
theorem Solves.eq_tree
    (wellFormed : graph.WellFormed)
    {trees : TypeId -> TypeTree Var}
    (solves : graph.Solves trees) :
    trees = graph.tree trees := by
  obtain ⟨height, falls⟩ := wellFormed.acyclic
  -- The induction is on the height, which falls from a type to its parts.
  have upTo : ∀ bound id, height (graph.root id) < bound ->
      trees id = graph.tree trees id := by
    intro bound
    induction bound with
    | zero => intro id low; omega
    | succ bound ih =>
        intro id low
        rw [wellFormed.tree_eq, ← solves.root id]
        split
        next layer known =>
          rw [solves.layer _ layer known]
          congr 1
          apply Layer.map_congr
          intro part present
          have below := falls _ _ _ (root_root id) known present
          exact ih part (by omega)
        next => rfl
  funext id
  exact upTo _ id (Nat.lt_succ_self _)

/-- A well-formed graph has a solution. -/
theorem WellFormed.exists_solves (wellFormed : graph.WellFormed) (Leaf : Type) :
    ∃ trees : TypeId -> TypeTree Leaf, graph.Solves trees :=
  ⟨_, wellFormed.solves_tree fun _ => .base .int⟩

end Trees

/-! ## Parts of types -/

/-- The subtypes of a type that exists are the parts of what is known of it. -/
theorem subtypes_eq {id : TypeId} (bound : id < graph.repository.size) :
    graph.repository.subtypes id =
      .ok ((graph.repository.layer? id).elim [] Layer.parts) := by
  obtain ⟨term, found⟩ := (graph.repository.exists_term_iff id).mpr bound
  simp only [Repository.subtypes, Repository.layer?, found]
  cases known : graph.repository.layerOfTerm? term with
  | none =>
      rw [Repository.layerOfTerm?_eq_none_iff] at known
      subst known
      rfl
  | some layer =>
      have parts := graph.repository.parts_of_layerOfTerm? known
      simp only [Option.elim, parts]
      rfl

/-- Whether some item has a property, if that can be said of every item. -/
theorem anyM_eq_ok
    {Item : Type}
    (items : List Item)
    (test : Item -> Except Fault Bool)
    (answer : Item -> Bool)
    (tested : ∀ item ∈ items, test item = .ok (answer item)) :
    items.anyM test = .ok (items.any answer) := by
  induction items with
  | nil => rfl
  | cons item items ih =>
      have later := ih fun other present =>
        tested other (List.mem_cons_of_mem _ present)
      rw [List.anyM, tested item List.mem_cons_self]
      cases value : answer item with
      | false => simp [value, later, bind, Except.bind]
      | true => simp [value, bind, Except.bind, pure, Except.pure]

open Classical in
/-- The search for a part comes to an end if it may go deeper than the height of
the type. -/
theorem WellFormed.occursWithin_eq
    (wellFormed : graph.WellFormed)
    {height : TypeId -> Nat}
    (falls : graph.FallsAlong height)
    (part : TypeId)
    (depth : Nat)
    (id : TypeId)
    (bound : id < graph.repository.size)
    (deep : height (graph.root id) < depth) :
    graph.occursWithin part depth id = .ok (decide (graph.Occurs part id)) := by
  -- The depth stays above the height, which falls from a type to its parts.
  induction depth generalizing id with
  | zero => omega
  | succ depth ih =>
      rw [occursWithin]
      by_cases here : graph.root id = part
      · have occurs : graph.Occurs part id := .here here
        simp [here, occurs, pure, Except.pure]
      · simp only [here, if_false, subtypes_eq (wellFormed.root_lt id bound)]
        cases known : graph.repository.layer? (graph.root id) with
        | none =>
            have absent : ¬ graph.Occurs part id := by
              rintro (same | ⟨otherKnown, _, _⟩)
              · exact here same
              · rw [known] at otherKnown
                cases otherKnown
            simp [absent, bind, Except.bind, pure, Except.pure]
        | some layer =>
            have tested := anyM_eq_ok layer.parts (graph.occursWithin part depth)
              (fun inner => decide (graph.Occurs part inner)) fun inner present =>
                ih inner
                  (wellFormed.part_lt _ layer known inner present)
                  (by
                    have lower := falls _ _ _ (root_root id) known present
                    omega)
            have unfolded : graph.Occurs part id ↔
                ∃ inner ∈ layer.parts, graph.Occurs part inner := by
              constructor
              · rintro (same | ⟨otherKnown, present, occurs⟩)
                · exact absurd same here
                · rw [known, Option.some.injEq] at otherKnown
                  subst otherKnown
                  exact ⟨_, present, occurs⟩
              · rintro ⟨inner, present, occurs⟩
                exact .deeper known present occurs
            simp only [Option.elim, bind, Except.bind, tested, unfolded]
            congr 1
            rw [Bool.eq_iff_iff]
            simp

open Classical in
/-- The search for a part in a well-formed graph finds it if it is there. -/
theorem WellFormed.occurs_eq
    (wellFormed : graph.WellFormed)
    (part id : TypeId)
    (bound : id < graph.repository.size) :
    graph.occurs part id = .ok (decide (graph.Occurs part id)) := by
  obtain ⟨height, falls, bounded⟩ := wellFormed.exists_bounded
  have low := bounded (graph.root id)
  exact wellFormed.occursWithin_eq falls part _ id bound (by omega)

/-- The tree of a part is no larger than that of the type. -/
theorem Solves.sizeOf_le_of_occurs
    {trees : TypeId -> TypeTree Var}
    (solves : graph.Solves trees)
    {part id : TypeId}
    (occurs : graph.Occurs part id) :
    sizeOf (trees part) ≤ sizeOf (trees id) := by
  induction occurs with
  | here same => rw [← same, solves.root]
  | deeper known present _ ih =>
      have smaller := solves.sizeOf_part_lt known present
      rw [solves.root] at smaller
      omega

/-- Whether a part occurs in a type depends on the set of the type only. -/
theorem Occurs.congr
    {part left right : TypeId}
    (same : graph.Same left right)
    (occurs : graph.Occurs part left) :
    graph.Occurs part right := by
  unfold Same at same
  cases occurs with
  | here equal => exact .here (same ▸ equal)
  | deeper known present inside => exact .deeper (same ▸ known) present inside

/-! ## Adding types -/

/-- A graph with all types of another one, in the same sets. -/
structure Grows (graph grown : TypeGraph) : Prop where
  size_le : graph.repository.size ≤ grown.repository.size
  root : ∀ id, grown.root id = graph.root id
  entry : ∀ id, id < graph.repository.size ->
    grown.repository.entries[id]? = graph.repository.entries[id]?
  layer : ∀ id, id < graph.repository.size ->
    grown.repository.layer? id = graph.repository.layer? id

/-- The graph with one more type, and the words of its run. -/
def add
    (graph : TypeGraph)
    (entry : TypeEntry)
    (run : List TypeId)
    (bases : List (BaseType × TypeId)) : TypeGraph where
  repository :=
    { entries := graph.repository.entries.push entry
      pool := graph.repository.pool ++ run
      bases }
  partition := graph.partition.insert graph.repository.size

section Add

variable (entry : TypeEntry) (run : List TypeId) (bases : List (BaseType × TypeId))

@[simp] theorem size_add :
    (graph.add entry run bases).repository.size = graph.repository.size + 1 := by
  simp [add, Repository.size]

@[simp] theorem root_add (id : TypeId) :
    (graph.add entry run bases).root id = graph.root id :=
  graph.partition.root_insert _ _

theorem entries_add (id : TypeId) (bound : id < graph.repository.size) :
    (graph.add entry run bases).repository.entries[id]? =
      graph.repository.entries[id]? := by
  unfold Repository.size at bound
  simp only [add]
  rw [Array.getElem?_push_lt bound, Array.getElem?_eq_getElem bound]

theorem term_add (id : TypeId) (bound : id < graph.repository.size) :
    (graph.add entry run bases).repository.term id = graph.repository.term id := by
  simp only [Repository.term, Repository.entry, entries_add entry run bases id bound]

@[simp] theorem term_add_size :
    (graph.add entry run bases).repository.term graph.repository.size =
      .ok entry.term := by
  simp [Repository.term, Repository.entry, add, Repository.size, bind, Except.bind,
    pure, Except.pure]

@[simp] theorem layer?_add_size :
    (graph.add entry run bases).repository.layer? graph.repository.size =
      (graph.add entry run bases).repository.layerOfTerm? entry.term := by
  simp [Repository.layer?]

/-- A run inside the pool stays the same when words are added. -/
theorem layer?_add
    (wellFormed : graph.WellFormed)
    (id : TypeId)
    (bound : id < graph.repository.size) :
    (graph.add entry run bases).repository.layer? id = graph.repository.layer? id := by
  obtain ⟨term, found⟩ := (graph.repository.exists_term_iff id).mpr bound
  simp only [Repository.layer?, term_add entry run bases id bound, found]
  cases term with
  | unbound => rfl
  | base base => rfl
  | pointer pointee => rfl
  | function start stop =>
      have inside := wellFormed.run_le id start stop found
      simp only [Repository.layerOfTerm?, Repository.termSubtypes, add]
      rw [extract_append_list _ _ _ inside]

theorem grows_add (wellFormed : graph.WellFormed) :
    graph.Grows (graph.add entry run bases) where
  size_le := by simp
  root := by simp
  entry := entries_add entry run bases
  layer := layer?_add entry run bases wellFormed

theorem pool_size_add :
    (graph.add entry run bases).repository.pool.size =
      graph.repository.pool.size + run.length :=
  size_append_list _ _

/-- A term was there before, or it is the one that is added. -/
theorem term_add_cases
    {id : TypeId}
    {term : Term}
    (found : (graph.add entry run bases).repository.term id = .ok term) :
    graph.repository.term id = .ok term ∨ entry.term = term := by
  have bound := (Repository.exists_term_iff _ id).mp ⟨_, found⟩
  rw [size_add] at bound
  rcases Nat.lt_succ_iff_lt_or_eq.mp bound with old | rfl
  · exact .inl (term_add entry run bases id old ▸ found)
  · exact .inr (by simpa using found)

/-- What is known of a type was known before, or the type is the one that is added. -/
theorem layer?_add_cases
    (wellFormed : graph.WellFormed)
    {id : TypeId}
    {layer : Layer TypeId}
    (known : (graph.add entry run bases).repository.layer? id = some layer) :
    id < graph.repository.size ∧ graph.repository.layer? id = some layer ∨
      id = graph.repository.size ∧
        (graph.add entry run bases).repository.layerOfTerm? entry.term = some layer := by
  have bound := Repository.lt_size_of_layer? _ known
  rw [size_add] at bound
  rcases Nat.lt_succ_iff_lt_or_eq.mp bound with old | rfl
  · exact .inl ⟨old, layer?_add entry run bases wellFormed id old ▸ known⟩
  · exact .inr ⟨rfl, by simpa using known⟩

/-- The new type is higher than all its parts, which were there before. -/
theorem WellFormed.exists_fallsAlong_add
    (wellFormed : graph.WellFormed)
    (partsLt : ∀ id layer,
      (graph.add entry run bases).repository.layer? id = some layer ->
        ∀ part ∈ layer.parts, part < graph.repository.size) :
    ∃ height, (graph.add entry run bases).FallsAlong height := by
  obtain ⟨height, falls⟩ := wellFormed.acyclic
  -- The sum of the heights of its parts is at least each of them.
  let newHeight :=
    match (graph.add entry run bases).repository.layerOfTerm? entry.term with
    | some layer => (layer.parts.map fun part => height (graph.root part)).sum + 1
    | none => 0
  refine ⟨fun id => if id = graph.repository.size then newHeight else height id, ?_⟩
  intro id layer part fixed known present
  have partBound := wellFormed.root_lt part (partsLt id layer known part present)
  rw [root_add] at fixed ⊢
  simp only [Nat.ne_of_lt partBound, if_false]
  rcases layer?_add_cases entry run bases wellFormed known with ⟨old, knownOld⟩ | ⟨rfl, isNew⟩
  · simp only [Nat.ne_of_lt old, if_false]
    exact falls id layer part fixed knownOld present
  · simp only [if_true, newHeight, isNew]
    exact Nat.lt_succ_of_le (List.le_sum_of_mem (List.mem_map_of_mem present))

/-- A graph remains well-formed when a type with parts that exist is added. -/
theorem WellFormed.add
    (wellFormed : graph.WellFormed)
    (runInside : ∀ start stop, entry.term = .function start stop ->
      stop ≤ graph.repository.pool.size + run.length)
    (partsExist : ∀ layer,
      (graph.add entry run bases).repository.layerOfTerm? entry.term = some layer ->
        ∀ part ∈ layer.parts, part < graph.repository.size)
    (basesStand : ∀ pair ∈ bases,
      (graph.add entry run bases).repository.term pair.2 = .ok (.base pair.1)) :
    (graph.add entry run bases).WellFormed := by
  have partsLt : ∀ id layer,
      (graph.add entry run bases).repository.layer? id = some layer ->
        ∀ part ∈ layer.parts, part < graph.repository.size := by
    intro id layer known
    rcases layer?_add_cases entry run bases wellFormed known with ⟨-, old⟩ | ⟨-, isNew⟩
    · exact wellFormed.part_lt id layer old
    · exact partsExist layer isNew
  constructor
  case run_le =>
    intro id start stop found
    rw [pool_size_add]
    rcases term_add_cases entry run bases found with old | isNew
    · exact Nat.le_add_right_of_le (wellFormed.run_le id start stop old)
    · exact runInside start stop isNew
  case part_lt =>
    intro id layer known part present
    rw [size_add]
    exact Nat.lt_succ_of_lt (partsLt id layer known part present)
  case bases => exact basesStand
  case root_lt =>
    intro id bound
    rw [size_add] at bound ⊢
    rw [root_add]
    rcases Nat.lt_succ_iff_lt_or_eq.mp bound with old | rfl
    · exact Nat.lt_succ_of_lt (wellFormed.root_lt id old)
    · rw [wellFormed.root_eq _ (Nat.le_refl _)]
      exact Nat.lt_succ_self _
  case root_eq =>
    intro id beyond
    rw [size_add] at beyond
    rw [root_add]
    exact wellFormed.root_eq id (Nat.le_of_succ_le beyond)
  case layer_root =>
    intro id layer known
    have sameRoots : (graph.add entry run bases).root = graph.root :=
      funext (root_add entry run bases)
    rcases layer?_add_cases entry run bases wellFormed known with ⟨old, knownOld⟩ | ⟨rfl, -⟩
    · obtain ⟨top, topKnown, equal⟩ := wellFormed.layer_root id layer knownOld
      refine ⟨top, ?_, by rw [sameRoots, equal]⟩
      rwa [root_add, layer?_add entry run bases wellFormed _ (wellFormed.root_lt id old)]
    · refine ⟨layer, ?_, rfl⟩
      rwa [root_add, wellFormed.root_eq _ (Nat.le_refl _)]
  case acyclic => exact wellFormed.exists_fallsAlong_add entry run bases partsLt

end Add

/-- Well-formedness depends on the types and on the representatives only. -/
theorem WellFormed.of_root_eq
    {other : TypeGraph}
    (wellFormed : graph.WellFormed)
    (sameTypes : other.repository = graph.repository)
    (sameRoots : ∀ id, other.root id = graph.root id) :
    other.WellFormed := by
  have roots : other.root = graph.root := funext sameRoots
  obtain ⟨run_le, part_lt, bases, root_lt, root_eq, layer_root, acyclic⟩ := wellFormed
  constructor <;> simp only [FallsAlong, sameTypes, roots] <;> assumption

/-- The graph without types is well-formed. -/
theorem wellFormed_empty : WellFormed {} := by
  have noTerm : ∀ id term, (({} : Repository).term id) ≠ .ok term := by
    intro id term found
    have bound := (Repository.exists_term_iff _ id).mp ⟨_, found⟩
    exact absurd bound (Nat.not_lt_zero id)
  have noLayer : ∀ id layer, (({} : Repository).layer? id) ≠ some layer := by
    intro id layer known
    exact absurd (Repository.lt_size_of_layer? _ known) (Nat.not_lt_zero id)
  refine ⟨?_, ?_, ?_, ?_, fun _ _ => rfl, ?_, fun _ => 0, ?_⟩
  · intro id start stop found
    exact absurd found (noTerm id _)
  · intro id layer known
    exact absurd known (noLayer id layer)
  · intro pair present
    cases present
  · intro id bound
    exact absurd bound (Nat.not_lt_zero id)
  · intro id layer known
    exact absurd known (noLayer id layer)
  · intro id layer part _ known
    exact absurd known (noLayer id layer)

/-- What a request for a type of which this is known has to answer. -/
structure Provides
    (graph : TypeGraph)
    (layer : Option (Layer TypeId))
    (answer : TypeId × TypeGraph) : Prop where
  wellFormed : answer.2.WellFormed
  grows : graph.Grows answer.2
  lt_size : answer.1 < answer.2.repository.size
  layer : answer.2.repository.layer? answer.1 = layer
  /-- At most the type that is asked for is new. -/
  new : answer.2.repository.size = graph.repository.size ∨
    answer.2.repository.size = graph.repository.size + 1 ∧
      answer.1 = graph.repository.size

theorem fresh_eq (node : Option NodeId) :
    graph.fresh node =
      (graph.repository.size,
        graph.add { node, term := .unbound } [] graph.repository.bases) := by
  simp [fresh, withNew, Repository.fresh, Repository.push, add]

theorem pointer_eq (pointee : TypeId) :
    graph.pointer pointee =
      (graph.repository.size,
        graph.add { node := none, term := .pointer pointee } []
          graph.repository.bases) := by
  simp [pointer, withNew, Repository.pointer, Repository.push, add]

theorem function_eq (subtypes : List TypeId) :
    graph.function subtypes =
      (graph.repository.size,
        graph.add
          { node := none
            term := .function graph.repository.pool.size
              (graph.repository.pool ++ subtypes).size }
          subtypes graph.repository.bases) := by
  simp [function, withNew, Repository.function, Repository.push, add, Repository.size]

theorem base_eq_of_lookup
    {base : BaseType}
    {id : TypeId}
    (found : graph.repository.bases.lookup base = some id) :
    graph.base base = (id, { graph with partition := graph.partition.insert id }) := by
  simp [TypeGraph.base, withNew, Repository.base, found]

theorem base_eq_of_lookup_eq_none
    {base : BaseType}
    (missing : graph.repository.bases.lookup base = none) :
    graph.base base =
      (graph.repository.size,
        graph.add { node := none, term := .base base } []
          (graph.repository.bases ++ [(base, graph.repository.size)])) := by
  simp [TypeGraph.base, withNew, Repository.base, missing, Repository.push, add]

namespace WellFormed

variable (wellFormed : graph.WellFormed)
include wellFormed

theorem bases_add
    (entry : TypeEntry)
    (run : List TypeId)
    (bases : List (BaseType × TypeId)) :
    ∀ pair ∈ graph.repository.bases,
      (graph.add entry run bases).repository.term pair.2 = .ok (.base pair.1) := by
  intro pair present
  have found := wellFormed.bases pair present
  rw [term_add entry run bases pair.2
    ((Repository.exists_term_iff _ _).mp ⟨_, found⟩)]
  exact found

theorem provides_fresh (node : Option NodeId) :
    graph.Provides none (graph.fresh node) := by
  rw [fresh_eq]
  refine ⟨wellFormed.add _ _ _ ?_ ?_ (wellFormed.bases_add _ _ _),
    grows_add _ _ _ wellFormed, by simp, ?_, .inr ⟨by simp, rfl⟩⟩
  · simp
  · simp [Repository.layerOfTerm?]
  · simp [Repository.layerOfTerm?]

theorem provides_pointer
    (pointee : TypeId)
    (bound : pointee < graph.repository.size) :
    graph.Provides (some (.pointer pointee)) (graph.pointer pointee) := by
  rw [pointer_eq]
  refine ⟨wellFormed.add _ _ _ ?_ ?_ (wellFormed.bases_add _ _ _),
    grows_add _ _ _ wellFormed, by simp, ?_, .inr ⟨by simp, rfl⟩⟩
  · simp
  · simpa [Repository.layerOfTerm?, Layer.parts] using bound
  · simp [Repository.layerOfTerm?]

theorem provides_function
    (subtypes : List TypeId)
    (bound : ∀ part ∈ subtypes, part < graph.repository.size) :
    graph.Provides (some (.function subtypes)) (graph.function subtypes) := by
  rw [function_eq]
  have known : (graph.add
      { node := none
        term := .function graph.repository.pool.size
          (graph.repository.pool ++ subtypes).size }
      subtypes graph.repository.bases).repository.layerOfTerm?
        (.function graph.repository.pool.size
          (graph.repository.pool ++ subtypes).size) = some (.function subtypes) := by
    simp only [Repository.layerOfTerm?, Repository.termSubtypes, TypeGraph.add,
      extract_append_list_self]
  refine ⟨wellFormed.add _ _ _ ?_ ?_ (wellFormed.bases_add _ _ _),
    grows_add _ _ _ wellFormed, by simp, by simpa using known, .inr ⟨by simp, rfl⟩⟩
  · intro start stop equal
    cases equal
    exact Nat.le_of_eq (size_append_list _ _)
  · intro layer otherKnown
    rw [known, Option.some.injEq] at otherKnown
    subst otherKnown
    exact bound

theorem provides_base (base : BaseType) :
    graph.Provides (some (.base base)) (graph.base base) := by
  cases found : graph.repository.bases.lookup base with
  | some id =>
      obtain ⟨before, after, split, _⟩ := List.lookup_eq_some_iff.mp found
      have term := wellFormed.bases (base, id) (by simp [split])
      rw [base_eq_of_lookup found]
      refine ⟨wellFormed.of_root_eq rfl (graph.partition.root_insert id),
        ⟨Nat.le_refl _, graph.partition.root_insert id, fun _ _ => rfl, fun _ _ => rfl⟩,
        (Repository.exists_term_iff _ _).mp ⟨_, term⟩, ?_, .inl rfl⟩
      simp only [Repository.layer?, term]
      rfl
  | none =>
      rw [base_eq_of_lookup_eq_none found]
      refine ⟨wellFormed.add _ _ _ ?_ ?_ ?_, grows_add _ _ _ wellFormed, by simp, ?_,
        .inr ⟨by simp, rfl⟩⟩
      · simp
      · simp [Repository.layerOfTerm?, Layer.parts]
      · intro pair present
        rcases List.mem_append.mp present with old | new
        · exact wellFormed.bases_add _ _ _ pair old
        · rw [List.mem_singleton] at new
          subst new
          simp
      · simp [Repository.layerOfTerm?]

end WellFormed

/-! ## Merging sets -/

/-- Representatives after a merger are a function of those before it. -/
theorem map_root_merge
    (source target : TypeId)
    {left right : Layer TypeId}
    (equal : left.map graph.root = right.map graph.root) :
    left.map (graph.merge source target).root =
      right.map (graph.merge source target).root := by
  have through : (graph.merge source target).root =
      (fun representative =>
        if representative = graph.root source then graph.root target
        else representative) ∘ graph.root :=
    funext (root_merge source target)
  rw [through, ← Layer.map_map, ← Layer.map_map, equal]

/-- A graph remains well-formed when a set is merged into another one, if what is
known of the first is known of the second and no type becomes a part of itself. -/
theorem WellFormed.merge
    (wellFormed : graph.WellFormed)
    {source target : TypeId}
    (sourceExists : source < graph.repository.size)
    (targetExists : target < graph.repository.size)
    (compatible : ∀ layer,
      graph.repository.layer? (graph.root source) = some layer ->
        ∃ top, graph.repository.layer? (graph.root target) = some top ∧
          layer.map graph.root = top.map graph.root)
    (acyclic : ∃ height, (graph.merge source target).FallsAlong height) :
    (graph.merge source target).WellFormed := by
  refine ⟨wellFormed.run_le, wellFormed.part_lt, wellFormed.bases, ?_, ?_, ?_, acyclic⟩
  · intro id bound
    rw [root_merge]
    split
    · exact wellFormed.root_lt target targetExists
    · exact wellFormed.root_lt id bound
  · intro id beyond
    have alone := wellFormed.root_eq id beyond
    rw [root_merge, if_neg ?_, alone]
    rw [alone]
    intro equal
    have bound := wellFormed.root_lt source sourceExists
    rw [← equal] at bound
    exact Nat.not_lt_of_le beyond bound
  · intro id layer known
    obtain ⟨top, topKnown, equal⟩ := wellFormed.layer_root id layer known
    rw [root_merge]
    split
    next member =>
      rw [member] at topKnown
      obtain ⟨targetTop, targetKnown, targetEqual⟩ := compatible top topKnown
      exact ⟨targetTop, targetKnown, map_root_merge _ _ (equal.trans targetEqual)⟩
    next => exact ⟨top, topKnown, map_root_merge _ _ equal⟩

/-- A representative after a merger was one before. -/
theorem root_eq_of_root_merge_eq
    {source target id : TypeId}
    (different : graph.root source ≠ graph.root target)
    (fixed : (graph.merge source target).root id = id) :
    graph.root id = id ∧ graph.root id ≠ graph.root source := by
  rw [root_merge] at fixed
  split at fixed
  next member =>
    rw [← fixed, root_root] at member
    exact absurd member.symm different
  next other => exact ⟨fixed, other⟩

open Classical in
/-- Merging a set into one in which it does not occur makes no type a part of
itself: the sets in which it occurs get above the one it is merged into. -/
theorem WellFormed.exists_fallsAlong_merge
    (wellFormed : graph.WellFormed)
    {source target : TypeId}
    (absent : ¬ graph.Occurs (graph.root source) target) :
    ∃ height, (graph.merge source target).FallsAlong height := by
  obtain ⟨height, falls⟩ := wellFormed.acyclic
  have different : graph.root source ≠ graph.root target :=
    fun same => absent (.here same.symm)
  refine ⟨fun id =>
    if graph.Occurs (graph.root source) id then
      height id + height (graph.root target) + 1
    else
      height id, ?_⟩
  intro id layer part fixed known present
  obtain ⟨fixed, other⟩ := root_eq_of_root_merge_eq different fixed
  have lower := falls id layer part fixed known present
  have above : graph.Occurs (graph.root source) part ->
      graph.Occurs (graph.root source) id :=
    .deeper (fixed.symm ▸ known) present
  rw [root_merge]
  beta_reduce
  split
  next member =>
    have targetAbsent : ¬ graph.Occurs (graph.root source) (graph.root target) :=
      fun occurs => absent (occurs.congr (same_root target).symm)
    rw [if_neg targetAbsent, if_pos (above (.here member))]
    omega
  next =>
    by_cases occurs : graph.Occurs (graph.root source) (graph.root part)
    · rw [if_pos occurs, if_pos (above (occurs.congr (same_root part).symm))]
      omega
    · rw [if_neg occurs]
      split <;> omega

end TypeGraph
end Frontend
