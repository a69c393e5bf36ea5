import Frontend.Proofs.Types.Table
import Frontend.Proofs.Types.Unification

/-!
# What a walk demands

Inference gives a tree to each of its slots: to the nodes, to the results of functions
and to the names. Some types of the graph stand for slots. The graph captures what is
demanded of the trees of the slots if its solutions are the trees that meet the
demands, read at these types. Adding a type demands nothing, and unification demands
just one equation. Once something has been reported, the demands cannot be met.
-/

namespace Frontend

/-- Two types that have to agree do not. -/
def Diagnostic.IsMismatch (diagnostic : Diagnostic) : Prop :=
  ∃ left right, diagnostic.cause = .mismatch left right

/-- What inference gives a tree to. -/
inductive Slot
  | node (id : NodeId)
  /-- The result of a function. -/
  | result (function : NodeId)
  /-- All occurrences of a name. -/
  | name (name : QualifiedName)
  deriving DecidableEq, Repr

/-- A demand on the trees of the slots, whatever the leaves of the trees are. -/
abbrev Requirement := ∀ Var : Type, (Slot -> TypeTree Var) -> Prop

/-- A further demand: two terms over the slots have the same tree. -/
def Requirement.equate (Required : Requirement) (left right : TypeTree Slot) :
    Requirement :=
  fun Var assignment =>
    Required Var assignment ∧ left.subst assignment = right.subst assignment

namespace TypeGraph

variable
  {Var : Type}
  {graph grown : TypeGraph}
  {diagnostics : Array Diagnostic}
  {placed : List (Slot × TypeId)}
  {Required : Requirement}

/-- The trees solve the graph, and the types that stand for slots have their trees. -/
structure Models
    (graph : TypeGraph)
    (placed : List (Slot × TypeId))
    (assignment : Slot -> TypeTree Var)
    (trees : TypeId -> TypeTree Var) : Prop where
  solves : graph.Solves trees
  fits : ∀ pair ∈ placed, trees pair.2 = assignment pair.1

/-- Wherever the slots have their trees, the type has the tree of the term. -/
def Denotes
    (graph : TypeGraph)
    (placed : List (Slot × TypeId))
    (id : TypeId)
    (term : TypeTree Slot) : Prop :=
  ∀ (Var : Type) (assignment : Slot -> TypeTree Var) (trees : TypeId -> TypeTree Var),
    graph.Models placed assignment trees -> trees id = term.subst assignment

/-- The solutions of a graph are just the trees that meet the demands, unless
something has been reported; then the demands cannot be met. -/
structure Captures
    (graph : TypeGraph)
    (diagnostics : Array Diagnostic)
    (placed : List (Slot × TypeId))
    (Required : Requirement) : Prop where
  wellFormed : graph.WellFormed
  lt_size : ∀ pair ∈ placed, pair.2 < graph.repository.size
  mismatches : ∀ diagnostic ∈ diagnostics, diagnostic.IsMismatch
  required : ∀ (Var : Type) (assignment : Slot -> TypeTree Var),
    Required Var assignment ↔
      diagnostics = #[] ∧ ∃ trees, graph.Models placed assignment trees

/-! ## Types that stand for terms -/

namespace Denotes

theorem of_mem
    {slot : Slot}
    {id : TypeId}
    (member : (slot, id) ∈ placed) :
    graph.Denotes placed id (.var slot) := by
  intro Var assignment trees models
  rw [models.fits _ member, TypeTree.subst]

theorem of_base
    {id : TypeId}
    {base : BaseType}
    (known : graph.repository.layer? id = some (.base base)) :
    graph.Denotes placed id (.base base) := by
  intro Var assignment trees models
  rw [models.solves.layer id _ known, TypeTree.subst]
  rfl

theorem of_pointer
    {id pointee : TypeId}
    {term : TypeTree Slot}
    (known : graph.repository.layer? id = some (.pointer pointee))
    (denotes : graph.Denotes placed pointee term) :
    graph.Denotes placed id (.pointer term) := by
  intro Var assignment trees models
  rw [models.solves.layer id _ known, TypeTree.subst,
    ← denotes Var assignment trees models]
  rfl

theorem of_function
    {id : TypeId}
    {subtypes : List TypeId}
    {terms : List (TypeTree Slot)}
    (known : graph.repository.layer? id = some (.function subtypes))
    (denote : List.Forall₂ (graph.Denotes placed) subtypes terms) :
    graph.Denotes placed id (.function terms) := by
  intro Var assignment trees models
  have parts : subtypes.map trees = terms.map (TypeTree.subst assignment) := by
    rw [← List.forall₂_eq_eq_eq, List.forall₂_map_left_iff, List.forall₂_map_right_iff]
    exact denote.imp fun part term denotes => denotes Var assignment trees models
  rw [models.solves.layer id _ known, TypeTree.subst, ← parts]
  rfl

end Denotes

/-! ## Adding types -/

/-- A solution of a graph with more types solves the graph. -/
theorem Grows.solves
    (grows : graph.Grows grown)
    {trees : TypeId -> TypeTree Var}
    (solves : grown.Solves trees) :
    graph.Solves trees := by
  refine ⟨fun left right same => ?_, fun id layer known => ?_⟩
  · apply solves.same
    rw [Same, grows.root, grows.root]
    exact same
  · apply solves.layer
    rw [grows.layer id (Repository.lt_size_of_layer? _ known)]
    exact known

/-- A solution of a graph can be extended to more types, and those of which nothing
is known can have any tree. -/
theorem Grows.exists_solves
    (grows : graph.Grows grown)
    (wellFormed : graph.WellFormed)
    (grownWellFormed : grown.WellFormed)
    {trees : TypeId -> TypeTree Var}
    (solves : graph.Solves trees)
    (value : TypeTree Var) :
    ∃ more, grown.Solves more ∧
      (∀ id, id < graph.repository.size -> more id = trees id) ∧
      ∀ id, graph.repository.size ≤ id -> grown.repository.layer? id = none ->
        more id = value := by
  let values := fun id => if id < graph.repository.size then trees id else value
  refine ⟨grown.tree values, grownWellFormed.solves_tree values, ?_, ?_⟩
  · obtain ⟨height, falls⟩ := wellFormed.acyclic
    suffices upTo : ∀ bound id, height (graph.root id) < bound ->
        id < graph.repository.size -> grown.tree values id = trees id by
      exact fun id => upTo _ id (Nat.lt_succ_self _)
    intro bound
    -- The induction is on the height, which falls from a type to its parts.
    induction bound with
    | zero => intro id low; omega
    | succ bound ih =>
        intro id low exists_id
        have exists_root := wellFormed.root_lt id exists_id
        rw [grownWellFormed.tree_eq, grows.root, grows.layer _ exists_root,
          ← solves.root id]
        cases known : graph.repository.layer? (graph.root id) with
        | none => exact if_pos exists_root
        | some layer =>
            rw [solves.layer _ layer known]
            apply congrArg TypeTree.ofLayer
            apply Layer.map_congr
            intro part present
            have below := falls _ _ _ (root_root id) known present
            exact ih part (by omega)
              (wellFormed.part_lt _ _ known part present)
  · intro id beyond unknown
    have alone : grown.root id = id := by
      rw [grows.root, wellFormed.root_eq id beyond]
    rw [grownWellFormed.tree_eq, alone, unknown]
    exact if_neg (Nat.not_lt.mpr beyond)

namespace Captures

variable (captures : graph.Captures diagnostics placed Required)

include captures

/-- Adding types demands nothing. -/
theorem grow
    (grows : graph.Grows grown)
    (grownWellFormed : grown.WellFormed) :
    grown.Captures diagnostics placed Required := by
  refine ⟨grownWellFormed, fun pair member => ?_, captures.mismatches,
    fun Var assignment => ?_⟩
  · exact Nat.lt_of_lt_of_le (captures.lt_size pair member) grows.size_le
  · rw [captures.required]
    apply and_congr_right
    intro _
    constructor
    · rintro ⟨trees, models⟩
      obtain ⟨more, solves, same, -⟩ := grows.exists_solves captures.wellFormed
        grownWellFormed models.solves (.base .int)
      refine ⟨more, solves, fun pair member => ?_⟩
      rw [same _ (captures.lt_size pair member), models.fits pair member]
    · rintro ⟨trees, models⟩
      exact ⟨trees, grows.solves models.solves, models.fits⟩

/-- A new type of which nothing is known may stand for any slot. -/
theorem fresh (slot : Slot) (node : Option NodeId) :
    (graph.fresh node).2.Captures diagnostics ((slot, (graph.fresh node).1) :: placed)
      Required := by
  have provides := captures.wellFormed.provides_fresh node
  have new : graph.repository.size ≤ (graph.fresh node).1 := by
    rw [fresh_eq]
  refine ⟨provides.wellFormed, ?_, captures.mismatches, fun Var assignment => ?_⟩
  · rw [List.forall_mem_cons]
    refine ⟨provides.lt_size, fun pair member => ?_⟩
    exact Nat.lt_of_lt_of_le (captures.lt_size pair member) provides.grows.size_le
  · rw [captures.required]
    apply and_congr_right
    intro _
    constructor
    · rintro ⟨trees, models⟩
      obtain ⟨more, solves, same, given⟩ := provides.grows.exists_solves
        captures.wellFormed provides.wellFormed models.solves (assignment slot)
      refine ⟨more, solves, List.forall_mem_cons.mpr ⟨given _ new provides.layer, ?_⟩⟩
      intro pair member
      rw [same _ (captures.lt_size pair member), models.fits pair member]
    · rintro ⟨trees, models⟩
      exact ⟨trees, provides.grows.solves models.solves,
        (List.forall_mem_cons.mp models.fits).2⟩

/-- A type may stand for a further slot, if the slot has its tree. -/
theorem place
    {id : TypeId}
    {term : TypeTree Slot}
    (bound : id < graph.repository.size)
    (denotes : graph.Denotes placed id term)
    (slot : Slot) :
    graph.Captures diagnostics ((slot, id) :: placed) (Required.equate (.var slot) term) := by
  refine ⟨captures.wellFormed, List.forall_mem_cons.mpr ⟨bound, captures.lt_size⟩,
    captures.mismatches, ?_⟩
  intro Var assignment
  rw [Requirement.equate, captures.required, TypeTree.subst, and_assoc]
  apply and_congr_right
  intro _
  constructor
  · rintro ⟨⟨trees, models⟩, same⟩
    refine ⟨trees, models.solves, List.forall_mem_cons.mpr ⟨?_, models.fits⟩⟩
    rw [same, denotes Var assignment trees models]
  · rintro ⟨trees, models⟩
    obtain ⟨isPlaced, fits⟩ := List.forall_mem_cons.mp models.fits
    have fewer : graph.Models placed assignment trees := ⟨models.solves, fits⟩
    exact ⟨⟨trees, fewer⟩, isPlaced.symm.trans (denotes Var assignment trees fewer)⟩

/-- Demands that come to the same are captured alike. -/
theorem congr
    {Other : Requirement}
    (alike : ∀ (Var : Type) (assignment : Slot -> TypeTree Var),
      Required Var assignment ↔ Other Var assignment) :
    graph.Captures diagnostics placed Other where
  wellFormed := captures.wellFormed
  lt_size := captures.lt_size
  mismatches := captures.mismatches
  required := fun Var assignment =>
    (alike Var assignment).symm.trans (captures.required Var assignment)

/-- Once something has been reported, more may be demanded. -/
theorem strengthen
    {Stronger : Requirement}
    (reported : diagnostics ≠ #[])
    (stronger : ∀ (Var : Type) (assignment : Slot -> TypeTree Var),
      Stronger Var assignment -> Required Var assignment) :
    graph.Captures diagnostics placed Stronger where
  wellFormed := captures.wellFormed
  lt_size := captures.lt_size
  mismatches := captures.mismatches
  required := by
    intro Var assignment
    constructor
    · intro demanded
      exact (captures.required Var assignment).mp (stronger Var assignment demanded)
    · rintro ⟨silent, -⟩
      exact absurd silent reported

section Unify

variable
  {coarse : TypeGraph}
  {left right : TypeId}
  {leftTerm rightTerm : TypeTree Slot}
  (leftDenotes : graph.Denotes placed left leftTerm)
  (rightDenotes : graph.Denotes placed right rightTerm)

include leftDenotes rightDenotes

/-- A unification that succeeds demands one equation. -/
theorem unified (settles : graph.Settles [(left, right)] (.ok () coarse)) :
    coarse.Captures diagnostics placed (Required.equate leftTerm rightTerm) := by
  obtain ⟨wellFormed, coarsens, -, solves_iff⟩ := settles
  refine ⟨wellFormed, by rw [coarsens.repository]; exact captures.lt_size,
    captures.mismatches, ?_⟩
  intro Var assignment
  rw [Requirement.equate, captures.required, and_assoc]
  apply and_congr_right
  intro _
  have equates_iff : ∀ trees : TypeId -> TypeTree Var, graph.Models placed assignment trees ->
      (Equates trees [(left, right)] ↔
        leftTerm.subst assignment = rightTerm.subst assignment) := by
    intro trees models
    rw [equates_cons, leftDenotes Var assignment trees models,
      rightDenotes Var assignment trees models]
    simp
  constructor
  · rintro ⟨⟨trees, models⟩, same⟩
    exact ⟨trees, (solves_iff Var trees).mpr
      ⟨models.solves, (equates_iff trees models).mpr same⟩, models.fits⟩
  · rintro ⟨trees, models⟩
    obtain ⟨solves, equates⟩ := (solves_iff Var trees).mp models.solves
    have before : graph.Models placed assignment trees := ⟨solves, models.fits⟩
    exact ⟨⟨trees, before⟩, (equates_iff trees before).mp equates⟩

/-- Where a unification fails, the equation cannot be met, and that is reported. -/
theorem clashed
    {clash : Clash}
    (settles : graph.Settles [(left, right)] (.error (.failed clash) coarse))
    {diagnostic : Diagnostic}
    (isMismatch : diagnostic.IsMismatch) :
    coarse.Captures (diagnostics.push diagnostic) placed
      (Required.equate leftTerm rightTerm) := by
  obtain ⟨wellFormed, coarsens, unsolved⟩ := settles
  have mismatches : ∀ other ∈ diagnostics.push diagnostic, other.IsMismatch := by
    intro other member
    rcases Array.mem_push.mp member with earlier | rfl
    · exact captures.mismatches other earlier
    · exact isMismatch
  refine ⟨wellFormed, by rw [coarsens.repository]; exact captures.lt_size, mismatches, ?_⟩
  intro Var assignment
  constructor
  · rintro ⟨demanded, same⟩
    obtain ⟨-, trees, models⟩ := (captures.required Var assignment).mp demanded
    have equal : trees left = trees right := by
      rw [leftDenotes Var assignment trees models, rightDenotes Var assignment trees models,
        same]
    exact absurd (by simpa using equal) (unsolved Var trees models.solves)
  · rintro ⟨silent, -⟩
    exact absurd silent (by simp)

end Unify

end Captures

/-- Solutions of a graph can be extended by any tree for the new type. -/
def Free (graph grown : TypeGraph) (id : TypeId) : Prop :=
  ∀ (trees : TypeId -> TypeTree Empty) (value : TypeTree Empty), graph.Solves trees ->
    ∃ more, grown.Solves more ∧
      (∀ other, other < graph.repository.size -> more other = trees other) ∧ more id = value

theorem WellFormed.free_fresh (wellFormed : graph.WellFormed) (node : Option NodeId) :
    graph.Free (graph.fresh node).2 (graph.fresh node).1 := by
  intro trees value solves
  have provides := wellFormed.provides_fresh node
  obtain ⟨more, moreSolves, same, given⟩ :=
    provides.grows.exists_solves wellFormed provides.wellFormed solves value
  exact ⟨more, moreSolves, same, given _ (by rw [fresh_eq]) provides.layer⟩

/-- A new type can be made the same as an earlier one. -/
theorem WellFormed.exists_solves_free
    (wellFormed : graph.WellFormed)
    {id other : TypeId}
    (free : graph.Free grown id)
    (bound : other < graph.repository.size) :
    ∃ trees : TypeId -> TypeTree Empty, grown.Solves trees ∧ trees id = trees other := by
  obtain ⟨trees, solves⟩ := wellFormed.exists_solves Empty
  obtain ⟨more, moreSolves, same, given⟩ := free trees (trees other) solves
  exact ⟨more, moreSolves, by rw [given, same other bound]⟩

/-- Types that have a common tree in some solution are made the same. -/
theorem WellFormed.exists_unify
    (wellFormed : graph.WellFormed)
    {left right : TypeId}
    (leftExists : left < graph.repository.size)
    (rightExists : right < graph.repository.size)
    (solvable : ∃ trees : TypeId -> TypeTree Empty,
      graph.Solves trees ∧ trees left = trees right) :
    ∃ coarse, Unifier.unify left right graph = .ok () coarse ∧
      graph.Settles [(left, right)] (.ok () coarse) := by
  have settles := Unifier.settles_unify wellFormed leftExists rightExists
  match result : Unifier.unify left right graph, settles with
  | .ok _ coarse, settles => exact ⟨coarse, rfl, settles⟩
  | .error (.failed _) _, ⟨_, _, unsolved⟩ =>
      obtain ⟨trees, solves, equal⟩ := solvable
      exact absurd (by simpa using equal) (unsolved Empty trees solves)

/-- A new type can be unified with every type that was there before. -/
theorem WellFormed.exists_unify_fresh
    (wellFormed : graph.WellFormed)
    (node : Option NodeId)
    {other : TypeId}
    (bound : other < graph.repository.size) :
    ∃ coarse,
      Unifier.unify (graph.fresh node).1 other (graph.fresh node).2 = .ok () coarse ∧
        coarse.Same (graph.fresh node).1 other := by
  have provides := wellFormed.provides_fresh node
  obtain ⟨coarse, unified, _, _, joins, _⟩ :=
    provides.wellFormed.exists_unify provides.lt_size
      (Nat.lt_of_lt_of_le bound provides.grows.size_le)
      (wellFormed.exists_solves_free (wellFormed.free_fresh node) bound)
  exact ⟨coarse, unified, (joins_singleton _ _).mp joins⟩

end TypeGraph

/-! ## Steps of inference -/

namespace Infer

/-- A step goes on from where another one has come to. -/
theorem bind_eq
    {First Next : Type}
    {first : Infer First}
    {next : First -> Infer Next}
    {before after : Inference}
    {value : First}
    (ran : first before = .ok (value, after)) :
    (first >>= next) before = next value after := by
  simp only [bind, StateT.bind, ran, Except.bind]

theorem discard_eq
    {Value : Type}
    {action : Infer Value}
    {before after : Inference}
    {value : Value}
    (ran : action before = .ok (value, after)) :
    (discard action) before = .ok ((), after) := by
  simp only [discard, Functor.mapConst, StateT.map, Function.comp_apply, ran,
    bind, Except.bind]
  rfl

variable
  {inference : Inference}
  {placed : List (Slot × TypeId)}
  {Required : Requirement}

theorem pop_eq {id : TypeId} {rest : List TypeId} (stacked : inference.operands = id :: rest) :
    pop inference = .ok (id, { inference with operands := rest }) := by
  simp only [pop, bind, StateT.bind, get, getThe, MonadStateOf.get, StateT.get, pure,
    Except.pure, Except.bind, stacked]
  rfl

/-- The latest types come in the order of the operands. -/
theorem popMany_eq
    {ids rest : List TypeId}
    (stacked : inference.operands = ids.reverse ++ rest) :
    popMany ids.length inference = .ok (ids, { inference with operands := rest }) := by
  have enough : ¬ inference.operands.length < ids.length := by
    simp [stacked]
  have taken : (inference.operands.take ids.length).reverse = ids := by
    rw [stacked, List.take_left' (List.length_reverse ..), List.reverse_reverse]
  have left : inference.operands.drop ids.length = rest := by
    rw [stacked, List.drop_left' (List.length_reverse ..)]
  simp only [popMany, bind, StateT.bind, get, getThe, MonadStateOf.get, StateT.get, pure,
    Except.pure, Except.bind, if_neg enough, taken, left]
  rfl

section Types

variable
  (inference : Inference)
  (captures : inference.graph.Captures inference.diagnostics placed Required)

include captures

/-- A new type of which nothing is known may stand for any slot. -/
theorem exists_fresh (slot : Slot) (node : NodeId) :
    ∃ id graph,
      fresh node inference = .ok (id, { inference with graph }) ∧
        graph.Captures inference.diagnostics ((slot, id) :: placed) Required ∧
        inference.graph.Grows graph ∧ inference.graph.Free graph id :=
  ⟨_, _, rfl, captures.fresh slot (some node),
    (captures.wellFormed.provides_fresh (some node)).grows,
    captures.wellFormed.free_fresh (some node)⟩

theorem exists_base (kind : BaseType) :
    ∃ id graph,
      base kind inference = .ok (id, { inference with graph }) ∧
        graph.Captures inference.diagnostics placed Required ∧
        inference.graph.Grows graph ∧ id < graph.repository.size ∧
        graph.repository.layer? id = some (.base kind) := by
  have provides := captures.wellFormed.provides_base kind
  exact ⟨_, _, rfl, captures.grow provides.grows provides.wellFormed, provides.grows,
    provides.lt_size, provides.layer⟩

theorem exists_pointer
    {pointee : TypeId}
    {slot : Slot}
    (isPlaced : (slot, pointee) ∈ placed) :
    ∃ id graph,
      pointer pointee inference = .ok (id, { inference with graph }) ∧
        graph.Captures inference.diagnostics placed Required ∧
        id < graph.repository.size ∧ graph.Denotes placed id (.pointer (.var slot)) := by
  have provides := captures.wellFormed.provides_pointer pointee
    (captures.lt_size (slot, pointee) isPlaced)
  exact ⟨_, _, rfl, captures.grow provides.grows provides.wellFormed, provides.lt_size,
    .of_pointer provides.layer (.of_mem isPlaced)⟩

theorem exists_function
    {subtypes : List TypeId}
    {slots : List Slot}
    (isPlaced : List.Forall₂ (fun id slot => (slot, id) ∈ placed) subtypes slots) :
    ∃ id graph,
      function subtypes inference = .ok (id, { inference with graph }) ∧
        graph.Captures inference.diagnostics placed Required ∧
        id < graph.repository.size ∧ graph.Denotes placed id (.function (slots.map .var)) := by
  have bound : ∀ part ∈ subtypes, part < inference.graph.repository.size :=
    ((List.forall₂_and_left _ _).mp (isPlaced.imp fun part slot listed =>
      ⟨captures.lt_size (slot, part) listed, listed⟩)).1
  have provides := captures.wellFormed.provides_function subtypes bound
  refine ⟨_, _, rfl, captures.grow provides.grows provides.wellFormed, provides.lt_size,
    .of_function provides.layer ?_⟩
  rw [List.forall₂_map_right_iff]
  exact isPlaced.imp fun _ _ listed => .of_mem listed

end Types

theorem unify_eq
    {left right : TypeId}
    {graph : TypeGraph}
    (unified : Unifier.unify left right inference.graph = .ok () graph) :
    unify left right inference = .ok (.ok (), { inference with graph }) := by
  simp only [unify, bind, StateT.bind, get, getThe, MonadStateOf.get, StateT.get, pure,
    Except.pure, Except.bind, unified]
  rfl

/-- Where unification succeeds, nothing is reported. -/
theorem unifyAt_eq
    {tree : Tree}
    {node : NodeId}
    {left right : TypeId}
    {graph : TypeGraph}
    (unified : Unifier.unify left right inference.graph = .ok () graph) :
    unifyAt tree node left right inference = .ok (true, { inference with graph }) := by
  rw [unifyAt, bind_eq (unify_eq unified)]
  rfl

/-- Where unification fails, the two types are reported with the texts that they have then. -/
theorem exists_unifyAt_of_failed
    {tree : Tree}
    {node : NodeId}
    {left right : TypeId}
    {clash : Clash}
    {graph : TypeGraph}
    (failed : Unifier.unify left right inference.graph = .error (.failed clash) graph)
    (wellFormed : graph.WellFormed)
    (leftExists : left < graph.repository.size)
    (rightExists : right < graph.repository.size)
    (located : ∃ location, tree.location node = .ok location) :
    ∃ diagnostic : Diagnostic,
      diagnostic.IsMismatch ∧ tree.location node = .ok diagnostic.location ∧
        unifyAt tree node left right inference =
          .ok (false, { inference with
            graph
            diagnostics := inference.diagnostics.push diagnostic }) := by
  obtain ⟨location, located⟩ := located
  obtain ⟨leftText, leftRendered⟩ := wellFormed.exists_render leftExists
  obtain ⟨rightText, rightRendered⟩ := wellFormed.exists_render rightExists
  refine ⟨{ cause := .mismatch leftText rightText, location }, ⟨_, _, rfl⟩, located, ?_⟩
  simp only [unifyAt, unify, bind, StateT.bind, get, getThe, MonadStateOf.get,
    StateT.get, pure, Except.pure, Except.bind, failed, set, StateT.set, StateT.pure,
    liftM, monadLift, MonadLift.monadLift, StateT.lift, leftRendered, rightRendered,
    located]

section Unify

variable
  (inference : Inference)
  {left right : TypeId}
  {leftTerm rightTerm : TypeTree Slot}
  (captures : inference.graph.Captures inference.diagnostics placed Required)
  (leftExists : left < inference.graph.repository.size)
  (rightExists : right < inference.graph.repository.size)
  (leftDenotes : inference.graph.Denotes placed left leftTerm)
  (rightDenotes : inference.graph.Denotes placed right rightTerm)

include captures leftExists rightExists leftDenotes rightDenotes

/-- Types that have a common tree in some solution are made the same. -/
theorem exists_unify
    (solvable : ∃ trees : TypeId -> TypeTree Empty,
      inference.graph.Solves trees ∧ trees left = trees right) :
    ∃ graph,
      unify left right inference = .ok (.ok (), { inference with graph }) ∧
        graph.repository = inference.graph.repository ∧
        graph.Captures inference.diagnostics placed
          (Required.equate leftTerm rightTerm) := by
  obtain ⟨coarse, unified, settles⟩ :=
    captures.wellFormed.exists_unify leftExists rightExists solvable
  exact ⟨coarse, unify_eq unified, settles.2.1.repository,
    captures.unified leftDenotes rightDenotes settles⟩

/-- Types are made the same, or something is reported. -/
theorem exists_unifyAt
    {tree : Tree}
    {node : NodeId}
    (located : ∃ location, tree.location node = .ok location) :
    ∃ success graph diagnostics,
      unifyAt tree node left right inference =
          .ok (success, { inference with graph, diagnostics }) ∧
        graph.repository = inference.graph.repository ∧
        graph.Captures diagnostics placed (Required.equate leftTerm rightTerm) ∧
        (success = false -> diagnostics ≠ #[]) := by
  have settles := Unifier.settles_unify captures.wellFormed leftExists rightExists
  match result : Unifier.unify left right inference.graph, settles with
  | .ok _ coarse, settles =>
      exact ⟨true, coarse, inference.diagnostics, unifyAt_eq result, settles.2.1.repository,
        captures.unified leftDenotes rightDenotes settles, by simp⟩
  | .error (.failed _) coarse, settles =>
      have sameTypes := settles.2.1.repository
      obtain ⟨diagnostic, isMismatch, -, reported⟩ :=
        exists_unifyAt_of_failed result settles.1 (sameTypes ▸ leftExists)
          (sameTypes ▸ rightExists) located
      exact ⟨false, coarse, _, reported, sameTypes,
        captures.clashed leftDenotes rightDenotes settles isMismatch, by simp⟩

end Unify

end Infer

end Frontend
