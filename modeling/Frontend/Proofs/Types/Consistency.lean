import Frontend.Proofs.Types.Table
import Frontend.Proofs.Types.Unification

/-!
# Consistency of type graphs

Whatever operations lead to a type graph, and whatever clashes there were on the
way, no set of types is a part of itself, a set is represented by a type of which
something is known if it has one, and what is known of the types of one set is the
same. So the recursions over the graph come to an end. Each of them is bounded by a
depth, and beyond the depth that it needs the bound makes no difference. Nor does it
make a difference whether the ways to representatives are shortened.
-/

namespace Frontend

/-- Beyond some depth, a computation with bounded depth has this outcome. -/
def Converges {Outcome : Type} (compute : Nat -> Outcome) (outcome : Outcome) : Prop :=
  ∃ bound, ∀ depth, bound ≤ depth -> compute depth = outcome

/-- The terms have one constructor, and the same base type if they have one. -/
def Term.SameHead : Term -> Term -> Prop
  | .unbound, .unbound => True
  | .base left, .base right => left = right
  | .pointer _, .pointer _ => True
  | .function _ _, .function _ _ => True
  | _, _ => False

namespace TypeGraph

variable (graph : TypeGraph)

/-- Some type in the set of the first representative has a subtype in the set of the
second one. -/
def HasPart (whole part : TypeId) : Prop :=
  ∃ id subtypes subtype,
    graph.root id = whole ∧ graph.repository.subtypes id = .ok subtypes ∧
      subtype ∈ subtypes ∧ graph.root subtype = part

/-- The sets of a graph fit together. -/
structure Consistent : Prop where
  /-- No set is a part of itself, or of its parts, and so on. -/
  acyclic : ∀ id, ¬ Relation.TransGen graph.HasPart id id
  /-- Something is known of the representative if it is known of any member. -/
  represented : ∀ id term,
    graph.repository.term id = .ok term -> term ≠ .unbound ->
      ∃ top, graph.repository.term (graph.root id) = .ok top ∧ top ≠ .unbound
  /-- Members of which something is known agree in it. Their subtypes are in the same
  sets, one by one, so there are equally many. -/
  agree : ∀ left right leftTerm rightTerm,
    graph.Same left right ->
      graph.repository.term left = .ok leftTerm -> leftTerm ≠ .unbound ->
        graph.repository.term right = .ok rightTerm -> rightTerm ≠ .unbound ->
          leftTerm.SameHead rightTerm ∧
            (graph.repository.termSubtypes leftTerm).map graph.root =
              (graph.repository.termSubtypes rightTerm).map graph.root

/-- The recursions over a graph come to an end, on all types that exist. -/
structure Answers : Prop where
  unify : ∀ left right, left < graph.repository.size -> right < graph.repository.size ->
    ∃ outcome,
      (outcome = .ok () (graph.unified left right) ∨
        ∃ clash, outcome = .error (.failed clash) (graph.unified left right)) ∧
      Unifier.unify left right graph = outcome ∧
      Converges (fun depth => Unifier.unifyWithin depth left right graph) outcome
  occurs : ∀ part id, id < graph.repository.size ->
    ∃ answer, graph.occurs part id = .ok answer ∧
      Converges (fun depth => graph.occursWithin part depth id) (.ok answer)
  render : ∀ id, id < graph.repository.size ->
    ∃ text, graph.render id = .ok text ∧
      Converges (fun depth => graph.repository.renderWithin graph.root depth id) (.ok text)
  /-- A walk that ends with the graph makes a table, in which each type has a text. -/
  table : ∀ inference : Inference, inference.graph = graph -> inference.operands = [] ->
    ∃ table, inference.table = .ok table ∧
      ∀ id, id < graph.repository.size ->
        ∃ text, table.render id = .ok text ∧
          Converges
            (fun depth => table.repository.renderWithin table.canonical depth id) (.ok text)

variable {graph}

/-! ## Sets that fit together -/

/-- A term that is known says something of its type. -/
theorem exists_layer?
    {id : TypeId}
    {term : Term}
    (found : graph.repository.term id = .ok term)
    (bound : term ≠ .unbound) :
    ∃ layer, graph.repository.layerOfTerm? term = some layer ∧
      graph.repository.layer? id = some layer := by
  obtain ⟨layer, known⟩ := Option.ne_none_iff_exists'.mp
    (mt (graph.repository.layerOfTerm?_eq_none_iff term).mp bound)
  exact ⟨layer, known, by rw [Repository.layer?, found]; exact known⟩

/-- The height falls from a set to its parts, whichever member has them. -/
theorem WellFormed.height_lt_of_hasPart
    (wellFormed : graph.WellFormed)
    {height : TypeId -> Nat}
    (falls : graph.FallsAlong height)
    {whole part : TypeId}
    (hasPart : graph.HasPart whole part) :
    height part < height whole := by
  obtain ⟨id, subtypes, subtype, rfl, found, present, rfl⟩ := hasPart
  have bound : id < graph.repository.size := by
    rw [← Repository.exists_term_iff]
    obtain ⟨term, termFound, _⟩ := exists_of_bind_eq_ok found
    exact ⟨term, termFound⟩
  rw [subtypes_eq bound, Except.ok.injEq] at found
  subst found
  cases known : graph.repository.layer? id with
  | none => simp [known] at present
  | some layer =>
      obtain ⟨top, topKnown, equal⟩ := wellFormed.layer_root id layer known
      rw [known, Option.elim_some] at present
      have among : graph.root subtype ∈ (top.map graph.root).parts := by
        rw [← equal, Layer.parts_map]
        exact List.mem_map_of_mem present
      rw [Layer.parts_map, List.mem_map] at among
      obtain ⟨topPart, topPresent, same⟩ := among
      rw [← same]
      exact falls _ top topPart (root_root id) topKnown topPresent

/-- Heads agree where the layers do. -/
theorem sameHead_of_map_eq
    {leftTerm rightTerm : Term}
    {left right : Layer TypeId}
    (leftKnown : graph.repository.layerOfTerm? leftTerm = some left)
    (rightKnown : graph.repository.layerOfTerm? rightTerm = some right)
    (equal : left.map graph.root = right.map graph.root) :
    leftTerm.SameHead rightTerm := by
  cases leftTerm <;> cases rightTerm <;>
    simp only [Repository.layerOfTerm?, Option.some.injEq, reduceCtorEq] at leftKnown rightKnown <;>
    subst leftKnown rightKnown <;>
    simp_all [Layer.map, Term.SameHead]

/-- In a well-formed graph the sets fit together. -/
theorem WellFormed.consistent (wellFormed : graph.WellFormed) : graph.Consistent := by
  refine ⟨fun id cycle => ?_, ?_, ?_⟩
  · obtain ⟨height, falls⟩ := wellFormed.acyclic
    have lower : ∀ whole part, Relation.TransGen graph.HasPart whole part ->
        height part < height whole := by
      intro whole part path
      induction path with
      | single hasPart => exact wellFormed.height_lt_of_hasPart falls hasPart
      | tail _ hasPart ih =>
          exact (wellFormed.height_lt_of_hasPart falls hasPart).trans ih
    exact Nat.lt_irrefl _ (lower id id cycle)
  · intro id term found bound
    obtain ⟨layer, _, known⟩ := exists_layer? found bound
    obtain ⟨top, topKnown, _⟩ := wellFormed.layer_root id layer known
    obtain ⟨topTerm, topFound⟩ := (graph.repository.exists_term_iff _).mpr
      (Repository.lt_size_of_layer? _ topKnown)
    refine ⟨topTerm, topFound, ?_⟩
    rintro rfl
    rw [Repository.layer?, topFound] at topKnown
    cases topKnown
  · intro left right leftTerm rightTerm same leftFound leftBound rightFound rightBound
    obtain ⟨leftLayer, leftSays, leftKnown⟩ := exists_layer? leftFound leftBound
    obtain ⟨rightLayer, rightSays, rightKnown⟩ := exists_layer? rightFound rightBound
    obtain ⟨top, topKnown, leftEqual⟩ := wellFormed.layer_root left leftLayer leftKnown
    obtain ⟨otherTop, otherKnown, rightEqual⟩ :=
      wellFormed.layer_root right rightLayer rightKnown
    have sameTop : top = otherTop := by
      rw [← same, topKnown] at otherKnown
      exact Option.some.inj otherKnown
    have equal : leftLayer.map graph.root = rightLayer.map graph.root := by
      rw [leftEqual, rightEqual, sameTop]
    refine ⟨sameHead_of_map_eq leftSays rightSays equal, ?_⟩
    rw [← Repository.parts_of_layerOfTerm? _ leftSays,
      ← Repository.parts_of_layerOfTerm? _ rightSays, ← Layer.parts_map, ← Layer.parts_map,
      equal]

end TypeGraph

/-! ## Depths that make no difference -/

namespace Unifier

open TypeGraph

/-- A unifier has the outcome of another one, unless that one is given up. -/
def Outlasts {α : Type} (unifier other : Unifier α) : Prop :=
  ∀ graph, unifier graph = other graph ∨ ∃ last, other graph = .error (.fault .endless) last

theorem Outlasts.refl {α : Type} (unifier : Unifier α) : Outlasts unifier unifier :=
  fun _ => .inl rfl

theorem Outlasts.bind
    {α β : Type}
    {first other : Unifier α}
    {next later : α -> Unifier β}
    (outlasts : Outlasts first other)
    (goesOn : ∀ value, Outlasts (next value) (later value)) :
    Outlasts (first >>= next) (other >>= later) := by
  intro graph
  simp only [Bind.bind, EStateM.bind]
  rcases outlasts graph with same | ⟨last, givenUp⟩
  · rw [same]
    cases other graph with
    | ok value coarse => exact goesOn value coarse
    | error stop coarse => exact .inl rfl
  · rw [givenUp]
    exact .inr ⟨last, rfl⟩

theorem Outlasts.forM
    {α : Type}
    {unifier other : α -> Unifier Unit}
    (outlasts : ∀ item, Outlasts (unifier item) (other item))
    (items : List α) :
    Outlasts (items.forM unifier) (items.forM other) := by
  induction items with
  | nil => exact .refl _
  | cons item items ih => exact (outlasts item).bind fun _ => ih

/-- Allowing calls to be nested deeper changes no outcome but that of giving up. -/
theorem outlasts_unifyWithin {depth other : Nat} (deeper : depth ≤ other) (left right : TypeId) :
    Outlasts (unifyWithin other left right) (unifyWithin depth left right) := by
  induction depth generalizing other left right with
  | zero => exact fun graph => .inr ⟨graph, rfl⟩
  | succ depth ih =>
      obtain ⟨other, rfl⟩ : ∃ smaller, other = smaller + 1 := ⟨other - 1, by omega⟩
      have parts := fun left right =>
        ih (Nat.le_of_succ_le_succ deeper) left right
      rw [unifyWithin, unifyWithin]
      refine (Outlasts.refl _).bind fun graph => ?_
      dsimp only
      split
      · exact .refl _
      refine (Outlasts.refl _).bind fun leftTerm => (Outlasts.refl _).bind fun rightTerm => ?_
      -- Only for two pointers or two functions are there calls for parts.
      cases leftTerm <;> cases rightTerm <;> try exact .refl _
      case pointer.pointer => exact (parts _ _).bind fun _ => .refl _
      case function.function =>
          dsimp only
          split
          · exact .refl _
          · have pairs := fun pair : TypeId × TypeId => parts pair.1 pair.2
            exact (Outlasts.forM pairs _).bind fun _ => .refl _

/-- Unification has an outcome that does not hang on the depth that it is allowed. -/
theorem converges_unify
    {graph : TypeGraph}
    (wellFormed : graph.WellFormed)
    {left right : TypeId}
    (leftExists : left < graph.repository.size)
    (rightExists : right < graph.repository.size) :
    Converges (fun depth => unifyWithin depth left right graph) (unify left right graph) := by
  refine ⟨(graph.repository.size + 1) ^ 3, fun depth deeper => ?_⟩
  rcases outlasts_unifyWithin deeper left right graph with same | ⟨last, givenUp⟩
  · exact same
  · have settles : graph.Settles _
        (unifyWithin ((graph.repository.size + 1) ^ 3) left right graph) :=
      settles_unify wellFormed leftExists rightExists
    rw [givenUp] at settles
    exact settles.elim

end Unifier

/-! ## Ways that make no difference -/

/-- The graphs have the same types with the same representatives. The ways to these may
differ. -/
structure TypeGraph.AgreesWith (graph other : TypeGraph) : Prop where
  repository : other.repository = graph.repository
  root : other.root = graph.root

/-- Looking a type up gives its representative, and only shortens ways. -/
theorem TypeGraph.agreesWith_find (graph : TypeGraph) (id : TypeId) :
    (graph.find id).1 = graph.root id ∧ graph.AgreesWith (graph.find id).2 :=
  ⟨rfl, rfl, funext (graph.partition.root_find id)⟩

theorem TypeGraph.AgreesWith.occursWithin_eq
    {graph other : TypeGraph}
    (agrees : graph.AgreesWith other)
    (part : TypeId)
    (depth : Nat) :
    other.occursWithin part depth = graph.occursWithin part depth := by
  induction depth with
  | zero => rfl
  | succ depth ih =>
      funext id
      rw [occursWithin, occursWithin, agrees.root, agrees.repository, ih]

namespace Unifier

variable {α β : Type}

/-- The outcomes have the same result, and graphs that agree. -/
inductive SameOutcome :
    EStateM.Result (Stop Clash) TypeGraph α -> EStateM.Result (Stop Clash) TypeGraph α -> Prop
  | ok {graph other : TypeGraph} (value : α) :
      graph.AgreesWith other -> SameOutcome (.ok value graph) (.ok value other)
  | error {graph other : TypeGraph} (stop : Stop Clash) :
      graph.AgreesWith other -> SameOutcome (.error stop graph) (.error stop other)

/-- The unifier does not depend on the ways to representatives. -/
def Respects (unifier : Unifier α) : Prop :=
  ∀ graph other, graph.AgreesWith other -> SameOutcome (unifier graph) (unifier other)

theorem respects_ofFault : ∀ computation : Except Fault α, Respects (ofFault computation)
  | .ok value => fun _ _ => .ok value
  | .error fault => fun _ _ => .error (.fault fault)

theorem Respects.bind
    {first : Unifier α}
    {next : α -> Unifier β}
    (respects : Respects first)
    (goesOn : ∀ value, Respects (next value)) :
    Respects (first >>= next) := by
  intro graph other agrees
  have same := respects graph other agrees
  simp only [Bind.bind, EStateM.bind]
  generalize first graph = result, first other = twin at same ⊢
  cases same with
  | ok value agrees => exact goesOn value _ _ agrees
  | error stop agrees => exact .error stop agrees

theorem Respects.forM
    {unifier : α -> Unifier Unit}
    (respects : ∀ item, Respects (unifier item))
    (items : List α) :
    Respects (items.forM unifier) := by
  induction items with
  | nil => exact fun _ _ => .ok ()
  | cons item items ih => exact (respects item).bind fun _ => ih

/-- What asks the graph only for types and representatives does not see the ways. -/
theorem respects_get
    {next : TypeGraph -> Unifier α}
    (same : ∀ graph other, graph.AgreesWith other -> next other = next graph)
    (respects : ∀ graph, Respects (next graph)) :
    Respects (get >>= next) := by
  intro graph other agrees
  change SameOutcome (next graph graph) (next other other)
  rw [same graph other agrees]
  exact respects graph graph other agrees

theorem respects_merge (source target : TypeId) : Respects (merge source target) := by
  refine fun graph other agrees => .ok () ⟨agrees.repository, funext fun id => ?_⟩
  have same : other.partition.root = graph.partition.root := agrees.root
  simp only [TypeGraph.root, Partition.root_union, same]

theorem respects_assign (source target : TypeId) : Respects (assign source target) := by
  refine respects_get (fun graph other agrees => ?_) fun graph => ?_
  · rw [TypeGraph.occurs, agrees.occursWithin_eq, agrees.repository]
    rfl
  · refine (respects_ofFault _).bind fun found => ?_
    cases found with
    | true => exact fun _ _ => .error _
    | false => exact respects_merge source target

theorem respects_unifyWithin (depth : Nat) (left right : TypeId) :
    Respects (unifyWithin depth left right) := by
  induction depth generalizing left right with
  | zero => exact fun _ _ => .error _
  | succ depth ih =>
      refine respects_get (fun _ _ agrees => by rw [agrees.root, agrees.repository]) ?_
      intro graph
      dsimp only
      split
      · exact fun _ _ => .ok ()
      refine (respects_ofFault _).bind fun _ => (respects_ofFault _).bind fun _ => ?_
      split
      · exact respects_merge _ _
      · exact respects_assign _ _
      · exact respects_assign _ _
      · split
        · exact respects_merge _ _
        · exact fun _ _ => .error _
      · exact (ih _ _).bind fun _ => respects_merge _ _
      · split
        · exact fun _ _ => .error _
        · exact (Respects.forM (fun _ => ih _ _) _).bind fun _ => respects_merge _ _
      · exact fun _ _ => .error _

/-- Unification has the same outcome, whether or not ways have been shortened. -/
theorem respects_unify (left right : TypeId) : Respects (unify left right) :=
  respects_get (fun _ _ agrees => by rw [agrees.repository]) fun _ =>
    respects_unifyWithin _ left right

end Unifier

namespace TypeGraph

variable {graph : TypeGraph}

/-- In a well-formed graph the recursions come to an end. -/
theorem WellFormed.answers (wellFormed : graph.WellFormed) : graph.Answers := by
  refine ⟨?_, ?_, ?_, ?_⟩
  · intro left right leftExists rightExists
    refine ⟨_, ?_, rfl, Unifier.converges_unify wellFormed leftExists rightExists⟩
    have settles := Unifier.settles_unify wellFormed leftExists rightExists
    simp only [TypeGraph.unified]
    match Unifier.unify left right graph, settles with
    | .ok _ coarse, _ => exact .inl rfl
    | .error (.failed clash) coarse, _ => exact .inr ⟨clash, rfl⟩
  · intro part id bound
    obtain ⟨height, falls, bounded⟩ := wellFormed.exists_bounded
    refine ⟨_, wellFormed.occurs_eq part id bound, graph.repository.size + 1, ?_⟩
    intro depth deep
    have low := bounded (graph.root id)
    exact wellFormed.occursWithin_eq falls part depth id bound (by omega)
  · intro id bound
    exact ⟨_, wellFormed.renderWithin_eq bound (Nat.lt_succ_self _), graph.repository.size + 1,
      fun depth deep => wellFormed.renderWithin_eq bound deep⟩
  · rintro inference rfl finished
    obtain ⟨table, made, _, _, presents⟩ := inference.exists_table wellFormed finished
    refine ⟨table, made, fun id bound => ?_⟩
    refine ⟨_, presents.renderWithin_eq wellFormed bound ?_, inference.graph.repository.size + 1,
      fun depth deep => presents.renderWithin_eq wellFormed bound deep⟩
    rw [presents.size]
    exact Nat.lt_succ_self _

/-- In every graph that operations lead to, also through clashes, the sets of types fit
together, and so the recursions over the graph come to an end. -/
theorem reachable_fits_together
    (reachable : graph.Reachable) :
    graph.Consistent ∧ graph.Answers :=
  ⟨reachable.wellFormed.consistent, reachable.wellFormed.answers⟩

/-- A function type from an unknown type to an integer and one from an integer to a truth
value clash. If they did not, the results would be in one set and disagree. -/
theorem reachable_fits_together_clashing :
    ∃ (graph unified : TypeGraph) (clash : Clash),
      graph = (((((({} : TypeGraph).fresh none).2.base .int).2.base .bool).2.function
          [0, 1]).2.function [1, 2]).2 ∧
        Unifier.unify 3 4 graph = .error (.failed clash) unified ∧
          unified.Reachable ∧ unified.Consistent ∧ unified.Answers := by
  obtain ⟨graph, made, reachable, leftExists, rightExists, leftTerm, rightTerm, intTerm,
      boolTerm, leftSubtypes, rightSubtypes⟩ :
      ∃ graph : TypeGraph,
        graph = (((((({} : TypeGraph).fresh none).2.base .int).2.base .bool).2.function
            [0, 1]).2.function [1, 2]).2 ∧
          graph.Reachable ∧ 3 < graph.repository.size ∧ 4 < graph.repository.size ∧
          graph.repository.term 3 = .ok (.function 0 2) ∧
          graph.repository.term 4 = .ok (.function 2 4) ∧
          graph.repository.term 1 = .ok (.base .int) ∧
          graph.repository.term 2 = .ok (.base .bool) ∧
          graph.repository.termSubtypes (.function 0 2) = [0, 1] ∧
          graph.repository.termSubtypes (.function 2 4) = [1, 2] := by
    refine ⟨_, rfl, ?_, by decide, by decide, rfl, rfl, rfl, rfl, rfl, rfl⟩
    exact ((((Relation.ReflTransGen.single (.fresh none)).tail (.base .int)).tail
      (.base .bool)).tail (.function (by decide))).tail (.function (by decide))
  have unifiedReachable : (graph.unified 3 4).Reachable :=
    reachable.tail (.unify leftExists rightExists)
  have fits := reachable_fits_together unifiedReachable
  have settles := Unifier.settles_unify reachable.wellFormed leftExists rightExists
  match result : Unifier.unify 3 4 graph, settles with
  | .error (.failed clash) unified, _ =>
      have left : graph.unified 3 4 = unified := by rw [TypeGraph.unified, result]
      rw [left] at unifiedReachable fits
      exact ⟨graph, unified, clash, made, result, unifiedReachable, fits⟩
  | .ok _ unified, ⟨_, coarsens, joins, _⟩ =>
      have left : graph.unified 3 4 = unified := by rw [TypeGraph.unified, result]
      rw [left] at fits
      have agree := fits.1.agree
      rw [coarsens.repository] at agree
      have subtypes := (agree 3 4 _ _ ((joins_singleton 3 4).mp joins) leftTerm (by decide)
        rightTerm (by decide)).2
      rw [leftSubtypes, rightSubtypes] at subtypes
      have results : unified.Same 1 2 := by
        simp only [List.map_cons, List.cons.injEq] at subtypes
        exact subtypes.2.1
      have head := (agree 1 2 _ _ results intTerm (by decide) boolTerm (by decide)).1
      simp [Term.SameHead] at head

end TypeGraph
end Frontend
