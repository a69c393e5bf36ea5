import Frontend.Proofs.Types.Nodes
import Frontend.Proofs.Types.Specialization

/-!
# Steps of inference

Whatever tree is walked through, a step of inference at a node is a sequence of moves: it
works on the type graph, reports a clash at the node, gives the node a type, and so on.
What every move keeps true holds in all states of a walk. The type graph is one that its
operations lead to, every type that is kept somewhere exists, and diagnostics are about
types that do not agree.
-/

namespace Frontend

namespace TypeGraph

variable {graph next : TypeGraph}

/-- A unification that succeeds is an operation. -/
theorem Step.of_unified
    {left right : TypeId}
    (leftExists : left < graph.repository.size)
    (rightExists : right < graph.repository.size)
    (unified : Unifier.unify left right graph = .ok () next) :
    graph.Step next := by
  have step := Step.unify leftExists rightExists
  rwa [TypeGraph.unified, unified] at step

/-- A unification that fails is an operation as well. -/
theorem Step.of_failed
    {left right : TypeId}
    {stop : Stop Clash}
    (leftExists : left < graph.repository.size)
    (rightExists : right < graph.repository.size)
    (failed : Unifier.unify left right graph = .error stop next) :
    graph.Step next := by
  have step := Step.unify leftExists rightExists
  rwa [TypeGraph.unified, failed] at step

/-- The runs of function types lie in the pool, and none of them ends before it
starts. -/
def RunsInside (graph : TypeGraph) : Prop :=
  ∀ id start stop, graph.repository.term id = .ok (.function start stop) ->
    start ≤ stop ∧ stop ≤ graph.repository.pool.size

theorem RunsInside.add
    (inside : graph.RunsInside)
    {entry : TypeEntry}
    {run : List TypeId}
    {bases : List (BaseType × TypeId)}
    (entryInside : ∀ start stop, entry.term = .function start stop ->
      start ≤ stop ∧ stop ≤ graph.repository.pool.size + run.length) :
    (graph.add entry run bases).RunsInside := by
  intro id start stop found
  rw [pool_size_add]
  rcases term_add_cases entry run bases found with old | isNew
  · have runInside := inside id start stop old
    exact ⟨runInside.1, Nat.le_add_right_of_le runInside.2⟩
  · exact entryInside start stop isNew

theorem RunsInside.step
    (inside : graph.RunsInside)
    (wellFormed : graph.WellFormed)
    (step : graph.Step next) :
    next.RunsInside := by
  cases step with
  | fresh node =>
      rw [fresh_eq]
      exact inside.add (by simp)
  | base base =>
      cases found : graph.repository.bases.lookup base with
      | some id =>
          rw [base_eq_of_lookup found]
          exact inside
      | none =>
          rw [base_eq_of_lookup_eq_none found]
          exact inside.add (by simp)
  | pointer bound =>
      rw [pointer_eq]
      exact inside.add (by simp)
  | function bound =>
      rw [function_eq]
      apply inside.add
      intro start stop same
      cases same
      rw [size_append_list]
      omega
  | find bound => exact inside
  | unify leftExists rightExists =>
      unfold RunsInside
      rw [(wellFormed.unified leftExists rightExists).2.repository]
      exact inside

/-- The runs of every graph that operations lead to are inside its pool. -/
theorem Reachable.runsInside (reachable : graph.Reachable) : graph.RunsInside := by
  induction reachable with
  | refl =>
      intro id start stop found
      exact absurd ((Repository.exists_term_iff _ id).mp ⟨_, found⟩) (Nat.not_lt_zero id)
  | tail reached step inside => exact inside.step (Reachable.wellFormed reached) step

end TypeGraph

/-- What every step keeps true of the types and the diagnostics. -/
structure Inference.Sound (inference : Inference) : Prop where
  reachable : inference.graph.Reachable
  operands : ∀ id ∈ inference.operands, id < inference.graph.repository.size
  results : ∀ id ∈ inference.results, id < inference.graph.repository.size
  nameTypes : ∀ (name : QualifiedName) (id : TypeId),
    inference.nameTypes[name]? = some id -> id < inference.graph.repository.size
  nodeTypes : ∀ (node : NodeId) (id : TypeId),
    inference.nodeTypes[node]? = some id -> id < inference.graph.repository.size
  mismatches : ∀ diagnostic ∈ inference.diagnostics, diagnostic.IsMismatch

namespace Inference

variable {tree : Tree} {node : NodeId} {before after : Inference}

/-- One thing that a step of inference at a node may do to the state. -/
inductive Move (tree : Tree) (node : NodeId) (before : Inference) : Inference -> Prop
  | graph {graph : TypeGraph} :
      before.graph.Step graph -> Move tree node before { before with graph }
  /-- Two types clash, and are reported with the texts that they have then. -/
  | report
      {left right : TypeId}
      {clash : Clash}
      {graph : TypeGraph}
      {leftText rightText : String}
      {location : Location} :
      left < before.graph.repository.size -> right < before.graph.repository.size ->
        Unifier.unify left right before.graph = .error (.failed clash) graph ->
          graph.render left = .ok leftText -> graph.render right = .ok rightText ->
            tree.location node = .ok location ->
              Move tree node before
                { before with
                  graph
                  diagnostics := before.diagnostics.push
                    { cause := .mismatch leftText rightText, location } }
  | push {id : TypeId} :
      id < before.graph.repository.size ->
        Move tree node before
          { before with
            nodeTypes := before.nodeTypes.insert node id
            operands := id :: before.operands }
  | pop (count : Nat) :
      Move tree node before { before with operands := before.operands.drop count }
  /-- A name gets a type once. -/
  | bindName {name : QualifiedName} {id : TypeId} :
      id < before.graph.repository.size -> before.nameTypes[name]? = none ->
        Move tree node before { before with nameTypes := before.nameTypes.insert name id }
  | openFunction {id : TypeId} :
      id < before.graph.repository.size ->
        Move tree node before { before with results := id :: before.results }
  | closeFunction :
      Move tree node before { before with results := before.results.tail }

theorem Sound.empty : Sound {} where
  reachable := .refl
  operands := by simp
  results := by simp
  nameTypes := by simp
  nodeTypes := by simp
  mismatches := by simp

/-- A graph that comes from an operation on types that exist keeps the promises. -/
theorem Sound.onGraph
    (sound : before.Sound)
    {graph : TypeGraph}
    (step : before.graph.Step graph) :
    Sound { before with graph } := by
  have sizeLe := (sound.reachable.wellFormed.persists_step step).size_le
  exact
    { reachable := sound.reachable.tail step
      operands := fun id member => Nat.lt_of_lt_of_le (sound.operands id member) sizeLe
      results := fun id member => Nat.lt_of_lt_of_le (sound.results id member) sizeLe
      nameTypes := fun name id found =>
        Nat.lt_of_lt_of_le (sound.nameTypes name id found) sizeLe
      nodeTypes := fun node id found =>
        Nat.lt_of_lt_of_le (sound.nodeTypes node id found) sizeLe
      mismatches := sound.mismatches }

/-- A move works on the graph at most by one operation. -/
theorem Move.graph_eq_or_step (move : before.Move tree node after) :
    after.graph = before.graph ∨ before.graph.Step after.graph := by
  cases move with
  | graph step => exact .inr step
  | report leftExists rightExists failed _ _ _ =>
      exact .inr (.of_failed leftExists rightExists failed)
  | push _ | pop _ | bindName _ _ | openFunction _ | closeFunction => exact .inl rfl

/-- The types of a graph and what is known of them persist in a move. -/
theorem Move.persists (move : before.Move tree node after) (sound : before.Sound) :
    before.graph.Persists after.graph := by
  rcases move.graph_eq_or_step with same | step
  · rw [same]
    exact .refl _
  · exact sound.reachable.wellFormed.persists_step step

/-- Every move keeps the promises. -/
theorem Sound.move (sound : before.Sound) (move : before.Move tree node after) :
    after.Sound := by
  cases move with
  | graph step => exact sound.onGraph step
  | report leftExists rightExists failed _ _ _ =>
      have step := TypeGraph.Step.of_failed leftExists rightExists failed
      refine { sound.onGraph step with mismatches := ?_ }
      simp only [Array.mem_push]
      rintro diagnostic (earlier | rfl)
      · exact sound.mismatches diagnostic earlier
      · exact ⟨_, _, rfl⟩
  | push bound =>
      refine { sound with operands := ?_, nodeTypes := ?_ }
      · exact List.forall_mem_cons.mpr ⟨bound, sound.operands⟩
      · intro other otherId found
        rw [Std.TreeMap.getElem?_insert] at found
        split at found
        · cases found
          exact bound
        · exact sound.nodeTypes other otherId found
  | pop count =>
      refine { sound with operands := fun id member => ?_ }
      exact sound.operands id (List.mem_of_mem_drop member)
  | bindName bound _ =>
      refine { sound with nameTypes := fun other otherId found => ?_ }
      rw [Std.HashMap.getElem?_insert] at found
      split at found
      · cases found
        exact bound
      · exact sound.nameTypes other otherId found
  | openFunction bound =>
      refine { sound with results := ?_ }
      exact List.forall_mem_cons.mpr ⟨bound, sound.results⟩
  | closeFunction =>
      refine { sound with results := fun id member => ?_ }
      exact sound.results id (List.mem_of_mem_tail member)

/-- A sequence of moves keeps the promises, and the graph persists in it. -/
theorem Sound.moves
    (sound : before.Sound)
    (moves : Relation.ReflTransGen (Move tree node) before after) :
    after.Sound ∧ before.graph.Persists after.graph := by
  induction moves with
  | refl => exact ⟨sound, .refl _⟩
  | tail _ move ih =>
      obtain ⟨middleSound, persists⟩ := ih
      exact ⟨middleSound.move move, persists.trans (move.persists middleSound)⟩

/-- What every move keeps true is kept by a sequence of moves. -/
theorem Sound.holds_of_moves
    {Holds : Inference -> Prop}
    (kept : ∀ before after,
      before.Sound -> Holds before -> before.Move tree node after -> Holds after)
    (sound : before.Sound)
    (holds : Holds before)
    (moves : Relation.ReflTransGen (Move tree node) before after) :
    Holds after := by
  induction moves with
  | refl => exact holds
  | tail passed move ih =>
      exact kept _ _ (sound.moves passed).1 ih move

end Inference

namespace Infer

variable
  {Value Result : Type}
  {tree : Tree}
  {node : NodeId}
  {known : List TypeId}

/-- From a state that keeps the promises and in which the known types exist, a step at a
node leads by moves to a state in which the types that it has made exist as well. -/
def Safe
    (tree : Tree)
    (node : NodeId)
    (known : List TypeId)
    (action : Infer Value)
    (made : Value -> List TypeId) : Prop :=
  ∀ before value after,
    before.Sound -> (∀ id ∈ known, id < before.graph.repository.size) ->
      action before = .ok (value, after) ->
        Relation.ReflTransGen (Inference.Move tree node) before after ∧
          ∀ id ∈ made value, id < after.graph.repository.size

theorem exists_of_bind
    {first : Infer Value}
    {next : Value -> Infer Result}
    {before after : Inference}
    {result : Result}
    (ran : (first >>= next) before = .ok (result, after)) :
    ∃ value middle, first before = .ok (value, middle) ∧
      next value middle = .ok (result, after) := by
  obtain ⟨⟨value, middle⟩, first, rest⟩ := exists_of_bind_eq_ok ran
  exact ⟨value, middle, first, rest⟩

namespace Safe

variable {made : Value -> List TypeId} {results : Result -> List TypeId}

theorem bind
    {first : Infer Value}
    {next : Value -> Infer Result}
    (firstSafe : Safe tree node known first made)
    (nextSafe : ∀ value, Safe tree node (made value ++ known) (next value) results) :
    Safe tree node known (first >>= next) results := by
  intro before result after sound exist ran
  obtain ⟨value, middle, firstRan, nextRan⟩ := exists_of_bind ran
  obtain ⟨moves, makes⟩ := firstSafe before value middle sound exist firstRan
  obtain ⟨middleSound, persists⟩ := sound.moves moves
  have allExist : ∀ id ∈ made value ++ known, id < middle.graph.repository.size := by
    intro id member
    rcases List.mem_append.mp member with new | old
    · exact makes id new
    · exact Nat.lt_of_lt_of_le (exist id old) persists.size_le
  obtain ⟨moreMoves, makesMore⟩ :=
    nextSafe value middle result after middleSound allExist nextRan
  exact ⟨moves.trans moreMoves, makesMore⟩

theorem discard
    {action : Infer Value}
    (safe : Safe tree node known action made) :
    Safe tree node known (discard action) fun _ => [] := by
  intro before result after sound exist ran
  simp only [Functor.discard, Functor.mapConst, StateT.map, Function.comp_apply] at ran
  obtain ⟨⟨value, middle⟩, actionRan, rest⟩ := exists_of_bind_eq_ok ran
  cases rest
  exact ⟨(safe before value middle sound exist actionRan).1, by simp⟩

/-- A step that reads the state knows types that it finds there. -/
theorem get
    {next : Inference -> Infer Result}
    (nextSafe : ∀ state : Inference, state.Sound ->
      ∃ found, (∀ id ∈ found, id < state.graph.repository.size) ∧
        Safe tree node (found ++ known) (next state) results) :
    Safe tree node known (MonadState.get >>= next) results := by
  intro before result after sound exist ran
  obtain ⟨found, foundExist, safe⟩ := nextSafe before sound
  refine safe before result after sound ?_ ran
  intro id member
  exact (List.mem_append.mp member).elim (foundExist id) (exist id)

end Safe

theorem safe_pure (value : Value) : Safe tree node known (pure value) fun _ => [] := by
  intro before result after sound exist ran
  cases ran
  exact ⟨.refl, by simp⟩

/-- What is read from the tree changes nothing. -/
theorem safe_lift (computation : Except Fault Value) :
    Safe tree node known (liftM computation : Infer Value) fun _ => [] := by
  intro before value after sound exist ran
  obtain ⟨result, read, rest⟩ := exists_of_bind_eq_ok ran
  cases rest
  exact ⟨.refl, by simp⟩

/-! ## Types -/

/-- A type that is asked for exists afterwards. -/
theorem safe_onGraph
    {change : TypeGraph -> TypeId × TypeGraph}
    {layer : TypeGraph -> Option (Layer TypeId)}
    (step : ∀ graph : TypeGraph, graph.WellFormed ->
      (∀ id ∈ known, id < graph.repository.size) ->
        graph.Step (change graph).2 ∧ graph.Provides (layer graph) (change graph)) :
    Safe tree node known (onGraph change) fun id => [id] := by
  intro before value after sound exist ran
  obtain ⟨stepped, provides⟩ := step before.graph sound.reachable.wellFormed exist
  cases ran
  exact ⟨.single (.graph stepped), by simpa using provides.lt_size⟩

theorem safe_fresh (owner : NodeId) : Safe tree node known (fresh owner) fun id => [id] :=
  safe_onGraph fun _ wellFormed _ =>
    ⟨.fresh (some owner), wellFormed.provides_fresh (some owner)⟩

theorem safe_base (kind : BaseType) : Safe tree node known (base kind) fun id => [id] :=
  safe_onGraph fun _ wellFormed _ => ⟨.base kind, wellFormed.provides_base kind⟩

theorem safe_pointer {pointee : TypeId} (isKnown : pointee ∈ known) :
    Safe tree node known (pointer pointee) fun id => [id] :=
  safe_onGraph fun _ wellFormed exist =>
    ⟨.pointer (exist pointee isKnown), wellFormed.provides_pointer pointee (exist pointee isKnown)⟩

theorem safe_function
    {subtypes : List TypeId}
    (areKnown : ∀ part ∈ subtypes, part ∈ known) :
    Safe tree node known (function subtypes) fun id => [id] :=
  safe_onGraph fun _ wellFormed exist =>
    ⟨.function fun part member => exist part (areKnown part member),
      wellFormed.provides_function subtypes fun part member =>
        exist part (areKnown part member)⟩

theorem safe_push {id : TypeId} (isKnown : id ∈ known) :
    Safe tree node known (push node id) fun _ => [] := by
  intro before value after sound exist ran
  cases ran
  exact ⟨.single (.push (exist id isKnown)), by simp⟩

theorem safe_pop : Safe tree node known pop fun id => [id] := by
  intro before value after sound exist ran
  cases stacked : before.operands with
  | nil =>
      simp only [pop, bind, StateT.bind, get, getThe, MonadStateOf.get, StateT.get, pure,
        Except.pure, Except.bind, stacked] at ran
      cases ran
  | cons id rest =>
      have bounds := sound.operands
      rw [stacked, List.forall_mem_cons] at bounds
      rw [pop_eq stacked] at ran
      cases ran
      have move : before.Move tree node { before with operands := before.operands.drop 1 } :=
        .pop 1
      rw [stacked] at move
      exact ⟨.single move, by simpa using bounds.1⟩

theorem safe_popMany (count : Nat) : Safe tree node known (popMany count) id := by
  intro before value after sound exist ran
  obtain ⟨state, middle, read, ran⟩ := exists_of_bind ran
  cases read
  split at ran
  next => cases ran
  next =>
    cases ran
    refine ⟨.single (.pop count), fun id member => ?_⟩
    exact sound.operands id (List.mem_of_mem_take (List.mem_reverse.mp member))

/-- Unification succeeds or fails, and changes the graph only. -/
theorem cases_of_unify
    {left right : TypeId}
    {outcome : Except Clash Unit}
    {before after : Inference}
    (ran : unify left right before = .ok (outcome, after)) :
    (∃ graph, Unifier.unify left right before.graph = .ok () graph ∧ outcome = .ok () ∧
        after = { before with graph }) ∨
      ∃ clash graph, Unifier.unify left right before.graph = .error (.failed clash) graph ∧
        outcome = .error clash ∧ after = { before with graph } := by
  simp only [unify, bind, StateT.bind, get, getThe, MonadStateOf.get, StateT.get, pure,
    Except.pure, Except.bind] at ran
  cases result : Unifier.unify left right before.graph with
  | ok _ unified =>
      rw [result] at ran
      cases ran
      exact .inl ⟨unified, rfl, rfl, rfl⟩
  | error stop unified =>
      rw [result] at ran
      cases stop <;> cases ran
      exact .inr ⟨_, unified, rfl, rfl, rfl⟩

section Unify

variable {left right : TypeId} (leftKnown : left ∈ known) (rightKnown : right ∈ known)

include leftKnown rightKnown

theorem safe_unify : Safe tree node known (unify left right) fun _ => [] := by
  intro before value after sound exist ran
  have leftExists := exist left leftKnown
  have rightExists := exist right rightKnown
  rcases cases_of_unify ran with ⟨graph, unified, -, rfl⟩ | ⟨clash, graph, failed, -, rfl⟩
  · exact ⟨.single (.graph (.of_unified leftExists rightExists unified)), by simp⟩
  · exact ⟨.single (.graph (.of_failed leftExists rightExists failed)), by simp⟩

theorem safe_unifyAt : Safe tree node known (unifyAt tree node left right) fun _ => [] := by
  intro before value after sound exist ran
  have leftExists := exist left leftKnown
  have rightExists := exist right rightKnown
  obtain ⟨outcome, middle, tried, ran⟩ := exists_of_bind ran
  rcases cases_of_unify tried with
    ⟨graph, unified, rfl, rfl⟩ | ⟨clash, graph, failed, rfl, rfl⟩
  · cases ran
    exact ⟨.single (.graph (.of_unified leftExists rightExists unified)), by simp⟩
  · obtain ⟨state, _, read, ran⟩ := exists_of_bind ran
    cases read
    obtain ⟨leftText, _, leftRead, ran⟩ := exists_of_bind ran
    obtain ⟨_, leftRendered, leftRest⟩ := exists_of_bind_eq_ok leftRead
    cases leftRest
    obtain ⟨rightText, _, rightRead, ran⟩ := exists_of_bind ran
    obtain ⟨_, rightRendered, rightRest⟩ := exists_of_bind_eq_ok rightRead
    cases rightRest
    obtain ⟨location, _, locationRead, ran⟩ := exists_of_bind ran
    obtain ⟨_, located, locationRest⟩ := exists_of_bind_eq_ok locationRead
    cases locationRest
    cases ran
    exact ⟨.single (.report leftExists rightExists failed leftRendered rightRendered located),
      by simp⟩

end Unify

/-! ## Nodes -/

section Nodes

variable (tree : Tree) (names : NameTable) (node : NodeId)

theorem safe_literal (kind : BaseType) : Safe tree node known (literal node kind) fun _ => [] := by
  refine (safe_fresh node).bind fun id => ?_
  refine (safe_base kind).bind fun literalType => ?_
  refine (safe_unify (by simp) (by simp)).discard.bind fun _ => ?_
  exact safe_push (by simp)

theorem safe_identifier :
    Safe tree node known (identifier tree names node) fun _ => [] := by
  refine (safe_fresh node).bind fun id => ?_
  split
  next name _ =>
    intro before value after sound exist ran
    obtain ⟨state, _, read, ran⟩ := exists_of_bind ran
    cases read
    have bound := exist id (by simp)
    cases found : before.nameTypes[name]? with
    | some nameType =>
        have continued : Safe tree node [id, nameType] (do
            discard (unifyAt tree node id nameType)
            push node id) fun _ => [] :=
          (safe_unifyAt (by simp) (by simp)).discard.bind fun _ => safe_push (by simp)
        simp only [found] at ran
        exact continued before value after sound
          (by simpa using ⟨bound, sound.nameTypes name nameType found⟩) ran
    | none =>
        simp only [found] at ran
        obtain ⟨_, named, stored, ran⟩ := exists_of_bind ran
        cases stored
        cases ran
        exact ⟨.tail (.single (.bindName bound found)) (.push bound), by simp⟩
  next => exact safe_push (by simp)

theorem safe_sameAsOperand (kind : BaseType) :
    Safe tree node known (unary.sameAsOperand tree node kind) fun _ => [] := by
  refine safe_pop.bind fun operand => ?_
  refine (safe_base kind).bind fun demanded => ?_
  refine (safe_unifyAt (by simp) (by simp)).discard.bind fun _ => ?_
  exact safe_push (by simp)

theorem safe_unary (operator : UnaryOperator) :
    Safe tree node known (unary tree node operator) fun _ => [] := by
  cases operator with
  | plus => exact safe_sameAsOperand tree node .int
  | negate => exact safe_sameAsOperand tree node .int
  | not => exact safe_sameAsOperand tree node .bool
  | addressOf =>
      refine safe_pop.bind fun operand => ?_
      refine (safe_pointer (by simp)).bind fun address => ?_
      exact safe_push (by simp)
  | dereference =>
      refine safe_pop.bind fun operand => ?_
      refine (safe_fresh node).bind fun target => ?_
      refine (safe_pointer (by simp)).bind fun address => ?_
      refine (safe_unifyAt (by simp) (by simp)).discard.bind fun _ => ?_
      exact safe_push (by simp)

theorem safe_arithmetic : Safe tree node known (arithmetic tree node) fun _ => [] := by
  refine safe_pop.bind fun right => ?_
  refine safe_pop.bind fun left => ?_
  refine (safe_unifyAt (by simp) (by simp)).discard.bind fun _ => ?_
  refine (safe_fresh node).bind fun result => ?_
  refine (safe_unify (by simp) (by simp)).discard.bind fun _ => ?_
  exact safe_push (by simp)

theorem safe_comparison : Safe tree node known (comparison tree node) fun _ => [] := by
  refine safe_pop.bind fun right => ?_
  refine safe_pop.bind fun left => ?_
  refine (safe_base .bool).bind fun truth => ?_
  refine (safe_unifyAt (by simp) (by simp)).bind fun agreed => ?_
  have finished : ∀ more : List TypeId, truth ∈ more ->
      Safe tree node more (do
        let result <- fresh node
        discard (unify result truth)
        push node result) fun _ => [] := by
    intro more isKnown
    refine (safe_fresh node).bind fun result => ?_
    refine (safe_unify (by simp) (by simp [isKnown])).discard.bind fun _ => ?_
    exact safe_push (by simp)
  split
  next =>
    refine (safe_unifyAt (by simp) (by simp)).discard.bind fun _ => ?_
    exact finished _ (by simp)
  next => exact finished _ (by simp)

theorem safe_binary (operator : BinaryOperator) :
    Safe tree node known (binary tree node operator) fun _ => [] := by
  cases operator with
  | add | sub | mul | div => exact safe_arithmetic tree node
  | _ => exact safe_comparison tree node

theorem safe_call : Safe tree node known (call tree node) fun _ => [] := by
  refine (safe_lift (tree.callParts node)).bind fun parts => ?_
  refine (safe_popMany parts.arguments.length).bind fun arguments => ?_
  refine safe_pop.bind fun callee => ?_
  refine (safe_fresh node).bind fun result => ?_
  refine (safe_function (by grind)).bind fun signature => ?_
  refine (safe_unifyAt (by simp) (by simp)).discard.bind fun _ => ?_
  exact safe_push (by simp)

theorem safe_binding : Safe tree node known (binding tree node) fun _ => [] := by
  refine safe_pop.bind fun value => ?_
  refine safe_pop.bind fun target => ?_
  exact (safe_unifyAt (by simp) (by simp)).discard

theorem safe_functionDeclaration :
    Safe tree node known (functionDeclaration tree node) fun _ => [] := by
  refine (safe_lift (tree.functionParts node)).bind fun parts => ?_
  refine (safe_popMany parts.parameters.length).bind fun parameters => ?_
  refine safe_pop.bind fun name => ?_
  intro before value after sound exist ran
  obtain ⟨state, _, read, ran⟩ := exists_of_bind ran
  cases read
  cases stacked : before.results with
  | nil =>
      simp only [stacked] at ran
      cases ran
  | cons result results =>
      have bounds := sound.results
      rw [stacked, List.forall_mem_cons] at bounds
      simp only [stacked] at ran
      obtain ⟨_, popped, stored, ran⟩ := exists_of_bind ran
      cases stored
      have continued : Safe tree node (result :: name :: parameters ++ known) (do
          let signature <- function (parameters ++ [result])
          discard (unifyAt tree node name signature)) fun _ => [] := by
        refine (safe_function (by grind)).bind fun signature => ?_
        exact (safe_unifyAt (by simp) (by simp)).discard
      have move : before.Move tree node { before with results := before.results.tail } :=
        .closeFunction
      rw [stacked, List.tail_cons] at move
      have allExist : ∀ id ∈ result :: name :: parameters ++ known,
          id < before.graph.repository.size := by
        rw [List.cons_append, List.forall_mem_cons]
        exact ⟨bounds.1, exist⟩
      obtain ⟨moves, -⟩ :=
        continued { before with results } value after (sound.move move) allExist ran
      exact ⟨.head move moves, by simp⟩

theorem safe_returnStatement : Safe tree node known (returnStatement tree node) fun _ => [] := by
  refine (safe_lift (tree.returnValue node)).bind fun value => ?_
  split
  next =>
    refine safe_pop.bind fun value => ?_
    refine Safe.get fun state sound => ?_
    split
    next result found =>
      refine ⟨[result], by simpa using sound.results result (List.mem_of_mem_head? found), ?_⟩
      exact (safe_unifyAt (by simp) (by simp)).discard
    next => exact ⟨[], by simp, safe_pure ()⟩
  next => exact safe_pure ()

theorem safe_enter : Safe tree node known (enter tree node) fun _ => [] := by
  refine (safe_lift (tree.node node)).bind fun found => ?_
  split
  next =>
    refine (safe_fresh node).bind fun result => ?_
    intro before value after sound exist ran
    cases ran
    exact ⟨.single (.openFunction (exist result (by simp))), by simp⟩
  next => exact safe_pure ()

theorem safe_leave : Safe tree node known (leave tree names node) fun _ => [] := by
  refine (safe_lift (tree.node node)).bind fun found => ?_
  cases found.tag with
  | root | block => exact safe_pure ()
  | literal kind => exact safe_literal tree node kind
  | identifier => exact safe_identifier tree names node
  | unary operator => exact safe_unary tree node operator
  | binary operator => exact safe_binary tree node operator
  | call => exact safe_call tree node
  | expression =>
      refine safe_pop.bind fun inner => ?_
      exact safe_push (by simp)
  | evaluate => exact safe_pop.discard
  | constant | mutable | assign => exact safe_binding tree node
  | «return» => exact safe_returnStatement tree node
  | function => exact safe_functionDeclaration tree node

end Nodes

/-- A step of a walk is made of moves at its node. -/
theorem moves_of_step
    {tree : Tree}
    {names : NameTable}
    {event : Event}
    {before after : Inference}
    (sound : before.Sound)
    (stepped : step tree names event before = .ok ((), after)) :
    Relation.ReflTransGen (Inference.Move tree event.node) before after := by
  cases event with
  | enter node =>
      have safe : Safe tree node [] _ _ := safe_enter tree node
      exact (safe before () after sound (by simp) stepped).1
  | leave node =>
      have safe : Safe tree node [] _ _ := safe_leave tree names node
      exact (safe before () after sound (by simp) stepped).1

/-- What every move keeps true is kept by a walk, and so are the promises, wherever it
stops. -/
theorem holds_of_forM
    {tree : Tree}
    {names : NameTable}
    {Holds : Inference -> Prop}
    (kept : ∀ node before after,
      before.Sound -> Holds before -> before.Move tree node after -> Holds after)
    {events : List Event}
    {before after : Inference}
    (sound : before.Sound)
    (holds : Holds before)
    (walked : (events.forM (step tree names)) before = .ok ((), after)) :
    after.Sound ∧ Holds after := by
  induction events generalizing before with
  | nil =>
      cases walked
      exact ⟨sound, holds⟩
  | cons event events ih =>
      obtain ⟨⟨⟩, middle, stepped, walked⟩ := exists_of_bind walked
      have moves := moves_of_step sound stepped
      exact ih (sound.moves moves).1
        (sound.holds_of_moves (kept event.node) holds moves) walked

/-- A walk keeps the promises, wherever it stops. -/
theorem sound_of_forM
    {tree : Tree}
    {names : NameTable}
    {events : List Event}
    {inference : Inference}
    (walked : (events.forM (step tree names)) {} = .ok ((), inference)) :
    inference.Sound :=
  holds_of_forM (fun _ _ _ sound _ move => sound.move move) .empty .empty walked |>.1

end Infer

/-- Inferring the types of a tree is a walk through it. -/
theorem Tree.exists_walk_of_inference
    {tree : Tree}
    {names : NameTable}
    {inference : Inference}
    (inferred : tree.inference names = .ok inference) :
    ∃ events, tree.events = .ok events ∧
      (events.forM (Infer.step tree names)) {} = .ok ((), inference) := by
  obtain ⟨events, found, inferred⟩ := exists_of_bind_eq_ok inferred
  obtain ⟨⟨⟨⟩, result⟩, walked, same⟩ := exists_of_bind_eq_ok inferred
  cases same
  exact ⟨events, found, walked⟩

/-- Inferring the types of a tree keeps the promises. -/
theorem Tree.sound_of_inference
    {tree : Tree}
    {names : NameTable}
    {inference : Inference}
    (inferred : tree.inference names = .ok inference) :
    inference.Sound := by
  obtain ⟨_, -, walked⟩ := exists_walk_of_inference inferred
  exact Infer.sound_of_forM walked

end Frontend
