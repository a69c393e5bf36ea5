import Frontend.Proofs.Scope.Renaming
import Frontend.Proofs.Types.Demand

/-!
# Inference with renamed identifiers

Inference asks only whether two nodes have the same name. If the names are spelled anew,
the same types are made and unified in the same order, and found for the same nodes.
-/

namespace Frontend

/-- The types of names that are spelled anew are those of the names. -/
def NameTable.SharesTypes
    (names twinNames : NameTable)
    (types twinTypes : Std.HashMap QualifiedName TypeId) : Prop :=
  ∀ node name twin, names.name? node = some name -> twinNames.name? node = some twin ->
    twinTypes[twin]? = types[name]?

/-- The walks have found the same, but for the spelling of names. -/
def Inference.Twins
    (names twinNames : NameTable)
    (inference twin : Inference) : Prop :=
  ∃ types, twin = { inference with nameTypes := types } ∧
    names.SharesTypes twinNames inference.nameTypes types

namespace Infer

variable {names twinNames : NameTable} {Value Result : Type}

/-- From these states, both steps have the same result and leave states that again differ
only in the spelling of names, or both meet the same fault. -/
def MirrorsAt
    (names twinNames : NameTable)
    (action twinAction : Infer Value)
    (before twin : Inference) : Prop :=
  SameResult
    (fun result twinResult =>
      result.1 = twinResult.1 ∧ result.2.Twins names twinNames twinResult.2)
    (action before) (twinAction twin)

/-- The second step does what the first one does, whatever was found before. -/
def Mirrors (names twinNames : NameTable) (action twinAction : Infer Value) : Prop :=
  ∀ before twin, before.Twins names twinNames twin ->
    MirrorsAt names twinNames action twinAction before twin

/-! ## Steps in general -/

theorem mirrors_pure (value : Value) :
    Mirrors names twinNames (pure value) (pure value) :=
  fun _ _ twins => .ok ⟨rfl, twins⟩

theorem MirrorsAt.bind
    {first firstTwin : Infer Value}
    {next nextTwin : Value -> Infer Result}
    {before twin : Inference}
    (mirrors : MirrorsAt names twinNames first firstTwin before twin)
    (goesOn : ∀ value, Mirrors names twinNames (next value) (nextTwin value)) :
    MirrorsAt names twinNames (first >>= next) (firstTwin >>= nextTwin) before twin := by
  refine SameResult.bind mirrors ?_
  rintro ⟨value, after⟩ ⟨_, twinAfter⟩ ⟨rfl, twins⟩
  exact goesOn value after twinAfter twins

theorem Mirrors.bind
    {first firstTwin : Infer Value}
    {next nextTwin : Value -> Infer Result}
    (mirrors : Mirrors names twinNames first firstTwin)
    (goesOn : ∀ value, Mirrors names twinNames (next value) (nextTwin value)) :
    Mirrors names twinNames (first >>= next) (firstTwin >>= nextTwin) :=
  fun before twin twins => (mirrors before twin twins).bind goesOn

theorem Mirrors.discard
    {action twinAction : Infer Value}
    (mirrors : Mirrors names twinNames action twinAction) :
    Mirrors names twinNames (discard action) (discard twinAction) := by
  intro before twin twins
  refine SameResult.bind (mirrors before twin twins) ?_
  rintro ⟨value, after⟩ ⟨_, twinAfter⟩ ⟨rfl, twins⟩
  exact .ok ⟨rfl, twins⟩

/-- What looks at the state goes on from there. -/
theorem mirrors_get
    {next nextTwin : Inference -> Infer Result}
    (goesOn : ∀ before twin, before.Twins names twinNames twin ->
      MirrorsAt names twinNames (next before) (nextTwin twin) before twin) :
    Mirrors names twinNames (get >>= next) (get >>= nextTwin) :=
  goesOn

theorem mirrors_set
    {after twinAfter : Inference}
    (twins : after.Twins names twinNames twinAfter) :
    Mirrors names twinNames (set after) (set twinAfter) :=
  fun _ _ _ => .ok ⟨rfl, twins⟩

/-- What is read from the tree changes nothing. -/
theorem mirrors_lift (computation : Except Fault Value) :
    Mirrors names twinNames (liftM computation) (liftM computation) := by
  intro before twin twins
  cases computation with
  | ok value => exact .ok ⟨rfl, twins⟩
  | error fault => exact .error fault

/-! ## Types -/

theorem mirrors_onGraph (change : TypeGraph -> Value × TypeGraph) :
    Mirrors names twinNames (onGraph change) (onGraph change) := by
  rintro before _ ⟨types, rfl, shares⟩
  exact .ok ⟨rfl, types, rfl, shares⟩

theorem mirrors_push (node : NodeId) (id : TypeId) :
    Mirrors names twinNames (push node id) (push node id) := by
  rintro before _ ⟨types, rfl, shares⟩
  exact .ok ⟨rfl, types, rfl, shares⟩

theorem mirrors_pop : Mirrors names twinNames pop pop := by
  refine mirrors_get ?_
  rintro before _ ⟨types, rfl, shares⟩
  cases before.operands with
  | nil => exact .error _
  | cons id operands => exact .ok ⟨rfl, types, rfl, shares⟩

theorem mirrors_popMany (count : Nat) :
    Mirrors names twinNames (popMany count) (popMany count) := by
  refine mirrors_get ?_
  rintro before _ ⟨types, rfl, shares⟩
  simp only
  split
  · exact .error _
  · exact .ok ⟨rfl, types, rfl, shares⟩

theorem mirrors_unify (left right : TypeId) :
    Mirrors names twinNames (unify left right) (unify left right) := by
  refine mirrors_get ?_
  rintro before _ ⟨types, rfl, shares⟩
  simp only
  split
  · exact .ok ⟨rfl, types, rfl, shares⟩
  · exact .ok ⟨rfl, types, rfl, shares⟩
  · exact .error _

section Nodes

variable (change : String -> String) (tree : Tree) (node : NodeId)

theorem mirrors_unifyAt (left right : TypeId) :
    Mirrors names twinNames (unifyAt tree node left right)
      (unifyAt (tree.rename change) node left right) := by
  refine (mirrors_unify left right).bind fun outcome => ?_
  cases outcome with
  | ok => exact mirrors_pure true
  | error clash =>
      refine mirrors_get ?_
      rintro before _ ⟨types, rfl, shares⟩
      simp only [Tree.location_rename]
      refine (mirrors_lift _ _ _ ⟨types, rfl, shares⟩).bind fun leftText => ?_
      refine (mirrors_lift _).bind fun rightText => ?_
      refine (mirrors_lift _).bind fun location => ?_
      refine Mirrors.bind (mirrors_set ?_) fun _ => mirrors_pure false
      exact ⟨types, rfl, shares⟩

theorem mirrors_literal (kind : BaseType) :
    Mirrors names twinNames (literal node kind) (literal node kind) := by
  refine (mirrors_onGraph _).bind fun id => ?_
  refine (mirrors_onGraph _).bind fun literalType => ?_
  refine (mirrors_unify _ _).discard.bind fun _ => ?_
  exact mirrors_push node id

theorem mirrors_sameAsOperand (kind : BaseType) :
    Mirrors names twinNames (unary.sameAsOperand tree node kind)
      (unary.sameAsOperand (tree.rename change) node kind) := by
  refine mirrors_pop.bind fun operand => ?_
  refine (mirrors_onGraph _).bind fun demanded => ?_
  refine (mirrors_unifyAt change tree node _ _).discard.bind fun _ => ?_
  exact mirrors_push node operand

theorem mirrors_unary (operator : UnaryOperator) :
    Mirrors names twinNames (unary tree node operator)
      (unary (tree.rename change) node operator) := by
  cases operator with
  | plus => exact mirrors_sameAsOperand change tree node .int
  | negate => exact mirrors_sameAsOperand change tree node .int
  | not => exact mirrors_sameAsOperand change tree node .bool
  | addressOf =>
      refine mirrors_pop.bind fun operand => ?_
      refine (mirrors_onGraph _).bind fun address => ?_
      exact mirrors_push node address
  | dereference =>
      refine mirrors_pop.bind fun operand => ?_
      refine (mirrors_onGraph _).bind fun target => ?_
      refine (mirrors_onGraph _).bind fun address => ?_
      refine (mirrors_unifyAt change tree node _ _).discard.bind fun _ => ?_
      exact mirrors_push node target

theorem mirrors_arithmetic :
    Mirrors names twinNames (arithmetic tree node) (arithmetic (tree.rename change) node) := by
  refine mirrors_pop.bind fun right => ?_
  refine mirrors_pop.bind fun left => ?_
  refine (mirrors_unifyAt change tree node _ _).discard.bind fun _ => ?_
  refine (mirrors_onGraph _).bind fun result => ?_
  refine (mirrors_unify _ _).discard.bind fun _ => ?_
  exact mirrors_push node result

theorem mirrors_comparison :
    Mirrors names twinNames (comparison tree node) (comparison (tree.rename change) node) := by
  refine mirrors_pop.bind fun right => ?_
  refine mirrors_pop.bind fun left => ?_
  refine (mirrors_onGraph _).bind fun truth => ?_
  refine (mirrors_unifyAt change tree node _ _).bind fun agreed => ?_
  have finished : Mirrors names twinNames
      (do
        let result <- fresh node
        discard (unify result truth)
        push node result)
      (do
        let result <- fresh node
        discard (unify result truth)
        push node result) := by
    refine (mirrors_onGraph _).bind fun result => ?_
    refine (mirrors_unify _ _).discard.bind fun _ => ?_
    exact mirrors_push node result
  split
  · exact (mirrors_unifyAt change tree node _ _).discard.bind fun _ => finished
  · exact finished

theorem mirrors_binary (operator : BinaryOperator) :
    Mirrors names twinNames (binary tree node operator)
      (binary (tree.rename change) node operator) := by
  cases operator with
  | add | sub | mul | div => exact mirrors_arithmetic change tree node
  | _ => exact mirrors_comparison change tree node

theorem mirrors_call :
    Mirrors names twinNames (call tree node) (call (tree.rename change) node) := by
  refine (mirrors_lift (tree.callParts node)).bind fun parts => ?_
  refine (mirrors_popMany _).bind fun arguments => ?_
  refine mirrors_pop.bind fun callee => ?_
  refine (mirrors_onGraph _).bind fun result => ?_
  refine (mirrors_onGraph _).bind fun signature => ?_
  refine (mirrors_unifyAt change tree node _ _).discard.bind fun _ => ?_
  exact mirrors_push node result

theorem mirrors_binding :
    Mirrors names twinNames (binding tree node) (binding (tree.rename change) node) := by
  refine mirrors_pop.bind fun value => ?_
  refine mirrors_pop.bind fun target => ?_
  exact (mirrors_unifyAt change tree node _ _).discard

theorem mirrors_functionDeclaration :
    Mirrors names twinNames (functionDeclaration tree node)
      (functionDeclaration (tree.rename change) node) := by
  refine (mirrors_lift (tree.functionParts node)).bind fun parts => ?_
  refine (mirrors_popMany _).bind fun parameters => ?_
  refine mirrors_pop.bind fun name => ?_
  refine mirrors_get ?_
  rintro before _ ⟨types, rfl, shares⟩
  cases before.results with
  | nil => exact .error _
  | cons result results =>
      simp only
      refine MirrorsAt.bind (.ok ⟨rfl, types, rfl, shares⟩) fun _ => ?_
      refine (mirrors_onGraph _).bind fun signature => ?_
      exact (mirrors_unifyAt change tree node _ _).discard

theorem mirrors_returnStatement :
    Mirrors names twinNames (returnStatement tree node)
      (returnStatement (tree.rename change) node) := by
  refine (mirrors_lift (tree.returnValue node)).bind fun value => ?_
  split
  next =>
    refine mirrors_pop.bind fun value => ?_
    refine mirrors_get ?_
    rintro before _ ⟨types, rfl, shares⟩
    simp only
    split
    next result _ =>
      exact (mirrors_unifyAt change tree node value result).discard _ _ ⟨types, rfl, shares⟩
    next => exact mirrors_pure () _ _ ⟨types, rfl, shares⟩
  next => exact mirrors_pure ()

theorem mirrors_enter :
    Mirrors names twinNames (enter tree node) (enter (tree.rename change) node) := by
  refine (mirrors_lift (tree.node node)).bind fun found => ?_
  split
  next =>
    refine (mirrors_onGraph _).bind fun result => ?_
    rintro before _ ⟨types, rfl, shares⟩
    exact .ok ⟨rfl, types, rfl, shares⟩
  next => exact mirrors_pure ()

variable {change} {tree} (respelled : names.Respelled tree change twinNames)

include respelled

/-- A name that is met for the first time is so in both walks. -/
theorem mirrors_bindName
    {name twin : QualifiedName}
    (named : names.name? node = some name)
    (twinNamed : twinNames.name? node = some twin)
    (id : TypeId) :
    Mirrors names twinNames
      (modify fun inference =>
        { inference with nameTypes := inference.nameTypes.insert name id })
      (modify fun inference =>
        { inference with nameTypes := inference.nameTypes.insert twin id }) := by
  rintro before _ ⟨types, rfl, shares⟩
  refine .ok ⟨rfl, types.insert twin id, rfl, ?_⟩
  intro other otherName otherTwin otherNamed otherTwinNamed
  have same : name = otherName ↔ twin = otherTwin :=
    (respelled.respells named twinNamed).eq_iff
      (respelled.respells otherNamed otherTwinNamed)
  simp only [Std.HashMap.getElem?_insert, beq_iff_eq, same]
  split
  · rfl
  · exact shares other otherName otherTwin otherNamed otherTwinNamed

theorem mirrors_identifier :
    Mirrors names twinNames (identifier tree names node)
      (identifier (tree.rename change) twinNames node) := by
  refine (mirrors_onGraph _).bind fun id => ?_
  have related := respelled.name? node
  cases named : names.name? node <;> cases twinNamed : twinNames.name? node <;>
    rw [named, twinNamed] at related <;> cases related
  case none.none => exact mirrors_push node id
  case some.some name twin respells =>
    refine mirrors_get ?_
    rintro before _ ⟨types, rfl, shares⟩
    simp only [shares node name twin named twinNamed]
    split
    next nameType _ =>
      refine MirrorsAt.bind (Mirrors.discard ?_ _ _ ⟨types, rfl, shares⟩) fun _ => ?_
      · exact mirrors_unifyAt change tree node id nameType
      · exact mirrors_push node id
    next =>
      refine MirrorsAt.bind ?_ fun _ => mirrors_push node id
      exact mirrors_bindName node respelled named twinNamed id _ _ ⟨types, rfl, shares⟩

theorem mirrors_leave :
    Mirrors names twinNames (leave tree names node)
      (leave (tree.rename change) twinNames node) := by
  refine (mirrors_lift (tree.node node)).bind fun found => ?_
  cases found.tag with
  | root | block => exact mirrors_pure ()
  | literal kind => exact mirrors_literal node kind
  | identifier => exact mirrors_identifier node respelled
  | unary operator => exact mirrors_unary change tree node operator
  | binary operator => exact mirrors_binary change tree node operator
  | call => exact mirrors_call change tree node
  | expression =>
      refine mirrors_pop.bind fun inner => ?_
      exact mirrors_push node inner
  | evaluate => exact mirrors_pop.discard
  | constant | mutable | assign => exact mirrors_binding change tree node
  | «return» => exact mirrors_returnStatement change tree node
  | function => exact mirrors_functionDeclaration change tree node

theorem mirrors_step (event : Event) :
    Mirrors names twinNames (step tree names event)
      (step (tree.rename change) twinNames event) := by
  cases event with
  | enter node => exact mirrors_enter change tree node
  | leave node => exact mirrors_leave node respelled

theorem mirrors_forM (events : List Event) :
    Mirrors names twinNames (events.forM (step tree names))
      (events.forM (step (tree.rename change) twinNames)) := by
  induction events with
  | nil => exact mirrors_pure ()
  | cons event events ih =>
      exact (mirrors_step respelled event).bind fun _ => ih

end Nodes

end Infer

/-- The tables have the same types, with the same representatives, and the same types of
nodes. -/
structure TypeTable.Alike (table twin : TypeTable) : Prop where
  representatives : twin.representatives = table.representatives
  repository : twin.repository = table.repository
  nodeTypes : twin.nodeTypes = table.nodeTypes

theorem Inference.Twins.diagnostics
    {names twinNames : NameTable}
    {inference twin : Inference}
    (twins : inference.Twins names twinNames twin) :
    twin.diagnostics = inference.diagnostics := by
  obtain ⟨types, rfl, -⟩ := twins
  rfl

/-- Walks that have found the same make tables with the same types. -/
theorem Inference.Twins.table
    {names twinNames : NameTable}
    {inference twin : Inference}
    (twins : inference.Twins names twinNames twin) :
    SameResult TypeTable.Alike inference.table twin.table := by
  obtain ⟨types, rfl, -⟩ := twins
  unfold Inference.table
  split
  · exact .error _
  · refine SameResult.bind (SameResult.refl _) ?_
    rintro repository _ rfl
    exact .ok ⟨rfl, rfl, rfl⟩

/-- Inference with names that are spelled anew finds the same. -/
theorem NameTable.Respelled.inference
    {tree : Tree}
    {change : String -> String}
    {names twinNames : NameTable}
    (respelled : names.Respelled tree change twinNames) :
    SameResult (Inference.Twins names twinNames) (tree.inference names)
      ((tree.rename change).inference twinNames) := by
  unfold Tree.inference
  rw [Tree.events_rename]
  refine SameResult.bind (SameResult.refl _) ?_
  rintro events _ rfl
  have initial : Inference.Twins names twinNames {} {} := ⟨{}, rfl, by simp [SharesTypes]⟩
  refine SameResult.bind (Infer.mirrors_forM respelled events {} {} initial) ?_
  rintro ⟨_, after⟩ ⟨_, twinAfter⟩ ⟨-, twins⟩
  exact .ok twins

end Frontend
