import Mathlib.Data.List.Infix
import Mathlib.Data.List.TakeWhile
import Frontend.Proofs.Except
import Frontend.Scope.Stack

/-!
# Nested scopes

The stack of scopes keeps one window of names, which closing a scope cuts back, and
it keeps for good what was recorded. The plainer form of it is a nesting: a list of
names for each open scope, with one more for the names outside of all scopes, and
for each record the nodes of the scopes that were open when it was made.

A nesting determines the stack (`Nesting.toScopes`), and every call leads from the
stack of one nesting to the stack of the next (`Nesting.perform_toScopes`). What
`Nesting.IsSound` says of a nesting turns the searches of the stack, which stop at a
depth or follow the records outwards, into questions to the lists.
-/

namespace Frontend

/-! ## Calls -/

namespace Scopes

/-- A call that changes the stack of scopes. -/
inductive Call where
  | enter (node : NodeId) (line column : Nat)
  | declare (node : NodeId) (line column : Nat)
  | leave
  deriving DecidableEq

namespace Call

/-- The call opens a scope. -/
def opens : Call -> Bool
  | enter .. => true
  | declare .. | leave => false

/-- The call closes a scope. -/
def closes : Call -> Bool
  | leave => true
  | enter .. | declare .. => false

/-- At no point have more scopes been closed than opened. -/
def AreNested (calls : List Call) : Prop :=
  ∀ passed ∈ calls.inits, passed.countP closes ≤ passed.countP opens

instance (calls : List Call) : Decidable (AreNested calls) :=
  inferInstanceAs (Decidable (∀ passed ∈ calls.inits, _))

/-- Nor at any point of a sequence that goes on. -/
theorem AreNested.of_append
    {calls more : List Call}
    (nested : AreNested (calls ++ more)) :
    AreNested calls := by
  intro passed member
  refine nested passed ?_
  rw [List.mem_inits] at member ⊢
  exact member.trans (List.prefix_append calls more)

/-- At the end in particular. -/
theorem AreNested.countP_le {calls : List Call} (nested : AreNested calls) :
    calls.countP closes ≤ calls.countP opens :=
  nested calls (by simp)

theorem countP_concat (test : Call -> Bool) (calls : List Call) (call : Call) :
    (calls ++ [call]).countP test = calls.countP test + (test call).toNat := by
  rw [List.countP_append, List.countP_singleton]
  cases test call <;> rfl

/-- Before a scope is closed one is open. -/
theorem AreNested.countP_lt {calls : List Call} (nested : AreNested (calls ++ [.leave])) :
    calls.countP closes < calls.countP opens := by
  have atEnd := nested.countP_le
  simp only [countP_concat, opens, closes, Bool.toNat_true, Bool.toNat_false] at atEnd
  omega

/-- A call may be added that keeps the scopes closed from outnumbering those opened. -/
theorem AreNested.concat
    {calls : List Call}
    (nested : AreNested calls)
    {call : Call}
    (fits : (calls ++ [call]).countP closes ≤ (calls ++ [call]).countP opens) :
    AreNested (calls ++ [call]) := by
  intro passed member
  rcases List.prefix_concat_iff.mp (List.mem_inits _ _ |>.mp member) with rfl | earlier
  · exact fits
  · exact nested passed (List.mem_inits _ _ |>.mpr earlier)

/-- The calls close all the scopes they open, and no others. -/
def AreBalanced (calls : List Call) : Prop :=
  AreNested calls ∧ calls.countP closes = calls.countP opens

/-- Every open scope was opened by a call: the innermost one, or one that has as many
open scopes in it as the count says. -/
theorem AreNested.exists_enter
    {calls : List Call}
    (nested : AreNested calls)
    (count : Nat)
    (isOpen : calls.countP closes + count < calls.countP opens) :
    ∃ before node line column inner,
      calls = before ++ .enter node line column :: inner ∧
        AreNested inner ∧
        inner.countP closes + count = inner.countP opens := by
  induction calls using List.reverseRecOn generalizing count with
  | nil => simp at isOpen
  | append_singleton calls call ih =>
      -- Unless the last call opens the scope, an earlier one did, and the last is inside.
      have goesOn : ∀ remaining, calls.countP closes + remaining < calls.countP opens ->
          (∀ inner, inner.countP closes + remaining = inner.countP opens ->
            (inner ++ [call]).countP closes + count = (inner ++ [call]).countP opens) ->
          ∃ before node line column inner,
            calls ++ [call] = before ++ .enter node line column :: inner ∧
              AreNested inner ∧
              inner.countP closes + count = inner.countP opens := by
        intro remaining isOpen counts
        obtain ⟨before, node, line, column, inner, rfl, innerNested, same⟩ :=
          ih nested.of_append remaining isOpen
        have sameAfter := counts inner same
        exact ⟨before, node, line, column, inner ++ [call], by simp,
          innerNested.concat (by omega), sameAfter⟩
      simp only [countP_concat] at goesOn isOpen
      cases call with
      | enter node line column =>
          simp only [opens, closes, Bool.toNat_true, Bool.toNat_false] at goesOn isOpen
          cases count with
          | zero => exact ⟨calls, node, line, column, [], rfl, by decide, rfl⟩
          | succ count => exact goesOn count (by omega) fun inner same => by omega
      | declare node line column =>
          exact goesOn count isOpen fun inner same => same
      | leave =>
          simp only [opens, closes, Bool.toNat_true, Bool.toNat_false] at goesOn isOpen
          exact goesOn (count + 1) (by omega) fun inner same => by omega

end Call

/-- Make a call. -/
def perform (scopes : Scopes) : Call -> Except Fault Scopes
  | .enter node line column => .ok (scopes.enter node line column)
  | .declare node line column => .ok (scopes.declare node line column)
  | .leave => scopes.leave

/-- Make calls from the start. -/
def run (calls : List Call) : Except Fault Scopes :=
  calls.foldlM perform {}

end Scopes

/-! ## The nesting -/

namespace Nesting

/-- An open scope with the names declared in it. -/
structure Level where
  /-- The record of the scope. -/
  anchor : DeclId
  node : NodeId
  /-- The names declared in the scope, latest first. -/
  names : List DeclId := []

/-- A record, with what was open when it was made. -/
structure Record where
  declaration : Declaration
  /-- The nodes of the scopes around it, outermost first. -/
  around : List NodeId

end Nesting

/-- The records, and the names declared in each open scope. -/
structure Nesting where
  records : List Nesting.Record := []
  /-- The names declared while no scope was open, latest first. -/
  outermost : List DeclId := []
  /-- The open scopes, innermost first. -/
  opened : List Nesting.Level := []

namespace Nesting

variable (nesting : Nesting)

/-- The lists of names, innermost first. -/
def lists : List (List DeclId) :=
  nesting.opened.map Level.names ++ [nesting.outermost]

/-- The names declared where a name would be declared now. -/
def innermost : List DeclId :=
  match nesting.opened with
  | [] => nesting.outermost
  | level :: _ => level.names

/-- The record of this index exists and has the property. -/
def satisfies (property : Declaration -> Bool) (id : DeclId) : Bool :=
  nesting.records[id]?.any fun record => property record.declaration

/-- The latest of these names that has the property: names are numbered in the order
in which they are declared. -/
def latest? (names : List DeclId) (property : Declaration -> Bool) : Option DeclId :=
  (names.filter (nesting.satisfies property)).max?

/-- A record that is made now. -/
def record
    (isBinding : Bool)
    (depth : Nat)
    (node : NodeId)
    (line column : Nat) : Record where
  declaration :=
    { node, parent := nesting.opened.head?.map Level.anchor, line, column, isBinding, depth }
  around := (nesting.opened.map Level.node).reverse

/-- Keep a record. -/
def addRecord (record : Record) : Nesting :=
  { nesting with records := nesting.records ++ [record] }

/-- Open a scope with this record. -/
def addLevel (anchor : DeclId) (node : NodeId) : Nesting :=
  { nesting with opened := { anchor, node } :: nesting.opened }

/-- Add a name to the innermost list. -/
def addName (id : DeclId) : Nesting :=
  match nesting.opened with
  | [] => { nesting with outermost := id :: nesting.outermost }
  | level :: outer =>
      { nesting with opened := { level with names := id :: level.names } :: outer }

theorem flatten_lists :
    nesting.lists.flatten = (nesting.opened.map Level.names).flatten ++ nesting.outermost := by
  simp [lists]

/-- The added name comes first of all. -/
theorem flatten_lists_addName (id : DeclId) :
    (nesting.addName id).lists.flatten = id :: nesting.lists.flatten := by
  unfold addName
  split <;> simp [lists, *]

@[simp] theorem records_addName (id : DeclId) :
    (nesting.addName id).records = nesting.records := by
  unfold addName
  split <;> rfl

@[simp] theorem length_opened_addName (id : DeclId) :
    (nesting.addName id).opened.length = nesting.opened.length := by
  unfold addName
  split <;> simp [*]

/-- Only the innermost list is changed. -/
@[simp] theorem tail_opened_addName (id : DeclId) :
    (nesting.addName id).opened.tail = nesting.opened.tail := by
  unfold addName
  split <;> simp [*]

/-- The outermost list is not changed in a scope. -/
theorem outermost_addName (id : DeclId) (isOpen : nesting.opened ≠ []) :
    (nesting.addName id).outermost = nesting.outermost := by
  unfold addName
  split
  · next nothing => exact absurd nothing isOpen
  · rfl

/-- Make a call. Closing a scope forgets its names. -/
def perform : Scopes.Call -> Nesting
  | .enter node line column =>
      (nesting.addRecord
        (nesting.record false (nesting.opened.length + 1) node line column)).addLevel
          nesting.records.length node
  | .declare node line column =>
      (nesting.addRecord
        (nesting.record true nesting.opened.length node line column)).addName
          nesting.records.length
  | .leave => { nesting with opened := nesting.opened.tail }

/-- Make calls from the start. -/
def run (calls : List Scopes.Call) : Nesting :=
  calls.foldl perform {}

@[simp] theorem run_concat (calls : List Scopes.Call) (call : Scopes.Call) :
    run (calls ++ [call]) = (run calls).perform call := by
  simp [run]

/-! ## The stack of a nesting -/

/-- The frames of open scopes. Each of them opened when the names of the scopes
around it were in force. -/
def frames (outermost : List DeclId) : List Level -> List Frame
  | [] => []
  | level :: outer =>
      { anchor := level.anchor
        height := ((outer.map Level.names).flatten ++ outermost).length } ::
        frames outermost outer

theorem length_frames (outermost : List DeclId) (opened : List Level) :
    (frames outermost opened).length = opened.length := by
  induction opened with
  | nil => rfl
  | cons level outer ih => simp [frames, ih]

theorem head?_frames (outermost : List DeclId) (opened : List Level) :
    (frames outermost opened).head?.map Frame.anchor = opened.head?.map Level.anchor := by
  cases opened <;> rfl

/-- The stack of scopes of a nesting, by the scopes ever opened and closed: all names in one
list. -/
def toScopes (entered exited : Nat) : Scopes where
  declarations := (nesting.records.map Record.declaration).toArray
  visible := nesting.lists.flatten
  frames := frames nesting.outermost nesting.opened
  depth := nesting.opened.length
  entered
  exited

variable {entered exited : Nat}

theorem anchor?_toScopes :
    (nesting.toScopes entered exited).anchor? = nesting.opened.head?.map Level.anchor :=
  head?_frames nesting.outermost nesting.opened

theorem nextId_toScopes : (nesting.toScopes entered exited).nextId = nesting.records.length := by
  simp [Scopes.nextId, toScopes]

theorem satisfies_toScopes (property : Declaration -> Bool) :
    (nesting.toScopes entered exited).satisfies property = nesting.satisfies property := by
  funext id
  simp only [Scopes.satisfies, satisfies, toScopes, List.getElem?_toArray, List.getElem?_map]
  cases nesting.records[id]? <;> rfl

/-- Every call leads from the stack of a nesting to that of the next one. -/
theorem perform_toScopes
    {call : Scopes.Call}
    (mayClose : call = .leave -> nesting.opened ≠ []) :
    (nesting.toScopes entered exited).perform call =
      .ok ((nesting.perform call).toScopes (entered + call.opens.toNat)
        (exited + call.closes.toNat)) := by
  cases call with
  | enter node line column =>
      simp only [Scopes.perform, Scopes.enter, anchor?_toScopes, nextId_toScopes]
      simp [perform, addRecord, addLevel, toScopes, lists, frames, record, Scopes.Call.opens,
        Scopes.Call.closes]
  | declare node line column =>
      simp only [Scopes.perform, Scopes.declare, anchor?_toScopes, nextId_toScopes]
      cases isOpen : nesting.opened with
      | nil =>
          simp [perform, addRecord, addName, toScopes, lists, frames, record, isOpen,
            Scopes.Call.opens, Scopes.Call.closes]
      | cons level outer =>
          simp [perform, addRecord, addName, toScopes, lists, frames, record, isOpen,
            Scopes.Call.opens, Scopes.Call.closes]
  | leave =>
      cases isOpen : nesting.opened with
      | nil => exact absurd isOpen (mayClose rfl)
      | cons level outer =>
          simp [Scopes.perform, Scopes.leave, perform, toScopes, lists, frames, isOpen,
            Scopes.Call.opens, Scopes.Call.closes]

/-! ## What is recorded about the open scopes -/

/-- The record of this index was made at this depth. -/
def HasDepth (records : List Record) (id : DeclId) (depth : Nat) : Prop :=
  ∃ record, records[id]? = some record ∧ record.declaration.depth = depth

/-- Every open scope is recorded, with the scopes around it, and every name in force
at the depth of the list in which it stands. -/
inductive AreOpen (records : List Record) (outermost : List DeclId) : List Level -> Prop
  | nil :
      (∀ id ∈ outermost, HasDepth records id 0) ->
      AreOpen records outermost []
  | cons {level : Level} {outer : List Level} {scope : Record} :
      records[level.anchor]? = some scope ->
      scope.declaration.node = level.node ->
      scope.declaration.isBinding = false ->
      scope.around = (outer.map Level.node).reverse ->
      (∀ id ∈ level.names, HasDepth records id (outer.length + 1)) ->
      AreOpen records outermost outer ->
      AreOpen records outermost (level :: outer)

/-- A record is free, or its parent is an earlier record, of a scope that stands
around it in addition to those around that scope. -/
inductive Record.Stands (records : List Record) (id : DeclId) (record : Record) : Prop
  | free :
      record.declaration.parent = none ->
      record.around = [] ->
      Record.Stands records id record
  | inside {anchor : DeclId} {scope : Record} :
      record.declaration.parent = some anchor ->
      anchor < id ->
      records[anchor]? = some scope ->
      scope.declaration.isBinding = false ->
      record.around = scope.around ++ [scope.declaration.node] ->
      Record.Stands records id record

/-- What is recorded remains. -/
theorem getElem?_concat_of_some
    {records : List Record}
    {id : DeclId}
    {record : Record}
    (present : records[id]? = some record)
    (added : Record) :
    (records ++ [added])[id]? = some record := by
  obtain ⟨inside, -⟩ := List.getElem?_eq_some_iff.mp present
  rwa [List.getElem?_append_left inside]

theorem HasDepth.concat
    {records : List Record}
    {id : DeclId}
    {depth : Nat}
    (hasDepth : HasDepth records id depth)
    (added : Record) :
    HasDepth (records ++ [added]) id depth := by
  obtain ⟨record, present, depth⟩ := hasDepth
  exact ⟨record, getElem?_concat_of_some present added, depth⟩

theorem Record.Stands.concat
    {records : List Record}
    {id : DeclId}
    {record : Record}
    (stands : record.Stands records id)
    (added : Record) :
    record.Stands (records ++ [added]) id := by
  cases stands with
  | free noParent nothing => exact .free noParent nothing
  | inside isParent before present isScope around =>
      exact .inside isParent before (getElem?_concat_of_some present added) isScope around

namespace AreOpen

variable {records : List Record} {outermost : List DeclId} {opened : List Level}

theorem concat (areOpen : AreOpen records outermost opened) (added : Record) :
    AreOpen (records ++ [added]) outermost opened := by
  induction areOpen with
  | nil depths => exact .nil fun id member => (depths id member).concat added
  | cons present sameNode isScope around depths _ ih =>
      exact .cons (getElem?_concat_of_some present added) sameNode isScope around
        (fun id member => (depths id member).concat added) ih

/-- No name in force is deeper than the innermost scope. -/
theorem depth_le
    (areOpen : AreOpen records outermost opened)
    {id : DeclId}
    (member : id ∈ (opened.map Level.names).flatten ++ outermost) :
    ∃ depth ≤ opened.length, HasDepth records id depth := by
  induction areOpen with
  | nil depths => exact ⟨0, Nat.le_refl 0, depths id (by simpa using member)⟩
  | @cons level outer _ _ _ _ _ depths _ ih =>
      rw [List.map_cons, List.flatten_cons, List.append_assoc, List.mem_append] at member
      rcases member with innermost | further
      · exact ⟨outer.length + 1, Nat.le_refl _, depths id innermost⟩
      · obtain ⟨depth, low, hasDepth⟩ := ih further
        exact ⟨depth, Nat.le_succ_of_le low, hasDepth⟩

end AreOpen

theorem HasDepth.lt_length
    {records : List Record}
    {id : DeclId}
    {depth : Nat}
    (hasDepth : HasDepth records id depth) :
    id < records.length := by
  obtain ⟨record, present, -⟩ := hasDepth
  exact (List.getElem?_eq_some_iff.mp present).1

/-- The records and the lists of a nesting fit together. -/
structure IsSound : Prop where
  areOpen : AreOpen nesting.records nesting.outermost nesting.opened
  stands : ∀ (id : DeclId) (record : Record),
    nesting.records[id]? = some record -> record.Stands nesting.records id
  ordered : nesting.lists.flatten.Pairwise (· > ·)

namespace IsSound

variable {nesting : Nesting}

theorem empty : IsSound {} where
  areOpen := .nil (by simp)
  stands := by simp
  ordered := by simp [lists]

/-- A record that is made now stands in the innermost scope. -/
theorem stands_record
    (sound : nesting.IsSound)
    (isBinding : Bool)
    (depth : Nat)
    (node : NodeId)
    (line column : Nat) :
    (nesting.record isBinding depth node line column).Stands nesting.records
      nesting.records.length := by
  have areOpen := sound.areOpen
  generalize isOpen : nesting.opened = opened at areOpen
  cases areOpen with
  | nil => exact .free (by simp [record, isOpen]) (by simp [record, isOpen])
  | cons present sameNode isScope around =>
      refine .inside (by simp [record, isOpen]) (List.getElem?_eq_some_iff.mp present).1
        present isScope ?_
      simp [record, isOpen, around, sameNode]

theorem addRecord
    (sound : nesting.IsSound)
    {added : Record}
    (stands : added.Stands nesting.records nesting.records.length) :
    (nesting.addRecord added).IsSound where
  areOpen := sound.areOpen.concat added
  stands := by
    intro id record present
    rcases Nat.lt_trichotomy id nesting.records.length with before | last | beyond
    · rw [Nesting.addRecord, List.getElem?_append_left before] at present
      exact (sound.stands id record present).concat added
    · subst last
      rw [Nesting.addRecord, List.getElem?_concat_length] at present
      cases present
      exact stands.concat added
    · rw [Nesting.addRecord, List.getElem?_eq_none (by simpa using Nat.succ_le_of_lt beyond)]
        at present
      cases present
  ordered := sound.ordered

theorem addLevel
    (sound : nesting.IsSound)
    {anchor : DeclId}
    {scope : Record}
    (present : nesting.records[anchor]? = some scope)
    (isScope : scope.declaration.isBinding = false)
    (around : scope.around = (nesting.opened.map Level.node).reverse) :
    (nesting.addLevel anchor scope.declaration.node).IsSound where
  areOpen := .cons present rfl isScope around (by simp) sound.areOpen
  stands := sound.stands
  ordered := by simpa [Nesting.addLevel, lists] using sound.ordered

theorem addName
    (sound : nesting.IsSound)
    {id : DeclId}
    (hasDepth : HasDepth nesting.records id nesting.opened.length)
    (isLatest : ∀ other ∈ nesting.lists.flatten, other < id) :
    (nesting.addName id).IsSound := by
  have ordered : (nesting.addName id).lists.flatten.Pairwise (· > ·) := by
    rw [flatten_lists_addName]
    exact List.pairwise_cons.mpr ⟨isLatest, sound.ordered⟩
  have areOpen := sound.areOpen
  obtain ⟨records, outermost, opened⟩ := nesting
  cases areOpen with
  | nil depths => exact ⟨.nil (List.forall_mem_cons.mpr ⟨hasDepth, depths⟩), sound.stands, ordered⟩
  | cons present sameNode isScope around depths outer =>
      exact ⟨.cons present sameNode isScope around
        (List.forall_mem_cons.mpr ⟨hasDepth, depths⟩) outer, sound.stands, ordered⟩

theorem leave (sound : nesting.IsSound) : (nesting.perform .leave).IsSound := by
  have areOpen := sound.areOpen
  have ordered := sound.ordered
  obtain ⟨records, outermost, opened⟩ := nesting
  cases areOpen with
  | nil => exact sound
  | cons _ _ _ _ _ outer =>
      refine ⟨outer, sound.stands, ?_⟩
      rw [lists, List.map_cons, List.cons_append, List.flatten_cons] at ordered
      exact (List.pairwise_append.mp ordered).2.1

/-- Every call keeps records and lists together. -/
theorem perform (sound : nesting.IsSound) (call : Scopes.Call) :
    (nesting.perform call).IsSound := by
  cases call with
  | enter node line column =>
      have recorded := sound.addRecord
        (sound.stands_record false (nesting.opened.length + 1) node line column)
      exact recorded.addLevel (List.getElem?_concat_length ..) rfl rfl
  | declare node line column =>
      have recorded := sound.addRecord
        (sound.stands_record true nesting.opened.length node line column)
      refine recorded.addName ⟨_, List.getElem?_concat_length .., rfl⟩ fun id member => ?_
      have inForce : id ∈ nesting.lists.flatten := member
      rw [flatten_lists] at inForce
      obtain ⟨depth, -, hasDepth⟩ := sound.areOpen.depth_le inForce
      exact hasDepth.lt_length
  | leave => exact sound.leave

end IsSound

/-- After any calls records and lists fit together. -/
theorem isSound_run (calls : List Scopes.Call) : (run calls).IsSound := by
  induction calls using List.reverseRecOn with
  | nil => exact .empty
  | append_singleton calls call ih =>
      rw [run_concat]
      exact ih.perform call

/-! ## The answers of the stack -/

/-- In a list with the latest first, the first name with a property is the greatest. -/
theorem find?_eq_max?
    {names : List DeclId}
    (ordered : names.Pairwise (· > ·))
    (holds : DeclId -> Bool) :
    names.find? holds = (names.filter holds).max? := by
  induction ordered with
  | nil => rfl
  | @cons id names isLatest _ ih =>
      by_cases found : holds id = true
      · rw [List.find?_cons_of_pos found, List.filter_cons_of_pos found, eq_comm,
          List.max?_eq_some_iff]
        refine ⟨List.mem_cons_self, fun other member => ?_⟩
        rcases List.mem_cons.mp member with same | later
        · exact Nat.le_of_eq same
        · exact Nat.le_of_lt (isLatest other (List.mem_filter.mp later).1)
      · rw [List.find?_cons_of_neg found, List.filter_cons_of_neg found, ih]

/-- The depth of a name tells it from the names of other lists. -/
theorem HasDepth.satisfies_depth
    {nesting : Nesting}
    {id : DeclId}
    {depth : Nat}
    (hasDepth : HasDepth nesting.records id depth)
    (other : Nat) :
    nesting.satisfies (·.depth = other) id = decide (depth = other) := by
  obtain ⟨record, present, rfl⟩ := hasDepth
  simp [satisfies, present]

namespace IsSound

variable {nesting : Nesting} {entered exited : Nat}

/-- The stack finds the latest name in force. -/
theorem lookup?_toScopes (sound : nesting.IsSound) (property : Declaration -> Bool) :
    (nesting.toScopes entered exited).lookup? property =
      nesting.latest? nesting.lists.flatten property := by
  rw [Scopes.lookup?, satisfies_toScopes]
  exact find?_eq_max? sound.ordered _

/-- The names at the depth of the innermost scope, up to the first that is not, are the
names declared in it. -/
theorem takeWhile_depth (sound : nesting.IsSound) :
    nesting.lists.flatten.takeWhile (nesting.satisfies (·.depth = nesting.opened.length)) =
      nesting.innermost := by
  have areOpen := sound.areOpen
  obtain ⟨records, outermost, opened⟩ := nesting
  cases areOpen with
  | nil depths =>
      simp only [lists, innermost, List.map_nil, List.nil_append, List.flatten_singleton,
        List.takeWhile_eq_self_iff]
      intro id member
      simp [(depths id member).satisfies_depth]
  | @cons level outer _ _ _ _ _ depths areOpen =>
      have elsewhere : ∀ id ∈ (outer.map Level.names).flatten ++ outermost,
          satisfies ⟨records, outermost, level :: outer⟩ (·.depth = outer.length + 1) id =
            false := by
        intro id member
        obtain ⟨depth, low, hasDepth⟩ := areOpen.depth_le member
        rw [hasDepth.satisfies_depth, decide_eq_false_iff_not]
        exact Nat.ne_of_lt (Nat.lt_succ_of_le low)
      rw [flatten_lists, List.map_cons, List.flatten_cons, List.append_assoc,
        List.takeWhile_append_of_pos]
      · rw [List.takeWhile_eq_nil_iff.mpr fun inside => by
          simpa using elsewhere _ (List.getElem_mem inside)]
        exact List.append_nil level.names
      · intro id member
        simp [(depths id member).satisfies_depth]

/-- The stack finds the latest name of the innermost scope. -/
theorem lookupInnermost?_toScopes (sound : nesting.IsSound) (property : Declaration -> Bool) :
    (nesting.toScopes entered exited).lookupInnermost? property =
      nesting.latest? nesting.innermost property := by
  have ordered : nesting.innermost.Pairwise (· > ·) := by
    rw [← sound.takeWhile_depth]
    exact sound.ordered.sublist (List.takeWhile_sublist _)
  rw [Scopes.lookupInnermost?, satisfies_toScopes, satisfies_toScopes]
  exact (congrArg _ sound.takeWhile_depth).trans (find?_eq_max? ordered _)

/-- The stack finds its way out of every record. -/
theorem path_toScopes
    (sound : nesting.IsSound)
    (id : DeclId)
    (record : Record)
    (present : nesting.records[id]? = some record) :
    (nesting.toScopes entered exited).path id = .ok record.around := by
  have read : ∀ (id : DeclId) (record : Record), nesting.records[id]? = some record ->
      (nesting.toScopes entered exited).declaration id = .ok record.declaration := by
    intro id record present
    simp [Scopes.declaration, toScopes, present]
  -- By induction on the index, since the parent of a record is an earlier one.
  induction id using Nat.strongRecOn generalizing record with
  | ind id ih =>
      rw [Scopes.path]
      simp only [read id record present, bind, Except.bind]
      cases sound.stands id record present with
      | free noParent nothing =>
          rw [noParent, nothing]
          rfl
      | @inside anchor scope isParent before recorded _ around =>
          simp only [isParent, if_pos before, ih anchor before scope recorded,
            read anchor scope recorded, around]
          rfl

end IsSound

/-! ## Sequences of calls -/

open Scopes.Call (AreNested)

/-- Records are only added. -/
theorem records_perform (call : Scopes.Call) :
    nesting.records <+: (nesting.perform call).records := by
  cases call with
  | enter node line column => exact List.prefix_append ..
  | declare node line column =>
      rw [perform, records_addName]
      exact List.prefix_append ..
  | leave => exact List.prefix_rfl

theorem records_foldl (calls : List Scopes.Call) :
    nesting.records <+: (calls.foldl perform nesting).records := by
  induction calls generalizing nesting with
  | nil => exact List.prefix_rfl
  | cons call calls ih =>
      exact (nesting.records_perform call).trans (ih (nesting.perform call))

/-- A call opens or closes one scope, or none. -/
theorem length_opened_perform
    {call : Scopes.Call}
    (mayClose : call = .leave -> nesting.opened ≠ []) :
    (nesting.perform call).opened.length + call.closes.toNat =
      nesting.opened.length + call.opens.toNat := by
  cases call with
  | enter node line column => rfl
  | declare node line column =>
      rw [perform, length_opened_addName]
      rfl
  | leave =>
      rw [perform, List.length_tail]
      exact Nat.sub_add_cancel (List.length_pos_of_ne_nil (mayClose rfl))

/-- A call that closes nothing further out leaves the lists there as they are. -/
theorem outer_perform
    {call : Scopes.Call}
    {outer : List Level}
    (isOpen : outer.length < nesting.opened.length)
    (mayClose : call = .leave -> outer.length + 1 < nesting.opened.length)
    (remains : outer <:+ nesting.opened.tail) :
    outer <:+ (nesting.perform call).opened.tail ∧
      (nesting.perform call).outermost = nesting.outermost := by
  cases call with
  | enter node line column => exact ⟨remains.trans (List.tail_suffix _), rfl⟩
  | declare node line column =>
      rw [perform, tail_opened_addName, outermost_addName]
      · exact ⟨remains, rfl⟩
      · exact List.ne_nil_of_length_pos (Nat.zero_lt_of_lt isOpen)
  | leave =>
      have deep := mayClose rfl
      refine ⟨?_, rfl⟩
      obtain ⟨inner, whole⟩ := remains
      cases inner with
      | nil =>
          have := congrArg List.length whole
          rw [List.nil_append, List.length_tail] at this
          omega
      | cons closed inner =>
          rw [perform, ← whole]
          exact List.suffix_append inner outer

section Nested

variable {calls : List Scopes.Call}

/-- The open scopes are those that have been opened and not closed. -/
theorem length_opened_foldl (nested : AreNested calls) :
    (calls.foldl perform nesting).opened.length + calls.countP Scopes.Call.closes =
      nesting.opened.length + calls.countP Scopes.Call.opens := by
  induction calls using List.reverseRecOn with
  | nil => rfl
  | append_singleton calls call ih =>
      have before := ih nested.of_append
      have mayClose : call = .leave -> (calls.foldl perform nesting).opened ≠ [] := by
        rintro rfl
        have := nested.countP_lt
        exact List.ne_nil_of_length_pos (by omega)
      have step := (calls.foldl perform nesting).length_opened_perform mayClose
      rw [List.foldl_concat, Scopes.Call.countP_concat, Scopes.Call.countP_concat]
      omega

/-- The scopes that were open at the start are not closed. -/
theorem length_opened_le (nested : AreNested calls) :
    nesting.opened.length ≤ (calls.foldl perform nesting).opened.length := by
  have := nesting.length_opened_foldl nested
  have := nested.countP_le
  omega

/-- Whoever may close a scope has opened one. -/
theorem length_opened_lt (nested : AreNested (calls ++ [.leave])) :
    nesting.opened.length < (calls.foldl perform nesting).opened.length := by
  have := nesting.length_opened_foldl nested.of_append
  have := nested.countP_lt
  omega

/-- The stack of scopes after calls, by their nesting and their number. -/
def stackOf (calls : List Scopes.Call) : Scopes :=
  (run calls).toScopes (calls.countP Scopes.Call.opens) (calls.countP Scopes.Call.closes)

/-- Nested calls lead from the empty stack to that of the nesting. -/
theorem run_eq_stackOf (nested : AreNested calls) :
    Scopes.run calls = .ok (stackOf calls) := by
  have steps : ∀ passed call rest scopes, passed ++ call :: rest = calls ->
      scopes = stackOf passed ->
      ∃ next, scopes.perform call = .ok next ∧ next = stackOf (passed ++ [call]) := by
    rintro passed call rest _ rfl rfl
    refine ⟨_, perform_toScopes _ fun isLeave => ?_, ?_⟩
    · rw [isLeave, List.append_cons] at nested
      exact List.ne_nil_of_length_pos (length_opened_lt {} nested.of_append)
    · rw [stackOf, run_concat, Scopes.Call.countP_concat, Scopes.Call.countP_concat]
  obtain ⟨scopes, made, rfl⟩ : ∃ scopes, Scopes.run calls = .ok scopes ∧
      scopes = stackOf calls :=
    exists_foldlM_eq_ok (fun passed scopes => scopes = stackOf passed) steps rfl
  exact made

/-- In a scope nothing is added to the lists around it. -/
theorem outer_of_nested
    (nested : AreNested calls)
    {level : Level}
    {outer : List Level}
    (isOpen : nesting.opened = level :: outer) :
    outer <:+ (calls.foldl perform nesting).opened.tail ∧
      (calls.foldl perform nesting).outermost = nesting.outermost := by
  have length : nesting.opened.length = outer.length + 1 := by rw [isOpen, List.length_cons]
  induction calls using List.reverseRecOn with
  | nil => simp [isOpen]
  | append_singleton calls call ih =>
      obtain ⟨remains, sameOutermost⟩ := ih nested.of_append
      have stillOpen := nesting.length_opened_le nested.of_append
      have mayClose : call = .leave ->
          outer.length + 1 < (calls.foldl perform nesting).opened.length := by
        rintro rfl
        have := nesting.length_opened_lt nested
        omega
      obtain ⟨remainsAfter, same⟩ := outer_perform _ (by omega) mayClose remains
      rw [List.foldl_concat]
      exact ⟨remainsAfter, same.trans sameOutermost⟩

/-- Closing a scope brings back the lists that were there when it was opened. -/
theorem run_leave
    (before : List Scopes.Call)
    (node : NodeId)
    (line column : Nat)
    {inner : List Scopes.Call}
    (balanced : Scopes.Call.AreBalanced inner) :
    (run (before ++ .enter node line column :: inner ++ [.leave])).opened =
        (run before).opened ∧
      (run (before ++ .enter node line column :: inner ++ [.leave])).outermost =
        (run before).outermost := by
  obtain ⟨nested, sameCount⟩ := balanced
  generalize entered : (run before).perform (.enter node line column) = start
  have isOpen : start.opened = ⟨(run before).records.length, node, []⟩ :: (run before).opened := by
    rw [← entered]
    rfl
  have outermost : start.outermost = (run before).outermost := by
    rw [← entered]
    rfl
  have whole : run (before ++ .enter node line column :: inner ++ [.leave]) =
      (inner.foldl perform start).perform .leave := by
    simp [run, ← entered]
  -- The lists around the scope remain, and as many are left as were there before it.
  have length := start.length_opened_foldl nested
  obtain ⟨remains, sameOutermost⟩ := start.outer_of_nested nested isOpen
  rw [whole]
  refine ⟨(remains.eq_of_length ?_).symm, sameOutermost.trans outermost⟩
  rw [isOpen, List.length_cons] at length
  rw [List.length_tail]
  omega

end Nested

end Nesting

/-! ## The stack and the nesting -/

/-- The stack of scopes answers as the nesting does, and its records are in order. -/
structure Scopes.Mirrors (scopes : Scopes) (nesting : Nesting) : Prop where
  declarations : scopes.declarations.toList = nesting.records.map Nesting.Record.declaration
  lookup : ∀ property,
    scopes.lookup? property = nesting.latest? nesting.lists.flatten property
  lookupInnermost : ∀ property,
    scopes.lookupInnermost? property = nesting.latest? nesting.innermost property
  visible : scopes.visible.length = nesting.lists.flatten.length
  depth : scopes.depth = nesting.opened.length
  parents : ∀ (id : DeclId) declaration anchor,
    scopes.declarations[id]? = some declaration -> declaration.parent = some anchor ->
      anchor < id ∧
        ∃ scope, scopes.declarations[anchor]? = some scope ∧ scope.isBinding = false
  paths : (List.range scopes.declarations.size).map scopes.path =
    nesting.records.map fun record => .ok record.around

/-- The counters of a stack count the calls, and tell how many scopes are open. -/
structure Scopes.Counts (scopes : Scopes) (calls : List Call) : Prop where
  entered : scopes.entered = calls.countP Call.opens
  exited : scopes.exited = calls.countP Call.closes
  depth : scopes.depth = scopes.frames.length
  opened : scopes.entered = scopes.exited + scopes.depth
  isBalanced : scopes.isBalanced = (scopes.frames.isEmpty && scopes.visible.isEmpty)

/-- The stack after nested calls counts them. -/
theorem Nesting.counts_stackOf
    {calls : List Scopes.Call}
    (nested : Scopes.Call.AreNested calls) :
    (stackOf calls).Counts calls := by
  have opened : calls.countP Scopes.Call.opens =
      calls.countP Scopes.Call.closes + (run calls).opened.length := by
    have length := length_opened_foldl {} nested
    rw [List.length_nil, Nat.zero_add, Nat.add_comm] at length
    exact length.symm
  refine ⟨rfl, rfl, (length_frames ..).symm, opened, ?_⟩
  rw [Scopes.isBalanced]
  cases isOpen : (stackOf calls).frames with
  | nil =>
      have same : (stackOf calls).entered = (stackOf calls).exited := by
        have none := length_frames (run calls).outermost (run calls).opened
        rw [show frames (run calls).outermost (run calls).opened = [] from isOpen] at none
        rw [← none] at opened
        exact opened
      simp [same]
  | cons frame frames => simp

/-- The stack of a nesting mirrors it. -/
theorem Nesting.IsSound.mirrors
    {nesting : Nesting}
    (sound : nesting.IsSound)
    (entered exited : Nat) :
    (nesting.toScopes entered exited).Mirrors nesting where
  declarations := rfl
  lookup := sound.lookup?_toScopes
  lookupInnermost := sound.lookupInnermost?_toScopes
  visible := rfl
  depth := rfl
  parents := by
    intro id declaration anchor present isParent
    simp only [toScopes, List.getElem?_toArray, List.getElem?_map] at present ⊢
    obtain ⟨record, recorded, rfl⟩ := Option.map_eq_some_iff.mp present
    cases sound.stands id record recorded with
    | free noParent => simp [noParent] at isParent
    | @inside _ scope hasParent before scopeRecorded isScope =>
        obtain rfl := Option.some.inj (hasParent.symm.trans isParent)
        exact ⟨before, scope.declaration, by simp [scopeRecorded], isScope⟩
  paths := by
    refine List.ext_getElem (by simp [toScopes]) fun id inside recorded => ?_
    have present := List.getElem?_eq_getElem (List.length_map _ ▸ recorded)
    simpa using sound.path_toScopes id _ present

/-- The stack of scopes agrees with the nesting after any calls that close no more
scopes than they open, and its counters with the calls. What it has recorded remains as it
was. When a scope is closed the names in force are those that were in force when it was
opened. -/
theorem Scopes.agrees_with_nesting
    {calls : List Call}
    (nested : Call.AreNested calls) :
    ∃ scopes, run calls = .ok scopes ∧
      scopes.Mirrors (Nesting.run calls) ∧
      scopes.Counts calls ∧
      (∀ before, before <+: calls ->
        ∃ earlier, run before = .ok earlier ∧
          earlier.declarations.toList <+: scopes.declarations.toList) ∧
      ∀ closing, calls = closing ++ [.leave] ->
        ∃ before node line column inner,
          closing = before ++ .enter node line column :: inner ∧
            Call.AreBalanced inner ∧
            ∃ earlier, run before = .ok earlier ∧
              scopes.visible = earlier.visible ∧ scopes.frames = earlier.frames ∧
              scopes.depth = earlier.depth := by
  refine ⟨_, Nesting.run_eq_stackOf nested, (Nesting.isSound_run calls).mirrors _ _,
    Nesting.counts_stackOf nested, ?_, ?_⟩
  · rintro before ⟨after, rfl⟩
    refine ⟨_, Nesting.run_eq_stackOf nested.of_append, ?_⟩
    have remain := (Nesting.run before).records_foldl after
    rw [Nesting.run, ← List.foldl_append] at remain
    exact remain.map Nesting.Record.declaration
  · rintro closing rfl
    have opened := nested.of_append
    obtain ⟨before, node, line, column, inner, rfl, balanced⟩ :=
      opened.exists_enter 0 nested.countP_lt
    obtain ⟨sameOpened, sameOutermost⟩ :=
      Nesting.run_leave before node line column balanced
    refine ⟨before, node, line, column, inner, rfl, balanced, _,
      Nesting.run_eq_stackOf opened.of_append, ?_, ?_, ?_⟩
    · simp only [Nesting.stackOf, Nesting.toScopes, Nesting.lists, sameOpened, sameOutermost]
    · simp only [Nesting.stackOf, Nesting.toScopes, sameOpened, sameOutermost]
    · simp only [Nesting.stackOf, Nesting.toScopes, sameOpened]

/-- Two scopes, one in the other, with names around, between and in them. The inner one
is closed at the end. -/
def Scopes.layers : List Scopes.Call :=
  [.declare 7 1 1, .enter 0 1 1, .declare 1 1 7, .enter 2 2 1, .declare 3 2 9, .leave]

theorem Scopes.agrees_with_nesting_layers :
    Call.AreNested layers ∧
      ∃ scopes, run layers = .ok scopes ∧
        scopes.Mirrors (Nesting.run layers) ∧
        scopes.depth = 1 ∧ scopes.entered = 2 ∧ scopes.exited = 1 ∧
        scopes.lookup? (·.node = 3) = none ∧
        scopes.lookupInnermost? (·.node = 7) = none ∧
        scopes.lookup? (·.node = 7) = some 0 ∧
        ∃ before earlier, before <+: layers ∧ run before = .ok earlier ∧
          scopes.visible = earlier.visible := by
  have nested : Call.AreNested layers := by decide
  obtain ⟨scopes, made, mirrors, counts, -, closed⟩ := agrees_with_nesting nested
  obtain ⟨before, node, line, column, inner, whole, -, earlier, ran, visible, -⟩ :=
    closed (layers.dropLast) rfl
  refine ⟨nested, scopes, made, mirrors, mirrors.depth, counts.entered, counts.exited, ?_, ?_,
    ?_, before, earlier, ?_, ran, visible⟩
  · rw [mirrors.lookup]
    decide
  · rw [mirrors.lookupInnermost]
    decide
  · rw [mirrors.lookup]
    decide
  · exact (whole ▸ List.prefix_append ..).trans (List.dropLast_prefix layers)

end Frontend
