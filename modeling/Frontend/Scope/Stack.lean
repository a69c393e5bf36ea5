import Frontend.Fault
import Frontend.Tree.Basic

/-!
# Scopes

The scopes of a program open and close like parentheses. Every declaration, and
every opening of a scope, is recorded for good. Beside the records stands the
window of the names that are in force: a declaration adds to it, and closing a
scope cuts it back to what it was when the scope opened.
-/

namespace Frontend

/-- The index of a declaration. A word of 32 bits holds it: fewer than 2 ^ 32 records are
meant, as there are in every tree whose nodes can be counted by such words. -/
abbrev DeclId := Nat

/-- A record of a declared name, or of a scope that opened. -/
structure Declaration where
  node : NodeId
  /-- The record of the innermost scope around this one, if any is open. -/
  parent : Option DeclId
  line : Nat
  column : Nat
  /-- The record is that of a name. -/
  isBinding : Bool
  /-- The number of scopes around a name; a scope counts itself. -/
  depth : Nat
  deriving DecidableEq, Repr

/-- An open scope. -/
structure Frame where
  /-- The record of the scope. -/
  anchor : DeclId
  /-- The number of names in force when the scope opened. -/
  height : Nat
  deriving DecidableEq, Repr

/-- The records, the names in force, and the open scopes with their counters. -/
structure Scopes where
  declarations : Array Declaration := #[]
  /-- The names in force, latest first. -/
  visible : List DeclId := []
  /-- The open scopes, innermost first. -/
  frames : List Frame := []
  /-- The counter of open scopes. -/
  depth : Nat := 0
  /-- The counter of scopes that were ever opened. -/
  entered : Nat := 0
  /-- The counter of scopes that were closed. -/
  exited : Nat := 0
  deriving DecidableEq, Repr

namespace Scopes

variable (scopes : Scopes)

/-- The record of this index. -/
def declaration (id : DeclId) : Except Fault Declaration :=
  match scopes.declarations[id]? with
  | some declaration => .ok declaration
  | none => .error (.declaration id)

/-- Every scope that was opened is closed, and no name is in force. -/
def isBalanced : Bool :=
  scopes.entered == scopes.exited && scopes.frames.isEmpty && scopes.visible.isEmpty

/-- The record of the innermost open scope. -/
def anchor? : Option DeclId :=
  scopes.frames.head?.map Frame.anchor

/-- The index of the next record. -/
def nextId : DeclId :=
  scopes.declarations.size

/-- Open a scope. Its index is the next one. -/
def enter (node : NodeId) (line column : Nat) : Scopes :=
  let frame : Frame :=
    { anchor := scopes.nextId, height := scopes.visible.length }
  let declaration : Declaration :=
    { node, parent := scopes.anchor?, line, column, isBinding := false
      depth := scopes.depth + 1 }
  { scopes with
    declarations := scopes.declarations.push declaration
    frames := frame :: scopes.frames
    depth := scopes.depth + 1
    entered := scopes.entered + 1 }

/-- Close the innermost scope. Neither the list of open scopes nor their counter can go
below nothing. -/
def leave : Except Fault Scopes :=
  match scopes.frames, scopes.depth with
  | frame :: frames, depth + 1 =>
      .ok { scopes with
        visible := scopes.visible.drop (scopes.visible.length - frame.height)
        frames
        depth
        exited := scopes.exited + 1 }
  | _, _ => .error .scopeExit

/-- A scope can be closed if one is open and counted. -/
theorem leave_eq_ok {scopes after : Scopes} :
    scopes.leave = .ok after ↔
      ∃ frame frames depth, scopes.frames = frame :: frames ∧ scopes.depth = depth + 1 ∧
        after = { scopes with
          visible := scopes.visible.drop (scopes.visible.length - frame.height)
          frames
          depth
          exited := scopes.exited + 1 } := by
  constructor
  · intro left
    unfold leave at left
    split at left
    next frame frames depth isOpen counted =>
      cases left
      exact ⟨frame, frames, depth, isOpen, counted, rfl⟩
    next => cases left
  · rintro ⟨frame, frames, depth, isOpen, counted, rfl⟩
    simp only [leave, isOpen, counted]

/-- Declare a name in the innermost scope. Its index is the next one. -/
def declare (node : NodeId) (line column : Nat) : Scopes :=
  let id := scopes.nextId
  let declaration : Declaration :=
    { node, parent := scopes.anchor?, line, column, isBinding := true
      depth := scopes.depth }
  { scopes with
    declarations := scopes.declarations.push declaration
    visible := id :: scopes.visible }

/-- The record of this index exists and has the property. -/
def satisfies (property : Declaration -> Bool) (id : DeclId) : Bool :=
  scopes.declarations[id]?.any property

/-- The latest name in force that has the property. -/
def lookup? (property : Declaration -> Bool) : Option DeclId :=
  scopes.visible.find? (scopes.satisfies property)

/-- The latest name of the innermost scope that has the property. -/
def lookupInnermost? (property : Declaration -> Bool) : Option DeclId :=
  (scopes.visible.takeWhile (scopes.satisfies (·.depth = scopes.depth))).find?
    (scopes.satisfies property)

/-- The nodes of the scopes around a record, outermost first. The record of a
scope comes before all records inside it. -/
def path (id : DeclId) : Except Fault (List NodeId) := do
  match (<- scopes.declaration id).parent with
  | none => return []
  | some anchor =>
      if anchor < id then
        let outer <- path anchor
        return outer ++ [(<- scopes.declaration anchor).node]
      else
        throw .endless
  termination_by id

end Scopes

end Frontend
