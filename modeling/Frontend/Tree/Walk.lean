import Frontend.Tree.Basic

/-!
# Walks

A walk through a tree enters each node before its children and leaves it after
them. It is given as the list of these events; what is to be done on the way is a
fold over that list.
-/

namespace Frontend

/-- A step of a walk. -/
inductive Event
  | enter (id : NodeId)
  | leave (id : NodeId)
  deriving DecidableEq, Repr

/-- The node of a step of a walk. -/
def Event.node : Event -> NodeId
  | .enter id | .leave id => id

namespace Tree

variable (tree : Tree)

/-- The walk through the nodes under `id`, on paths of at most `depth` nodes. -/
def eventsWithin : Nat -> NodeId -> Except Fault (List Event)
  | 0, _ => .error .endless
  | depth + 1, id => do
      let children <- tree.children id
      let inner <- children.mapM (eventsWithin depth)
      return Event.enter id :: inner.flatten ++ [Event.leave id]

/-- The walk through the nodes under `id`. A path with more nodes than the tree
has runs in a circle. -/
def eventsFrom (id : NodeId) : Except Fault (List Event) :=
  tree.eventsWithin (tree.nodes.size + 1) id

/-- The walk through the whole tree. -/
def events : Except Fault (List Event) :=
  if tree.nodes.isEmpty then
    .ok []
  else
    tree.eventsFrom root

end Tree

end Frontend
