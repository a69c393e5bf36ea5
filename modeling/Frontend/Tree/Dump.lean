import Frontend.Text.Quoted
import Frontend.Tree.Basic

/-!
# Dumps

The dump of a tree is one nested list in parentheses. Identifiers and literals
are written by their text, a string literal in quotes. The wrapper of a whole
expression does not show.
-/

namespace Frontend
namespace Tree

variable (tree : Tree)

/-- The dump of the nodes under `id`, on paths of at most `depth` nodes. -/
def dumpWithin : Nat -> NodeId -> Except Fault String
  | 0, _ => .error .endless
  | depth + 1, id => do
      let node <- tree.node id
      match node.tag with
      | .literal .string => return Text.quoted (<- tree.text id)
      | .identifier | .literal _ => tree.text id
      | .expression => dumpWithin depth node.left
      | tag =>
          let children <- tree.children id
          let parts <- children.mapM (dumpWithin depth)
          return "(" ++ String.join (tag.name :: parts.map (" " ++ ·)) ++ ")"

/-- The dump of the whole tree. -/
def dump : Except Fault String :=
  tree.dumpWithin (tree.nodes.size + 1) root

end Tree
end Frontend
