import Frontend.Proofs.Run
import Frontend.Tree.Basic

/-!
# The layout of the side array

Nodes with any number of children keep them in the side array of a tree. A root or a
block names one stretch of it, the run of its statements. A function or a call names a
header, and the header the run of parameters or arguments. Nodes that are made one after
another take up the side array stretch by stretch, so no two of them share a word.
-/

namespace Frontend

/-- The words of an array from `start` up to `stop`. -/
structure Stretch where
  start : Nat
  stop : Nat
  deriving DecidableEq, Repr

/-- A header of this length, and the run whose bounds are its first two words. A word
that is not there counts as zero; the header itself is then out of bounds. -/
def Stretch.withHeader (extra : Array Nat) (header length : Nat) : List Stretch :=
  [⟨extra.getD header 0, extra.getD (header + 1) 0⟩, ⟨header, header + length⟩]

/-- The stretches of the side array in which the children of a node are looked up. -/
def Node.stretches (extra : Array Nat) (node : Node) : List Stretch :=
  match node.tag with
  | .root | .block => [⟨node.left, node.right⟩]
  | .function => Stretch.withHeader extra node.right 3
  | .call => Stretch.withHeader extra node.right 2
  | .constant | .mutable | .assign | .evaluate | .return | .expression | .unary _
  | .binary _ | .identifier | .literal _ => []

/-- The stretches follow each other from `start` to `stop`, without a gap. -/
def Tiles : Nat -> Nat -> List Stretch -> Prop
  | start, stop, [] => start = stop
  | start, stop, stretch :: rest =>
      stretch.start = start ∧ start ≤ stretch.stop ∧ Tiles stretch.stop stop rest

namespace Tiles

variable {start middle stop : Nat} {stretches others : List Stretch}

theorem append (first : Tiles start middle stretches) (second : Tiles middle stop others) :
    Tiles start stop (stretches ++ others) := by
  induction stretches generalizing start with
  | nil =>
      cases first
      exact second
  | cons stretch rest ih =>
      obtain ⟨same, ordered, restTiles⟩ := first
      exact ⟨same, ordered, ih restTiles⟩

theorem le (tiles : Tiles start stop stretches) : start ≤ stop := by
  induction stretches generalizing start with
  | nil => exact Nat.le_of_eq tiles
  | cons stretch rest ih =>
      exact Nat.le_trans tiles.2.1 (ih tiles.2.2)

/-- Every stretch lies between the ends. -/
theorem inside
    (tiles : Tiles start stop stretches)
    {stretch : Stretch}
    (member : stretch ∈ stretches) :
    start ≤ stretch.start ∧ stretch.start ≤ stretch.stop ∧ stretch.stop ≤ stop := by
  induction stretches generalizing start with
  | nil => cases member
  | cons first rest ih =>
      obtain ⟨same, ordered, restTiles⟩ := tiles
      rcases List.mem_cons.mp member with rfl | member
      · exact ⟨Nat.le_of_eq same.symm, same ▸ ordered, restTiles.le⟩
      · obtain ⟨above, nonempty, below⟩ := ih restTiles member
        exact ⟨Nat.le_trans ordered above, nonempty, below⟩

/-- Every stretch ends before the later ones start. -/
theorem pairwise (tiles : Tiles start stop stretches) :
    stretches.Pairwise fun first second => first.stop ≤ second.start := by
  induction stretches generalizing start with
  | nil => exact .nil
  | cons stretch rest ih =>
      obtain ⟨-, -, restTiles⟩ := tiles
      exact .cons (fun other member => (restTiles.inside member).1)
        (ih restTiles)

end Tiles

/-! ## Arrays that grow -/

theorem Stretch.mem_withHeader {extra : Array Nat} {header length : Nat} :
    ⟨header, header + length⟩ ∈ withHeader extra header length := by
  simp [withHeader]

/-- A header inside the array stays when the array grows, and so do the bounds in it. -/
theorem Stretch.withHeader_eq
    {extra longer : Array Nat}
    (extended : Extends extra longer)
    {header length : Nat}
    (long : 2 ≤ length)
    (inside : header + length ≤ extra.size) :
    withHeader longer header length = withHeader extra header length := by
  have same : ∀ index, index < extra.size -> longer.getD index 0 = extra.getD index 0 := by
    intro index bound
    rw [Array.getD_eq_getD_getElem?, Array.getD_eq_getD_getElem?, extended.getElem?_eq bound]
  rw [withHeader, withHeader, same header (by omega), same (header + 1) (by omega)]

/-- The stretches of a node stay when the array grows that they lie in. -/
theorem Node.stretches_eq
    {node : Node}
    {extra longer : Array Nat}
    (inside : ∀ stretch ∈ node.stretches extra, stretch.stop ≤ extra.size)
    (extended : Extends extra longer) :
    node.stretches longer = node.stretches extra := by
  unfold stretches at inside ⊢
  split
  case h_3 isFunction =>
    rw [isFunction] at inside
    exact Stretch.withHeader_eq extended (by decide) (inside ⟨_, _⟩ Stretch.mem_withHeader)
  case h_4 isCall =>
    rw [isCall] at inside
    exact Stretch.withHeader_eq extended (by decide) (inside ⟨_, _⟩ Stretch.mem_withHeader)
  all_goals rfl

/-- Nodes whose stretches lie in the array name the same ones when it grows. -/
theorem Tiles.stretches_eq
    {start : Nat}
    {nodes : List Node}
    {extra longer : Array Nat}
    (tiles : Tiles start extra.size (nodes.flatMap (Node.stretches extra)))
    (extended : Extends extra longer) :
    nodes.flatMap (Node.stretches longer) = nodes.flatMap (Node.stretches extra) := by
  apply List.flatMap_congr
  intro node member
  apply Node.stretches_eq _ extended
  intro stretch isStretch
  exact (tiles.inside (List.mem_flatMap.mpr ⟨node, member, isStretch⟩)).2.2

theorem tiles_run (extra : Array Nat) (words : List Nat) :
    Tiles extra.size (extra ++ words).size [⟨extra.size, extra.size + words.length⟩] :=
  ⟨rfl, Nat.le_add_right _ _, (size_append_list _ _).symm⟩

/-- A run and the header that is written behind it follow each other. -/
theorem tiles_withHeader (extra : Array Nat) (words more : List Nat) :
    Tiles extra.size
      (extra ++ words ++ (extra.size :: (extra.size + words.length) :: more)).size
      (Stretch.withHeader
        (extra ++ words ++ (extra.size :: (extra.size + words.length) :: more))
        (extra ++ words).size (more.length + 2)) := by
  have start : (extra ++ words ++ (extra.size :: (extra.size + words.length) :: more)).getD
      (extra ++ words).size 0 = extra.size := by
    rw [Array.getD_eq_getD_getElem?, ← Nat.add_zero (extra ++ words).size,
      getElem?_append_list]
    rfl
  have stop : (extra ++ words ++ (extra.size :: (extra.size + words.length) :: more)).getD
      ((extra ++ words).size + 1) 0 = extra.size + words.length := by
    rw [Array.getD_eq_getD_getElem?, getElem?_append_list]
    rfl
  rw [Stretch.withHeader, start, stop, size_append_list (extra ++ words),
    size_append_list extra words]
  exact ⟨rfl, Nat.le_add_right _ _, rfl, Nat.le_add_right _ _, rfl⟩

end Frontend
