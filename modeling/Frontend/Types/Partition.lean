import Frontend.Types.Forest

/-!
# Partitions of types

A partition groups types into sets, each with one of its members as the
representative. It is a forest of types, kept as an array with a place for the
parent of every type. The place is filled when the type is mentioned for the first
time, and then the type is its own parent. A type that was never mentioned has an
empty place, or none at all, and is alone in its set.

Merging two sets is directed, since it matters which representative remains
(`root_union`). Looking a type up shortens the way for the next time and changes
no set (`root_find`).
-/

namespace Frontend

/-- The places for the parents of all types. -/
abbrev Parents := Array (Option TypeId)

namespace Parents

/-- The parent that is written at the place of a type. -/
def written? (parents : Parents) (id : TypeId) : Option TypeId :=
  parents[id]?.join

/-- The parent of a type, which is its own parent as long as nothing is written. -/
def parent (parents : Parents) (id : TypeId) : TypeId :=
  (parents.written? id).getD id

/-- Make places up to the one of a type, and fill that one if it is empty. -/
def mention (parents : Parents) (id : TypeId) : Parents :=
  (parents ++ Array.replicate (id + 1 - parents.size) none).modify id fun place =>
    some (place.getD id)

/-- Only at a place can a parent be written. -/
theorem lt_size_of_isSome
    {parents : Parents}
    {id : TypeId}
    (written : (parents.written? id).isSome = true) :
    id < parents.size := by
  refine Decidable.byContradiction fun outside => ?_
  rw [written?, Array.getElem?_eq_none (Nat.le_of_not_lt outside)] at written
  cases written

/-- A type with another type as its parent has been mentioned. -/
theorem isSome_of_parent_ne
    {parents : Parents}
    {id : TypeId}
    (moves : parents.parent id ≠ id) :
    (parents.written? id).isSome = true := by
  cases written : parents.written? id with
  | none => exact absurd (by rw [parent, written]; rfl) moves
  | some _ => rfl

/-- Empty places at the end say nothing. -/
theorem written?_append_replicate (parents : Parents) (count : Nat) (id : TypeId) :
    written? (parents ++ Array.replicate count none) id = parents.written? id := by
  unfold written?
  by_cases inside : id < parents.size
  · rw [Array.getElem?_append_left inside]
  · rw [Array.getElem?_append_right (Nat.le_of_not_lt inside),
      Array.getElem?_eq_none (Nat.le_of_not_lt inside), Array.getElem?_replicate]
    split <;> rfl

/-- Mentioning a type writes its parent down. -/
theorem written?_mention (parents : Parents) (id other : TypeId) :
    (parents.mention id).written? other =
      if other = id then some (parents.parent id) else parents.written? other := by
  rw [← written?_append_replicate parents (id + 1 - parents.size) other, parent,
    ← written?_append_replicate parents (id + 1 - parents.size) id, mention]
  have enough : id < (parents ++ Array.replicate (id + 1 - parents.size) none).size := by
    rw [Array.size_append, Array.size_replicate]
    exact Nat.sub_le_iff_le_add'.mp (Nat.le_refl (id + 1 - parents.size))
  generalize parents ++ Array.replicate (id + 1 - parents.size) none = longer at enough ⊢
  unfold written?
  rw [Array.getElem?_modify]
  by_cases same : other = id
  · simp [same, enough]
  · simp [same, Ne.symm same]

/-- Mentioning a type changes no parent. -/
theorem parent_mention (parents : Parents) (id : TypeId) :
    (parents.mention id).parent = parents.parent := by
  funext other
  by_cases same : other = id
  · simp [parent, written?_mention, same]
  · simp [parent, written?_mention, same]

/-- Writing fills one place. -/
theorem written?_set
    (parents : Parents)
    (id target : TypeId)
    (inside : id < parents.size)
    (other : TypeId) :
    written? (parents.set id (some target) inside) other =
      if other = id then some target else parents.written? other := by
  unfold written?
  rw [Array.getElem?_set]
  by_cases same : other = id
  · simp [same]
  · simp [same, Ne.symm same]

/-- Writing changes one parent. -/
theorem parent_set
    (parents : Parents)
    (id target : TypeId)
    (inside : id < parents.size) :
    parent (parents.set id (some target) inside) = redirect parents.parent id target := by
  funext other
  by_cases same : other = id
  · simp [parent, written?_set, redirect, same]
  · simp [parent, written?_set, redirect, same]

/-- No way leads to a type that was never mentioned. -/
def IsClosed (parents : Parents) : Prop :=
  ∀ id, (parents.written? id).isSome = true ->
    (parents.written? (parents.parent id)).isSome = true

namespace IsClosed

variable {parents : Parents}

/-- A type may be mentioned. -/
theorem mention (closed : parents.IsClosed) (id : TypeId) : (parents.mention id).IsClosed := by
  intro other written
  rw [parent_mention]
  simp only [written?_mention] at written ⊢
  by_cases fixed : parents.parent other = other
  · rwa [fixed]
  · have next := closed other (isSome_of_parent_ne fixed)
    split
    · rfl
    · exact next

/-- A type that has been mentioned may be written as a parent. -/
theorem set
    (closed : parents.IsClosed)
    (id : TypeId)
    {target : TypeId}
    (mentioned : (parents.written? target).isSome = true)
    (inside : id < parents.size) :
    IsClosed (parents.set id (some target) inside) := by
  have kept : ∀ other, (parents.written? other).isSome = true ->
      (written? (parents.set id (some target) inside) other).isSome = true := by
    intro other written
    rw [written?_set]
    split
    · rfl
    · exact written
  intro other written
  rw [parent_set, redirect]
  by_cases same : other = id
  · rw [if_pos same]
    exact kept target mentioned
  · rw [written?_set, if_neg same] at written
    rw [if_neg same]
    exact kept _ (closed other written)

/-- The way from a type that has been mentioned leads to such types only. -/
theorem ascend
    (closed : parents.IsClosed)
    (steps : Nat)
    (id : TypeId)
    (mentioned : (parents.written? id).isSome = true) :
    (parents.written? (ascend parents.parent steps id)).isSome = true := by
  induction steps generalizing id with
  | zero => exact mentioned
  | succ steps ih =>
      rw [Frontend.ascend]
      split
      · exact mentioned
      · exact ih _ (closed id mentioned)

end IsClosed

end Parents

/-- Sets of types, as a forest. No way up is longer than the number of mergers. -/
structure Partition where
  /-- The parents of the types that have been mentioned. -/
  parents : Parents
  /-- The number of mergers. -/
  mergers : Nat
  grounded : Grounded parents.parent mergers
  closed : parents.IsClosed

namespace Partition

/-- Every type is alone in its set. -/
def empty : Partition where
  parents := #[]
  mergers := 0
  grounded := Grounded.refl
  closed := nofun

variable (partition : Partition)

/-- The parent of a type. -/
def parent (id : TypeId) : TypeId :=
  partition.parents.parent id

/-- The representative of a type. -/
def root (id : TypeId) : TypeId :=
  ascend partition.parent partition.mergers id

/-- The type has been mentioned. -/
def Mentions (id : TypeId) : Prop :=
  (partition.parents.written? id).isSome = true

/-- Every type represents itself at first. -/
@[simp] theorem root_empty (id : TypeId) : empty.root id = id := rfl

/-- A representative is its own parent. -/
@[simp] theorem parent_root (id : TypeId) :
    partition.parent (partition.root id) = partition.root id :=
  partition.grounded.parent_ascend id

/-- A type and its parent have the same representative. -/
@[simp] theorem root_parent (id : TypeId) :
    partition.root (partition.parent id) = partition.root id :=
  partition.grounded.ascend_parent id

/-- A representative represents itself. -/
@[simp] theorem root_root (id : TypeId) :
    partition.root (partition.root id) = partition.root id :=
  partition.grounded.ascend_ascend id

namespace Mentions

variable {partition : Partition} {id : TypeId}

/-- A type that has been mentioned has a place. -/
theorem lt_size (mentioned : partition.Mentions id) : id < partition.parents.size :=
  Parents.lt_size_of_isSome mentioned

/-- The representative of a type that has been mentioned has been mentioned. -/
theorem root (mentioned : partition.Mentions id) : partition.Mentions (partition.root id) :=
  partition.closed.ascend partition.mergers id mentioned

/-- A type with another type as its representative has been mentioned. -/
theorem of_root_ne (moves : id ≠ partition.root id) : partition.Mentions id :=
  Parents.isSome_of_parent_ne fun fixed =>
    moves (ascend_of_parent_eq fixed partition.mergers).symm

end Mentions

/-- Mention a type, which puts it into a set of its own if it is new. -/
def insert (id : TypeId) : Partition where
  parents := partition.parents.mention id
  mergers := partition.mergers
  grounded := by
    rw [Parents.parent_mention]
    exact partition.grounded
  closed := partition.closed.mention id

/-- Mentioning a type changes no representative. -/
@[simp] theorem root_insert (id other : TypeId) :
    (partition.insert id).root other = partition.root other := by
  have same : (partition.insert id).parent = partition.parent :=
    partition.parents.parent_mention id
  rw [root, same]
  rfl

/-- What has been mentioned is the type itself and whatever was before. -/
theorem mentions_insert (id other : TypeId) :
    (partition.insert id).Mentions other ↔ other = id ∨ partition.Mentions other := by
  by_cases same : other = id
  · simp [Mentions, insert, Parents.written?_mention, same]
  · simp [Mentions, insert, Parents.written?_mention, same]

/-- Let a type point directly at its representative, if that is another type. -/
def shorten
    (id representative : TypeId)
    (represents : partition.root id = representative)
    (different : id ≠ representative) : Partition :=
  have mentioned : partition.Mentions id := .of_root_ne (represents ▸ different)
  { parents := partition.parents.set id (some representative) mentioned.lt_size
    mergers := partition.mergers
    grounded := by
      rw [Parents.parent_set, ← represents]
      exact partition.grounded.shorten id
    closed := partition.closed.set id (represents ▸ mentioned.root) mentioned.lt_size }

/-- Shortening a way changes one parent. -/
theorem parent_shorten
    (id representative : TypeId)
    (represents : partition.root id = representative)
    (different : id ≠ representative) :
    (partition.shorten id representative represents different).parent =
      redirect partition.parent id (partition.root id) := by
  subst represents
  exact Parents.parent_set _ _ _ (Mentions.of_root_ne different).lt_size

/-- Pointing directly at a representative changes no representative. -/
@[simp] theorem root_shorten
    (id representative : TypeId)
    (represents : partition.root id = representative)
    (different : id ≠ representative)
    (other : TypeId) :
    (partition.shorten id representative represents different).root other =
      partition.root other := by
  rw [root, parent_shorten]
  exact partition.grounded.ascend_shorten id other

/-- Shortening a way mentions nothing new. -/
theorem mentions_shorten
    (id representative : TypeId)
    (represents : partition.root id = representative)
    (different : id ≠ representative)
    (other : TypeId) :
    (partition.shorten id representative represents different).Mentions other ↔
      partition.Mentions other := by
  have mentioned : partition.Mentions id := .of_root_ne (represents ▸ different)
  by_cases same : other = id
  · simpa [Mentions, shorten, Parents.written?_set, same] using mentioned
  · simp [Mentions, shorten, Parents.written?_set, same]

/-- Let a representative point at another one. -/
def link
    (source target : TypeId)
    (sourceMentioned : partition.Mentions source)
    (targetMentioned : partition.Mentions target)
    (sourceFixed : partition.parent source = source)
    (targetFixed : partition.parent target = target)
    (different : source ≠ target) : Partition where
  parents := partition.parents.set source (some target) sourceMentioned.lt_size
  mergers := partition.mergers + 1
  grounded := by
    rw [Parents.parent_set]
    exact partition.grounded.link sourceFixed targetFixed different
  closed := partition.closed.set source targetMentioned sourceMentioned.lt_size

/-- After one representative points at another, that one stands for both. -/
theorem root_link
    (source target : TypeId)
    (sourceMentioned : partition.Mentions source)
    (targetMentioned : partition.Mentions target)
    (sourceFixed : partition.parent source = source)
    (targetFixed : partition.parent target = target)
    (different : source ≠ target)
    (id : TypeId) :
    (partition.link source target sourceMentioned targetMentioned sourceFixed targetFixed
      different).root id =
      if partition.root id = source then target else partition.root id := by
  have parents :
      (partition.link source target sourceMentioned targetMentioned sourceFixed
        targetFixed different).parent =
        redirect partition.parent source target :=
    Parents.parent_set _ _ _ sourceMentioned.lt_size
  rw [root, parents]
  exact partition.grounded.ascend_link sourceFixed targetFixed different id

/-- Let every type on the way to a representative point directly at it. -/
def compress (representative : TypeId) :
    Nat -> (partition : Partition) -> (id : TypeId) ->
      partition.root id = representative -> Partition
  | 0, partition, _, _ => partition
  | steps + 1, partition, id, represents =>
      if arrived : id = representative then
        partition
      else
        let next := partition.parent id
        compress representative steps
          (partition.shorten id representative represents arrived)
          next
          (by simp [next, represents])

/-- Shortening a way changes no representative. -/
@[simp] theorem root_compress
    (representative : TypeId)
    (steps : Nat)
    (id : TypeId)
    (represents : partition.root id = representative)
    (other : TypeId) :
    (compress representative steps partition id represents).root other =
      partition.root other := by
  induction steps generalizing partition id with
  | zero => rfl
  | succ steps ih =>
      rw [compress]
      split
      · rfl
      · simp [ih]

/-- Shortening a way mentions nothing new. -/
theorem mentions_compress
    (representative : TypeId)
    (steps : Nat)
    (id : TypeId)
    (represents : partition.root id = representative)
    (other : TypeId) :
    (compress representative steps partition id represents).Mentions other ↔
      partition.Mentions other := by
  induction steps generalizing partition id with
  | zero => rfl
  | succ steps ih =>
      rw [compress]
      split
      · rfl
      · rw [ih, mentions_shorten]

/-- The representative of a type, and the partition with a shorter way to it. -/
def find (id : TypeId) : TypeId × Partition :=
  let representative := partition.root id
  let steps := partition.mergers
  (representative,
    compress representative steps (partition.insert id) id
      (partition.root_insert id id))

@[simp] theorem find_fst (id : TypeId) :
    (partition.find id).1 = partition.root id := rfl

/-- Looking a type up changes no representative. -/
@[simp] theorem root_find (id other : TypeId) :
    (partition.find id).2.root other = partition.root other := by
  simp [find]

/-- Looking a type up mentions that type. -/
theorem mentions_find (id other : TypeId) :
    (partition.find id).2.Mentions other ↔ other = id ∨ partition.Mentions other := by
  rw [find, mentions_compress, mentions_insert]

/-- Merge two sets. The representative of the second one remains. -/
def union (source target : TypeId) : Partition :=
  let found := ((partition.find source).2.find target).2
  have sourceMentioned : found.Mentions source := by simp [found, mentions_find]
  have targetMentioned : found.Mentions target := by simp [found, mentions_find]
  if same : found.root source = found.root target then
    found
  else
    found.link (found.root source) (found.root target) sourceMentioned.root
      targetMentioned.root (by simp) (by simp) same

/-- After a merger the representative of the second set stands for the first set
too, and all other representatives are as before. -/
theorem root_union (source target id : TypeId) :
    (partition.union source target).root id =
      if partition.root id = partition.root source then
        partition.root target
      else
        partition.root id := by
  by_cases same : partition.root source = partition.root target
  · by_cases member : partition.root id = partition.root target
    · simp [union, same, member]
    · simp [union, same, member]
  · simp [union, same, root_link]

/-- Whether two types are in one set. -/
def sameSet (left right : TypeId) : Bool × Partition :=
  let (left, partition) := partition.find left
  let (right, partition) := partition.find right
  (left = right, partition)

end Partition

end Frontend
