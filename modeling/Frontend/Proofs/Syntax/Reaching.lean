import Frontend.Proofs.Grammar.Legible
import Frontend.Proofs.Syntax.Family

/-!
# Parts of a walk

The walk through an outline gets to each of its parts once, after the steps into the
nodes above and the walks through what comes earlier below these. Every step of the walk is
the first or the last one of the walk through a part. So what holds whenever a walk gets to
a part is shown from a part to its children.
-/

namespace Frontend

/-- An item of one of the lists that are put together, with what comes before it. -/
theorem exists_of_flatten_eq
    {Item : Type}
    {lists : List (List Item)}
    {passed rest : List Item}
    {item : Item}
    (split : lists.flatten = passed ++ item :: rest) :
    ∃ earlier inner more later,
      lists = earlier ++ (inner ++ item :: more) :: later ∧
        passed = earlier.flatten ++ inner := by
  induction lists generalizing passed with
  | nil => simp at split
  | cons first lists ih =>
      rw [List.flatten_cons, List.append_eq_append_iff] at split
      rcases split with ⟨inner, rfl, split⟩ | ⟨inner, rfl, split⟩
      · obtain ⟨earlier, inner, more, later, rfl, rfl⟩ := ih split
        exact ⟨first :: earlier, inner, more, later, rfl, by simp⟩
      · cases inner with
        | nil =>
            obtain ⟨earlier, inner, more, later, rfl, nothing⟩ :=
              ih (split.symm.trans (List.nil_append _).symm)
            refine ⟨_ :: earlier, inner, more, later, rfl, ?_⟩
            rw [List.append_nil, List.flatten_cons, List.append_assoc, ← nothing]
            simp
        | cons found more =>
            cases split
            exact ⟨[], passed, more, lists, rfl, rfl⟩

namespace Outline

variable {outline part child : Outline Mark} {passed rest : List Event}

/-- The walk through the outline gets to the part after these steps. -/
inductive Reaches (outline : Outline Mark) : List Event -> Outline Mark -> Prop
  | start : Reaches outline [] outline
  | child
      {passed : List Event}
      {part child : Outline Mark}
      {earlier later : List (Outline Mark)} :
      Reaches outline passed part -> part.children = earlier ++ child :: later ->
        Reaches outline
          (passed ++ .enter part.label.node :: (earlier.map events).flatten) child

theorem events_eq (outline : Outline Mark) :
    outline.events =
      .enter outline.label.node :: (outline.children.map events).flatten ++
        [.leave outline.label.node] := by
  cases outline
  rw [events]
  rfl

namespace Reaches

/-- What the walk gets to is a part. -/
theorem mem_parts (reaches : outline.Reaches passed part) : part ∈ outline.parts := by
  induction reaches with
  | start => exact outline.self_mem_parts
  | child _ split isPart =>
      exact mem_parts_of_mem_children isPart (split ▸ List.mem_append_cons_self)

/-- The walk goes through the part next. -/
theorem exists_rest (reaches : outline.Reaches passed part) :
    ∃ rest, outline.events = passed ++ part.events ++ rest := by
  induction reaches with
  | start => exact ⟨[], by simp⟩
  | @child passed part child earlier later _ split walked =>
      obtain ⟨rest, walk⟩ := walked
      refine ⟨(later.map events).flatten ++ .leave part.label.node :: rest, ?_⟩
      rw [walk, part.events_eq, split]
      simp

/-- The walk through a child gets to its parts on the walk through the whole. -/
theorem of_child
    {earlier later : List (Outline Mark)}
    (split : outline.children = earlier ++ child :: later)
    (reaches : child.Reaches passed part) :
    outline.Reaches
      (.enter outline.label.node :: (earlier.map events).flatten ++ passed) part := by
  induction reaches with
  | start =>
      rw [List.append_nil]
      exact .child .start split
  | child _ below reached => simpa using reached.child below

end Reaches

/-- A walk gets to all parts. -/
theorem exists_reaches_of_mem (isPart : part ∈ outline.parts) :
    ∃ passed, outline.Reaches passed part := by
  induction outline with
  | node mark tag children ih =>
      rw [parts_node] at isPart
      rcases List.mem_cons.mp isPart with rfl | below
      · exact ⟨[], .start⟩
      · obtain ⟨_, isList, isLower⟩ := List.mem_flatten.mp below
        obtain ⟨child, member, rfl⟩ := List.mem_map.mp isList
        obtain ⟨passed, reaches⟩ := ih child member isLower
        obtain ⟨earlier, later, rfl⟩ := List.append_of_mem member
        exact ⟨_, .of_child rfl reaches⟩

/-- Every step of a walk is the first or the last one of the walk through a part. -/
theorem exists_reaches
    {event : Event}
    (split : outline.events = passed ++ event :: rest) :
    ∃ earlier part, outline.Reaches earlier part ∧
      (event = .enter part.label.node ∧ passed = earlier ∨
        event = .leave part.label.node ∧
          passed = earlier ++ .enter part.label.node :: (part.children.map events).flatten) := by
  induction outline generalizing passed rest with
  | node mark tag children ih =>
      rw [events_eq, label_node, children_node] at split
      cases passed with
      | nil =>
          cases split
          exact ⟨[], _, .start, .inl ⟨rfl, rfl⟩⟩
      | cons first passed =>
          rw [List.cons_append, List.cons_append, List.cons.injEq] at split
          obtain ⟨rfl, split⟩ := split
          rcases List.append_eq_append_iff.mp split with
            ⟨more, rfl, last⟩ | ⟨more, inner, last⟩
          · -- Nothing comes after the children but the step out of the node.
            cases more with
            | nil =>
                cases last
                exact ⟨[], _, .start, .inr ⟨rfl, by simp⟩⟩
            | cons => simp at last
          · cases more with
            | nil =>
                cases last
                exact ⟨[], _, .start, .inr ⟨rfl, by simpa using inner.symm⟩⟩
            | cons found more =>
                obtain ⟨rfl, -⟩ := List.cons.inj last
                obtain ⟨_, passed, _, _, walks, rfl⟩ := exists_of_flatten_eq inner
                obtain ⟨earlier, others, rfl, rfl, walk⟩ := List.map_eq_append_iff.mp walks
                obtain ⟨child, later, rfl, childWalk, -⟩ := List.map_eq_cons_iff.mp walk
                obtain ⟨reached, part, reaches, last⟩ :=
                  ih child (by simp) childWalk
                refine ⟨_, part, .of_child rfl reaches, ?_⟩
                rcases last with ⟨same, rfl⟩ | ⟨same, rfl⟩
                · exact .inl ⟨same, by simp⟩
                · exact .inr ⟨same, by simp⟩

/-- The parts of a part are parts. -/
theorem parts_subset (isPart : part ∈ outline.parts) : part.parts ⊆ outline.parts := by
  induction part with
  | node mark tag children ih =>
      intro lower isLower
      rw [parts_node] at isLower
      rcases List.mem_cons.mp isLower with rfl | below
      · exact isPart
      · obtain ⟨_, isList, isLower⟩ := List.mem_flatten.mp below
        obtain ⟨child, member, rfl⟩ := List.mem_map.mp isList
        exact ih child member (mem_parts_of_mem_children isPart member) isLower

/-- The labels of every part are numbered in a row. -/
theorem exists_numbered
    {start stop : Nat}
    (numbered : Numbered start stop outline.labels)
    (isPart : part ∈ outline.parts) :
    ∃ first last, last ≤ stop ∧ Numbered first last part.labels := by
  induction outline generalizing start stop with
  | node mark tag children ih =>
      rw [parts_node] at isPart
      rcases List.mem_cons.mp isPart with rfl | below
      · exact ⟨start, stop, Nat.le_refl stop, numbered⟩
      · obtain ⟨_, isList, isPart⟩ := List.mem_flatten.mp below
        obtain ⟨child, member, rfl⟩ := List.mem_map.mp isList
        rw [labels] at numbered
        obtain ⟨childrenNumbered, rfl⟩ := numbered.of_concat
        obtain ⟨_, last, -, lastLe, childNumbered⟩ :=
          childrenNumbered.exists_of_mem_flatten (List.mem_map_of_mem member)
        obtain ⟨first, stop, stopLe, partNumbered⟩ :=
          ih child member childNumbered isPart
        exact ⟨first, stop, by omega, partNumbered⟩

end Outline

namespace Tree

/-- The walk through the nodes under a node is that through its part of the program. -/
theorem Represents.eventsFrom_eq
    {tree : Tree}
    {program : Program Mark}
    {part : Outline Mark}
    (represents : tree.Represents program)
    (small : tree.nodes.size ≤ Node.absent)
    (isPart : part ∈ program.outline.parts) :
    tree.eventsFrom part.label.node = .ok part.events := by
  have held : ∀ lower ∈ part.parts, lower.IsHeld tree := fun lower isLower =>
    represents.isHeld lower (Outline.parts_subset isPart isLower)
  rw [Program.outline, Outline.parts_node] at isPart
  rcases List.mem_cons.mp isPart with rfl | below
  · have walk := represents.events small
    have nonempty : ¬ tree.nodes.isEmpty := by
      rw [Array.isEmpty_iff_size_eq_zero]
      exact Nat.ne_of_gt (Nat.zero_lt_of_lt (represents.rooted small).nonempty)
    rwa [Tree.events, if_neg nonempty, ← represents.held.root, ← program.events_outline] at walk
  · obtain ⟨_, isList, isPart⟩ := List.mem_flatten.mp below
    obtain ⟨_, isOutline, rfl⟩ := List.mem_map.mp isList
    obtain ⟨statement, isStatement, rfl⟩ := List.mem_map.mp isOutline
    obtain ⟨_, _, -, lastLe, numbered⟩ :=
      represents.numbered.exists_of_mem_flatten (List.mem_map_of_mem isStatement)
    rw [← statement.labels_outline] at numbered
    obtain ⟨_, _, partLe, partNumbered⟩ := Outline.exists_numbered numbered isPart
    exact Outline.eventsWithin_eq small held partNumbered (by omega)

end Tree

/-- The outermost node of the outline is in the tree, with its children, which are of the
kinds that it admits, and with a main token that can be located. -/
structure Outline.Stands (tree : Tree) (outline : Outline Mark) : Prop where
  present : ∃ left right,
    tree.nodes[outline.label.node]? = some ⟨outline.tag, outline.label.token, left, right⟩
  children : tree.children outline.label.node = .ok (outline.children.map (·.label.node))
  fits : outline.Fits
  located : tree.Locates outline.label

theorem Outline.Stands.tag?_eq
    {tree : Tree}
    {outline : Outline Mark}
    (stands : outline.Stands tree) :
    tree.tag? outline.label.node = some outline.tag := by
  obtain ⟨left, right, present⟩ := stands.present
  rw [Tree.tag?, present]
  rfl

/-- All parts of a program that can be read stand in its tree. -/
theorem Tree.Legible.stands
    {tree : Tree}
    {program : Program Mark}
    (legible : tree.Legible program) :
    ∀ part ∈ program.outline.parts, part.Stands tree := by
  intro part isPart
  have held := legible.represents.isHeld part isPart
  exact
    { present := held.present
      children := held.children fun _ => legible.small
      fits := program.fits_outline part isPart
      located := legible.located _ (Program.label_mem_labels isPart) }

end Frontend
