import Frontend.Proofs.Syntax.Holding

/-!
# Numbering

The nodes of a phrase are numbered one by one, each after those of its children. A
tree represents a program if the numbers of its phrases take up the whole tree.
-/

namespace Frontend

/-- The marks are those of the nodes from `start` up to `stop`, in order. -/
def Numbered (start stop : Nat) (marks : List Mark) : Prop :=
  start + marks.length = stop ∧ marks.map Mark.node = List.range' start marks.length

namespace Numbered

variable {start middle stop : Nat} {marks others : List Mark}

theorem nil (start : Nat) : Numbered start start [] :=
  ⟨rfl, rfl⟩

theorem singleton (node : NodeId) (token : TokenId) :
    Numbered node (node + 1) [⟨node, token⟩] :=
  ⟨rfl, rfl⟩

theorem append (first : Numbered start middle marks) (second : Numbered middle stop others) :
    Numbered start stop (marks ++ others) := by
  refine ⟨?_, ?_⟩
  · rw [List.length_append, ← second.1, ← first.1, Nat.add_assoc]
  · rw [List.map_append, first.2, second.2, List.length_append, ← List.range'_append_1,
      first.1]

/-- A number is counted for each mark on the way. -/
theorem of_append (numbered : Numbered start stop (marks ++ others)) :
    ∃ middle, Numbered start middle marks ∧ Numbered middle stop others := by
  obtain ⟨total, numbers⟩ := numbered
  rw [List.length_append] at total numbers
  rw [List.map_append, ← List.range'_append_1] at numbers
  obtain ⟨first, second⟩ := List.append_inj numbers (by simp)
  exact ⟨start + marks.length, ⟨rfl, first⟩, by omega, second⟩

theorem of_singleton {mark : Mark} (numbered : Numbered start stop [mark]) :
    mark.node = start ∧ start + 1 = stop := by
  obtain ⟨total, numbers⟩ := numbered
  exact ⟨by simpa using numbers, total⟩

theorem of_cons {mark : Mark} (numbered : Numbered start stop (mark :: marks)) :
    mark.node = start ∧ Numbered (start + 1) stop marks := by
  obtain ⟨middle, first, rest⟩ := @of_append start stop [mark] marks numbered
  obtain ⟨same, rfl⟩ := first.of_singleton
  exact ⟨same, rest⟩

/-- The last mark is the one before `stop`. -/
theorem of_concat {mark : Mark} (numbered : Numbered start stop (marks ++ [mark])) :
    Numbered start mark.node marks ∧ mark.node + 1 = stop := by
  obtain ⟨middle, first, last⟩ := numbered.of_append
  obtain ⟨same, next⟩ := last.of_singleton
  rw [same]
  exact ⟨first, next⟩

theorem le (numbered : Numbered start stop marks) : start ≤ stop := by
  rw [← numbered.1]
  exact Nat.le_add_right _ _

/-- The marks of a list of phrases go on from phrase to phrase. -/
theorem exists_of_mem_flatten
    {lists : List (List Mark)}
    (numbered : Numbered start stop lists.flatten)
    {list : List Mark}
    (member : list ∈ lists) :
    ∃ first last, start ≤ first ∧ last ≤ stop ∧ Numbered first last list := by
  induction lists generalizing start with
  | nil => cases member
  | cons head rest ih =>
      obtain ⟨middle, headNumbered, restNumbered⟩ := of_append numbered
      rcases List.mem_cons.mp member with rfl | member
      · exact ⟨start, middle, Nat.le_refl _, restNumbered.le, headNumbered⟩
      · obtain ⟨first, last, above, below, listNumbered⟩ :=
          ih restNumbered member
        exact ⟨first, last, Nat.le_trans headNumbered.le above, below, listNumbered⟩

theorem bounds
    (numbered : Numbered start stop marks)
    {mark : Mark}
    (member : mark ∈ marks) :
    start ≤ mark.node ∧ mark.node < stop := by
  have inside : mark.node ∈ marks.map Mark.node := List.mem_map_of_mem member
  rw [numbered.2, List.mem_range'_1, numbered.1] at inside
  exact inside

/-- Each number between the bounds belongs to one of the marks. -/
theorem exists_mem
    (numbered : Numbered start stop marks)
    {id : NodeId}
    (above : start ≤ id)
    (below : id < stop) :
    ∃ mark ∈ marks, mark.node = id := by
  have inside : id ∈ marks.map Mark.node := by
    rw [numbered.2, List.mem_range'_1, numbered.1]
    exact ⟨above, below⟩
  exact List.mem_map.mp inside

theorem nodup (numbered : Numbered start stop marks) : (marks.map Mark.node).Nodup := by
  rw [numbered.2]
  exact List.nodup_range'

end Numbered

/-- A tree holds a program and nothing else. -/
structure Tree.Represents (tree : Tree) (program : Program Mark) : Prop where
  held : program.Holds tree.nodes tree.extra
  numbered : Numbered (Tree.root + 1) tree.nodes.size
    (program.statements.map (·.labels)).flatten

end Frontend
