import Frontend.Types.Base

/-!
# Forests

A function that gives every type a parent is a forest if every way from parent
to parent comes to an end, at a type that is its own parent. Such a type is the
representative of all types below it.

The bound on the length of all ways is kept with the forest, so that `ascend`
finds a representative by counting steps. Two changes keep a forest a forest:
`Grounded.shorten` lets a type point directly at its representative, and
`Grounded.link` lets a representative point at another one.
-/

namespace Frontend

/-- The parents form a forest in which no way up has more than `bound` steps: a
height is lost at each step, and nothing of it is left at a representative. -/
def Grounded (parent : TypeId -> TypeId) (bound : Nat) : Prop :=
  ∃ height : TypeId -> Nat, ∀ id,
    height id ≤ bound ∧
      (parent id = id -> height id = 0) ∧
      (parent id ≠ id -> height (parent id) < height id)

/-- Go from parent to parent, up to a representative or for this many steps. -/
def ascend (parent : TypeId -> TypeId) : Nat -> TypeId -> TypeId
  | 0, id => id
  | steps + 1, id =>
      let next := parent id
      if next = id then id else ascend parent steps next

/-- The parents with one of them changed. -/
def redirect (parent : TypeId -> TypeId) (id target other : TypeId) : TypeId :=
  if other = id then target else parent other

/-- A representative is at the end of its way. -/
theorem ascend_of_parent_eq
    {parent : TypeId -> TypeId}
    {id : TypeId}
    (fixed : parent id = id)
    (steps : Nat) :
    ascend parent steps id = id := by
  cases steps <;> simp [ascend, fixed]

namespace Grounded

variable {parent : TypeId -> TypeId} {bound : Nat}

/-- With every type as its own parent there is no way to go. -/
theorem refl : Grounded (fun id => id) 0 :=
  ⟨fun _ => 0, by simp⟩

/-- A type without height is its own parent. -/
theorem parent_eq_of_height_le_zero
    {height : TypeId -> Nat}
    (decreasing : ∀ id, parent id ≠ id -> height (parent id) < height id)
    {id : TypeId}
    (low : height id ≤ 0) :
    parent id = id := by
  refine Decidable.byContradiction fun moves => ?_
  have := decreasing id moves
  omega

/-- As many steps as the height lead to a representative. -/
theorem parent_ascend_of_height_le
    {height : TypeId -> Nat}
    (decreasing : ∀ id, parent id ≠ id -> height (parent id) < height id)
    (steps : Nat)
    (id : TypeId)
    (enough : height id ≤ steps) :
    parent (ascend parent steps id) = ascend parent steps id := by
  induction steps generalizing id with
  | zero => exact parent_eq_of_height_le_zero decreasing enough
  | succ steps ih =>
      by_cases fixed : parent id = id
      · simp [ascend, fixed]
      · have smaller := decreasing id fixed
        simpa [ascend, fixed] using
          ih (parent id) (by omega)

/-- No way leads to anything higher than its start. -/
theorem height_ascend_le
    {height : TypeId -> Nat}
    (decreasing : ∀ id, parent id ≠ id -> height (parent id) < height id)
    (steps : Nat)
    (id : TypeId) :
    height (ascend parent steps id) ≤ height id := by
  induction steps generalizing id with
  | zero => simp [ascend]
  | succ steps ih =>
      by_cases fixed : parent id = id
      · simp [ascend, fixed]
      · have smaller := decreasing id fixed
        have := ih (parent id)
        simp only [ascend, fixed, if_false]
        omega

/-- A way that leads anywhere leads down in height. -/
theorem height_ascend_lt
    {height : TypeId -> Nat}
    (decreasing : ∀ id, parent id ≠ id -> height (parent id) < height id)
    {steps : Nat}
    {id : TypeId}
    (moves : ascend parent steps id ≠ id) :
    height (ascend parent steps id) < height id := by
  have unfixed : parent id ≠ id := fun fixed => moves (ascend_of_parent_eq fixed steps)
  cases steps with
  | zero => exact absurd rfl moves
  | succ steps =>
      have smaller := decreasing id unfixed
      have lower := height_ascend_le decreasing steps (parent id)
      simp only [ascend, unfixed, if_false]
      omega

/-- The end of a way is a representative. -/
theorem parent_ascend (grounded : Grounded parent bound) (id : TypeId) :
    parent (ascend parent bound id) = ascend parent bound id := by
  obtain ⟨height, heights⟩ := grounded
  exact parent_ascend_of_height_le (fun id => (heights id).2.2) bound id
    (heights id).1

/-- Finding representatives is the only function that leaves them where they are
and does not tell a type from its parent. -/
theorem eq_ascend
    (grounded : Grounded parent bound)
    (target : TypeId -> TypeId)
    (keeps : ∀ id, parent id = id -> target id = id)
    (follows : ∀ id, target (parent id) = target id)
    (id : TypeId) :
    target id = ascend parent bound id := by
  have along : ∀ steps id, target (ascend parent steps id) = target id := by
    intro steps
    induction steps with
    | zero => simp [ascend]
    | succ steps ih =>
        intro id
        by_cases fixed : parent id = id
        · simp [ascend, fixed]
        · simp [ascend, fixed, ih, follows]
  rw [← along bound id]
  exact keeps _ (grounded.parent_ascend id)

/-- A type and its parent have the same representative. -/
theorem ascend_parent (grounded : Grounded parent bound) (id : TypeId) :
    ascend parent bound (parent id) = ascend parent bound id := by
  obtain ⟨height, heights⟩ := grounded
  have enough : ∀ steps id, height id ≤ steps ->
      ascend parent (steps + 1) id = ascend parent steps id := by
    intro steps
    induction steps with
    | zero =>
        intro id low
        have fixed := parent_eq_of_height_le_zero (fun id => (heights id).2.2) low
        simp [ascend, fixed]
    | succ steps ih =>
        intro id low
        by_cases fixed : parent id = id
        · simp [ascend, fixed]
        · have smaller := (heights id).2.2 fixed
          have := ih (parent id) (by omega)
          rw [ascend]
          simp only [fixed, if_false, this]
          simp [ascend, fixed]
  by_cases fixed : parent id = id
  · rw [fixed]
  · rw [← enough bound id (heights id).1]
    simp [ascend, fixed]

/-- A representative represents itself. -/
theorem ascend_ascend (grounded : Grounded parent bound) (id : TypeId) :
    ascend parent bound (ascend parent bound id) = ascend parent bound id :=
  ascend_of_parent_eq (grounded.parent_ascend id) bound

/-- Whoever points directly at the end of its way still points down in height. -/
theorem height_redirect_lt
    {height : TypeId -> Nat}
    (decreasing : ∀ id, parent id ≠ id -> height (parent id) < height id)
    (steps : Nat)
    (id other : TypeId)
    (moves : redirect parent id (ascend parent steps id) other ≠ other) :
    height (redirect parent id (ascend parent steps id) other) < height other := by
  by_cases same : other = id
  · subst same
    simp only [redirect, if_true] at moves ⊢
    exact height_ascend_lt decreasing moves
  · simp only [redirect, same, if_false] at moves ⊢
    exact decreasing other moves

/-- A type may point directly at its representative. -/
theorem shorten (grounded : Grounded parent bound) (id : TypeId) :
    Grounded (redirect parent id (ascend parent bound id)) bound := by
  have atEnd := grounded.parent_ascend id
  obtain ⟨height, heights⟩ := grounded
  refine ⟨height, fun other => ⟨(heights other).1, fun fixed => ?_,
    height_redirect_lt (fun id => (heights id).2.2) bound id other⟩⟩
  by_cases same : other = id
  · subst same
    have represents : ascend parent bound other = other := by
      simpa [redirect] using fixed
    rw [represents] at atEnd
    exact (heights other).2.1 atEnd
  · exact (heights other).2.1 (by simpa [redirect, same] using fixed)

/-- Pointing directly at a representative changes no representative. -/
theorem ascend_shorten
    (grounded : Grounded parent bound)
    (id other : TypeId) :
    ascend (redirect parent id (ascend parent bound id)) bound other =
      ascend parent bound other := by
  refine ((grounded.shorten id).eq_ascend (ascend parent bound) ?_ ?_ other).symm
  · intro other fixed
    by_cases same : other = id
    · simpa [redirect, same] using fixed
    · exact ascend_of_parent_eq (by simpa [redirect, same] using fixed) bound
  · intro other
    by_cases same : other = id
    · simp [redirect, same, grounded.ascend_ascend]
    · simp [redirect, same, grounded.ascend_parent]

/-- A representative may point at another one. -/
theorem link
    (grounded : Grounded parent bound)
    {source target : TypeId}
    (sourceFixed : parent source = source)
    (targetFixed : parent target = target)
    (different : source ≠ target) :
    Grounded (redirect parent source target) (bound + 1) := by
  have sameEnd := grounded.ascend_parent
  obtain ⟨height, heights⟩ := grounded
  refine ⟨fun id =>
    if ascend parent bound id = source then height id + 1 else height id, fun id => ?_⟩
  have bounded := (heights id).1
  have targetEnd := ascend_of_parent_eq targetFixed bound
  by_cases same : id = source
  · subst same
    have low := (heights target).2.1 targetFixed
    simp [redirect, targetEnd, different.symm, ascend_of_parent_eq sourceFixed, low]
    omega
  · simp only [redirect, same, if_false, sameEnd]
    refine ⟨by split <;> omega, fun fixed => ?_, fun moves => ?_⟩
    · simp [ascend_of_parent_eq fixed, same, (heights id).2.1 fixed]
    · have smaller := (heights id).2.2 moves
      split <;> omega

/-- After one representative points at another, that one stands for both. -/
theorem ascend_link
    (grounded : Grounded parent bound)
    {source target : TypeId}
    (sourceFixed : parent source = source)
    (targetFixed : parent target = target)
    (different : source ≠ target)
    (id : TypeId) :
    ascend (redirect parent source target) (bound + 1) id =
      if ascend parent bound id = source then target else ascend parent bound id := by
  refine ((grounded.link sourceFixed targetFixed different).eq_ascend
    (fun id =>
      if ascend parent bound id = source then target else ascend parent bound id)
    ?_ ?_ id).symm
  · intro id fixed
    by_cases same : id = source
    · simp [redirect, same, different.symm] at fixed
    · have unmoved : parent id = id := by simpa [redirect, same] using fixed
      simp [ascend_of_parent_eq unmoved, same]
  · intro id
    by_cases same : id = source
    · simp [redirect, same, ascend_of_parent_eq sourceFixed,
        ascend_of_parent_eq targetFixed]
    · simp [redirect, same, grounded.ascend_parent]

end Grounded

end Frontend
