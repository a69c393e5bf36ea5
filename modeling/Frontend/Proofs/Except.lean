import Mathlib.Data.List.Forall2

/-!
# Computations that may fail

A sequence of computations succeeds if each of them does.
-/

namespace Frontend

/-- A computation that goes on from another one succeeds if both do. -/
theorem exists_of_bind_eq_ok
    {Failure Value Result : Type}
    {first : Except Failure Value}
    {next : Value -> Except Failure Result}
    {result : Result}
    (computed : first >>= next = .ok result) :
    ∃ value, first = .ok value ∧ next value = .ok result := by
  cases first with
  | error failure => cases computed
  | ok value => exact ⟨value, rfl, computed⟩

/-- A computation of which only the result is changed fails if the computation does. -/
theorem eq_error_of_bind_pure
    {Failure Value Result : Type}
    {first : Except Failure Value}
    {change : Value -> Result}
    {failure : Failure}
    (failed : (first >>= fun value => pure (change value)) = .error failure) :
    first = .error failure := by
  cases first with
  | error other =>
      cases failed
      rfl
  | ok value => cases failed

/-- A computation on the items of a list succeeds if it does on each of them. -/
theorem mapM_eq_ok
    {Failure Item Result : Type}
    {compute : Item -> Except Failure Result}
    {result : Item -> Result}
    {items : List Item}
    (computed : ∀ item ∈ items, compute item = .ok (result item)) :
    items.mapM compute = .ok (items.map result) := by
  induction items with
  | nil => rfl
  | cons item items ih =>
      rw [List.mapM_cons, computed item (by simp),
        ih fun item member => computed item (by simp [member])]
      rfl

/-- A computation on views of the items of a list succeeds if it does on each of
them. -/
theorem mapM_map_eq_ok
    {Failure Item View Result : Type}
    {view : Item -> View}
    {compute : View -> Except Failure Result}
    {result : Item -> Result}
    {items : List Item}
    (computed : ∀ item ∈ items, compute (view item) = .ok (result item)) :
    (items.map view).mapM compute = .ok (items.map result) := by
  rw [List.mapM_map]
  exact mapM_eq_ok computed

/-- A computation on the items of a list has results if it has one on each of them. -/
theorem exists_mapM_eq_ok
    {Failure Item Result : Type}
    {compute : Item -> Except Failure Result}
    {items : List Item}
    (computed : ∀ item ∈ items, ∃ result, compute item = .ok result) :
    ∃ results, items.mapM compute = .ok results := by
  induction items with
  | nil => exact ⟨[], rfl⟩
  | cons item items ih =>
      obtain ⟨result, first⟩ := computed item (by simp)
      obtain ⟨results, rest⟩ :=
        ih fun item member => computed item (by simp [member])
      rw [List.mapM_cons, first, rest]
      exact ⟨result :: results, rfl⟩

/-- A computation on the items of a list has just the results that it has on each of
them. -/
theorem mapM_eq_ok_iff
    {Failure Item Result : Type}
    {compute : Item -> Except Failure Result}
    {items : List Item}
    {results : List Result} :
    items.mapM compute = .ok results ↔
      List.Forall₂ (fun item result => compute item = .ok result) items results := by
  induction items generalizing results with
  | nil =>
      rw [List.mapM_nil, List.forall₂_nil_left_iff]
      exact ⟨fun same => (Except.ok.inj same).symm, fun same => same ▸ rfl⟩
  | cons item items ih =>
      rw [List.mapM_cons, List.forall₂_cons_left_iff]
      constructor
      · intro computed
        obtain ⟨result, first, computed⟩ := exists_of_bind_eq_ok computed
        obtain ⟨rest, others, computed⟩ := exists_of_bind_eq_ok computed
        cases computed
        exact ⟨result, rest, first, ih.mp others, rfl⟩
      · rintro ⟨result, rest, first, others, rfl⟩
        rw [first, ih.mpr others]
        rfl

/-- What each step of a fold preserves and never fails with, the whole fold does. The
property may speak of the items that the fold has passed. -/
theorem exists_foldlM_eq_ok
    {Failure State Item : Type}
    {step : State -> Item -> Except Failure State}
    {items : List Item}
    (Holds : List Item -> State -> Prop)
    (steps : ∀ passed item rest state, passed ++ item :: rest = items ->
      Holds passed state -> ∃ next, step state item = .ok next ∧ Holds (passed ++ [item]) next)
    {start : State}
    (initial : Holds [] start) :
    ∃ result, items.foldlM step start = .ok result ∧ Holds items result := by
  suffices fromHere : ∀ rest passed state, passed ++ rest = items -> Holds passed state ->
      ∃ result, rest.foldlM step state = .ok result ∧ Holds items result from
    fromHere items [] start rfl initial
  intro rest
  induction rest with
  | nil =>
      intro passed state whole holds
      rw [List.append_nil] at whole
      exact ⟨state, rfl, whole ▸ holds⟩
  | cons item rest ih =>
      intro passed state whole holds
      obtain ⟨next, stepped, nextHolds⟩ := steps passed item rest state whole holds
      obtain ⟨result, folded, resultHolds⟩ :=
        ih (passed ++ [item]) next (by simp [whole]) nextHolds
      refine ⟨result, ?_, resultHolds⟩
      rw [List.foldlM_cons, stepped]
      exact folded

/-- What each successful step of a fold preserves, a successful fold does. -/
theorem foldlM_preserves
    {Failure State Item : Type}
    {step : State -> Item -> Except Failure State}
    {Holds : State -> Prop}
    {items : List Item}
    (steps : ∀ {state item next},
      item ∈ items -> Holds state -> step state item = .ok next -> Holds next)
    {start result : State}
    (initial : Holds start)
    (folded : items.foldlM step start = .ok result) :
    Holds result := by
  induction items generalizing start with
  | nil =>
      cases folded
      exact initial
  | cons item items ih =>
      rw [List.foldlM_cons] at folded
      obtain ⟨next, stepped, folded⟩ := exists_of_bind_eq_ok folded
      exact ih (fun member => steps (List.mem_cons_of_mem _ member))
        (steps List.mem_cons_self initial stepped) folded

/-! ## Computations side by side -/

/-- Two computations succeed with related results, or fail in the same way. -/
inductive SameResult
    {Failure Value Other : Type}
    (Related : Value -> Other -> Prop) :
    Except Failure Value -> Except Failure Other -> Prop
  | ok
      {value : Value}
      {other : Other}
      (related : Related value other) :
      SameResult Related (.ok value) (.ok other)
  | error (failure : Failure) : SameResult Related (.error failure) (.error failure)

namespace SameResult

variable
  {Failure Value Other Result Later : Type}
  {Related : Value -> Other -> Prop}
  {Follows : Result -> Later -> Prop}
  {first : Except Failure Value}
  {second : Except Failure Other}

theorem refl (computation : Except Failure Value) : SameResult Eq computation computation := by
  cases computation with
  | ok value => exact .ok rfl
  | error failure => exact .error failure

theorem mono
    {Weaker : Value -> Other -> Prop}
    (same : SameResult Related first second)
    (weaker : ∀ value other, Related value other -> Weaker value other) :
    SameResult Weaker first second := by
  cases same with
  | ok related => exact .ok (weaker _ _ related)
  | error failure => exact .error failure

theorem bind
    (same : SameResult Related first second)
    {next : Value -> Except Failure Result}
    {nextOther : Other -> Except Failure Later}
    (goesOn : ∀ value other, Related value other ->
      SameResult Follows (next value) (nextOther other)) :
    SameResult Follows (first >>= next) (second >>= nextOther) := by
  cases same with
  | ok related => exact goesOn _ _ related
  | error failure => exact .error failure

theorem exists_ok
    (same : SameResult Related first second)
    {value : Value}
    (succeeds : first = .ok value) :
    ∃ other, second = .ok other ∧ Related value other := by
  cases same with
  | ok related =>
      cases succeeds
      exact ⟨_, rfl, related⟩
  | error failure => cases succeeds

/-- What each step of two folds keeps related, the folds do. -/
theorem foldlM
    {Item : Type}
    {items : List Item}
    {step : Value -> Item -> Except Failure Value}
    {stepOther : Other -> Item -> Except Failure Other}
    (steps : ∀ item ∈ items, ∀ value other, Related value other ->
      SameResult Related (step value item) (stepOther other item))
    {start : Value}
    {startOther : Other}
    (initial : Related start startOther) :
    SameResult Related (items.foldlM step start) (items.foldlM stepOther startOther) := by
  induction items generalizing start startOther with
  | nil => exact .ok initial
  | cons item items ih =>
      rw [List.foldlM_cons, List.foldlM_cons]
      refine (steps item (by simp) _ _ initial).bind fun value other related => ?_
      exact ih (fun item member => steps item (by simp [member])) related

end SameResult

end Frontend
