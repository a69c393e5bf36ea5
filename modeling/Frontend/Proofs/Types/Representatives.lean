import Frontend.Types.Partition

/-!
# Representatives

A partition is a forest that is shortened while it is read, with holes for the
types that nobody mentioned. From outside it is a table with the representative of
every type, in which a merger replaces one representative by another wherever it
stands. A call to the partition is a call to that table (`Partition.perform_root`),
and so is a sequence of calls.

The ways through the forest are followed by counting steps. `Parents.Climbs` and
`Parents.Flattens` say where the two loops lead that do not count, and therefore
that they end: both are inductive, so that a way around would have no derivation.
-/

namespace Frontend

/-! ## The two loops -/

namespace Parents

/-- From this type the way up leads to that one: as long as another type is written
as the parent, go there. -/
inductive Climbs (parents : Parents) : TypeId -> TypeId -> Prop
  | arrived {id : TypeId} :
      (∀ next, parents.written? id = some next -> next = id) ->
      Climbs parents id id
  | step {id next top : TypeId} :
      parents.written? id = some next ->
      next ≠ id ->
      Climbs parents next top ->
      Climbs parents id top

/-- Writing `top` at every place on the way from this type to it turns the first
array into the last one: read the parent, overwrite it, and go to the one read. -/
inductive Flattens (top : TypeId) : Parents -> TypeId -> Parents -> Prop
  | arrived {parents : Parents} :
      Flattens top parents top parents
  | step {parents last : Parents} {id next : TypeId} (inside : id < parents.size) :
      id ≠ top ->
      parents.written? id = some next ->
      Flattens top (parents.set id (some top) inside) next last ->
      Flattens top parents id last

/-- A parent that is another type has been written. -/
theorem written?_of_parent_ne
    {parents : Parents}
    {id : TypeId}
    (moves : parents.parent id ≠ id) :
    parents.written? id = some (parents.parent id) := by
  obtain ⟨next, written⟩ := Option.isSome_iff_exists.mp (isSome_of_parent_ne moves)
  rw [parent, written]
  rfl

/-- There is no way up from a type that is its own parent. -/
theorem Climbs.refl
    {parents : Parents}
    {id : TypeId}
    (fixed : parents.parent id = id) :
    parents.Climbs id id := by
  refine .arrived fun next written => ?_
  rwa [parent, written] at fixed

/-- The loop comes to the same type as counting, if the count is not below the
height. -/
theorem climbs_ascend
    {parents : Parents}
    {height : TypeId -> Nat}
    (decreasing : ∀ id, parents.parent id ≠ id -> height (parents.parent id) < height id)
    (steps : Nat)
    (id : TypeId)
    (enough : height id ≤ steps) :
    parents.Climbs id (ascend parents.parent steps id) := by
  induction steps generalizing id with
  | zero => exact .refl (Grounded.parent_eq_of_height_le_zero decreasing enough)
  | succ steps ih =>
      by_cases fixed : parents.parent id = id
      · rw [ascend_of_parent_eq fixed]
        exact .refl fixed
      · have smaller := decreasing id fixed
        have climbs := ih (parents.parent id) (by omega)
        simp only [ascend, fixed, if_false]
        exact .step (written?_of_parent_ne fixed) fixed climbs

end Parents

namespace Partition

variable (partition : Partition)

/-- The way up from every type ends, at its representative. -/
theorem climbs_root (id : TypeId) :
    partition.parents.Climbs id (partition.root id) := by
  obtain ⟨height, heights⟩ := partition.grounded
  exact Parents.climbs_ascend (fun id => (heights id).2.2) partition.mergers id
    (heights id).1

/-- The loop writes the same as counting, if the count is not below the height. What
has been written leaves every height as it was. -/
theorem flattens_compress
    {height : TypeId -> Nat}
    (decreasing : ∀ id, partition.parent id ≠ id -> height (partition.parent id) < height id)
    (representative : TypeId)
    (steps : Nat)
    (id : TypeId)
    (enough : height id ≤ steps)
    (represents : partition.root id = representative) :
    partition.parents.Flattens representative id
      (compress representative steps partition id represents).parents := by
  induction steps generalizing partition id with
  | zero =>
      have fixed : partition.parent id = id :=
        Grounded.parent_eq_of_height_le_zero decreasing enough
      have same : id = representative :=
        (ascend_of_parent_eq fixed partition.mergers).symm.trans represents
      subst same
      exact .arrived
  | succ steps ih =>
      rw [compress]
      split
      · next arrived =>
          subst arrived
          exact .arrived
      · next different =>
          have unfixed : partition.parent id ≠ id := fun fixed =>
            different ((ascend_of_parent_eq fixed partition.mergers).symm.trans represents)
          have smaller := decreasing id unfixed
          have mentioned : partition.Mentions id := Parents.isSome_of_parent_ne unfixed
          -- The way goes on from the parent that was read before it was overwritten.
          refine .step mentioned.lt_size different (Parents.written?_of_parent_ne unfixed) ?_
          refine ih (partition.shorten id representative represents different)
            ?_ (partition.parent id) (by omega) _
          rw [parent_shorten]
          exact Grounded.height_redirect_lt decreasing partition.mergers id

/-- The loop of a look-up ends, and leaves what the look-up leaves. -/
theorem flattens_find (id : TypeId) :
    (partition.parents.mention id).Flattens (partition.root id) id
      (partition.find id).2.parents := by
  obtain ⟨height, heights⟩ := (partition.insert id).grounded
  exact flattens_compress (partition.insert id) (fun id => (heights id).2.2) _ _ id
    (heights id).1 _

/-! ## Calls and their answers -/

/-- A call to a partition. -/
inductive Call where
  | insert (id : TypeId)
  | find (id : TypeId)
  | root (id : TypeId)
  | union (source target : TypeId)
  | sameSet (left right : TypeId)

/-- What is answered to a call. -/
inductive Answer where
  | done
  | representative (id : TypeId)
  | same (verdict : Bool)
  deriving DecidableEq

namespace Call

/-- The types that a call mentions. -/
def types : Call -> List TypeId
  | insert id | find id | root id => [id]
  | union first second | sameSet first second => [first, second]

/-- The answers to all calls, and what they lead to. -/
def run {State : Type} (perform : State -> Call -> Answer × State) (state : State) :
    List Call -> List Answer × State
  | [] => ([], state)
  | call :: calls =>
      let (answer, next) := perform state call
      let (answers, last) := run perform next calls
      (answer :: answers, last)

end Call

/-- Answer a call. -/
def perform : Call -> Answer × Partition
  | .insert id => (.done, partition.insert id)
  | .find id => (.representative (partition.find id).1, (partition.find id).2)
  | .root id => (.representative (partition.root id), partition)
  | .union source target => (.done, partition.union source target)
  | .sameSet left right =>
      (.same (partition.sameSet left right).1, (partition.sameSet left right).2)

/-- The representative of every type. -/
abbrev Table := TypeId -> TypeId

/-- Every type represents itself at first. -/
def Table.start : Table := fun id => id

/-- Answer a call from a table. Only a merger changes it: whoever had the
representative of the first type gets that of the second. -/
def Table.perform (table : Table) : Call -> Answer × Table
  | .insert _ => (.done, table)
  | .find id | .root id => (.representative (table id), table)
  | .union source target =>
      (.done, fun id => if table id = table source then table target else table id)
  | .sameSet left right => (.same (table left = table right), table)

/-- A question whether two types are in one set changes no representative. -/
theorem root_sameSet (left right other : TypeId) :
    (partition.sameSet left right).2.root other = partition.root other := by
  simp [sameSet]

/-- Two types are in one set if they have the same representative. -/
theorem sameSet_fst (left right : TypeId) :
    (partition.sameSet left right).1 = decide (partition.root left = partition.root right) := by
  simp [sameSet]

/-- A call to a partition is a call to the table of its representatives. -/
theorem perform_root (call : Call) :
    Table.perform partition.root call =
      ((partition.perform call).1, (partition.perform call).2.root) := by
  cases call with
  | insert id => simp [Table.perform, perform, funext (partition.root_insert id)]
  | find id => simp [Table.perform, perform, funext (partition.root_find id)]
  | root id => rfl
  | union source target =>
      simp [Table.perform, perform, funext (partition.root_union source target)]
  | sameSet left right =>
      simp [Table.perform, perform, sameSet_fst, funext (partition.root_sameSet left right)]

/-- So is a sequence of calls. -/
theorem run_root (calls : List Call) :
    Call.run Table.perform partition.root calls =
      ((Call.run perform partition calls).1, (Call.run perform partition calls).2.root) := by
  induction calls generalizing partition with
  | nil => rfl
  | cons call calls ih =>
      simp only [Call.run, perform_root, ih]

/-- A type that a call does not mention keeps its set to itself. -/
theorem Table.perform_alone
    {table : Table}
    {id : TypeId}
    (alone : ∀ other, table other = id ↔ other = id)
    {call : Call}
    (unmentioned : id ∉ call.types)
    (other : TypeId) :
    (Table.perform table call).2 other = id ↔ other = id := by
  cases call with
  | insert | find | root | sameSet => exact alone other
  | union source target =>
      -- Neither set of the merger is that of the type, which has no other member.
      simp only [Call.types, List.mem_cons, List.not_mem_nil, or_false, not_or] at unmentioned
      have sourceElsewhere : table source ≠ id := fun same =>
        unmentioned.1 ((alone source).mp same).symm
      have targetElsewhere : table target ≠ id := fun same =>
        unmentioned.2 ((alone target).mp same).symm
      simp only [Table.perform]
      split
      · next joins =>
          refine ⟨fun same => absurd same targetElsewhere, fun same => ?_⟩
          exact absurd (joins.symm.trans ((alone other).mpr same)) sourceElsewhere
      · exact alone other

/-- A type that no call mentions keeps its set to itself. -/
theorem Table.run_alone
    {table : Table}
    {id : TypeId}
    (alone : ∀ other, table other = id ↔ other = id)
    {calls : List Call}
    (unmentioned : ∀ call ∈ calls, id ∉ call.types)
    (other : TypeId) :
    (Call.run Table.perform table calls).2 other = id ↔ other = id := by
  induction calls generalizing table with
  | nil => exact alone other
  | cons call calls ih =>
      exact ih (perform_alone alone (unmentioned call (by simp)))
        fun later mem => unmentioned later (by simp [mem])

/-- From outside the partition is this table, and its two loops come to an end. -/
structure Shows (partition : Partition) (table : Table) : Prop where
  root : ∀ id, partition.root id = table id
  find : ∀ id, (partition.find id).1 = table id
  sameSet : ∀ left right, (partition.sameSet left right).1 = true ↔ table left = table right
  insertKeeps : ∀ id, (partition.insert id).root = partition.root
  findKeeps : ∀ id, (partition.find id).2.root = partition.root
  sameSetKeeps : ∀ left right, (partition.sameSet left right).2.root = partition.root
  climbs : ∀ id, partition.parents.Climbs id (partition.root id)
  flattens : ∀ id,
    (partition.parents.mention id).Flattens (partition.root id) id
      (partition.find id).2.parents

/-- Every partition shows the table of its representatives. -/
theorem shows_root : partition.Shows partition.root where
  root _ := rfl
  find _ := rfl
  sameSet left right := by rw [sameSet_fst, decide_eq_true_eq]
  insertKeeps id := funext (partition.root_insert id)
  findKeeps id := funext (partition.root_find id)
  sameSetKeeps left right := funext (partition.root_sameSet left right)
  climbs := partition.climbs_root
  flattens := partition.flattens_find

/-- Every sequence of calls, from the start, is answered as by a table in which every
type represents itself at first. Whoever is in no call represents itself for good. -/
theorem answers_as_table (calls : List Call) :
    (Call.run perform empty calls).1 = (Call.run Table.perform .start calls).1 ∧
      (Call.run perform empty calls).2.Shows (Call.run Table.perform .start calls).2 ∧
      ∀ id, (∀ call ∈ calls, id ∉ call.types) ->
        (Call.run perform empty calls).2.root id = id := by
  have simulates : Call.run Table.perform .start calls = _ := empty.run_root calls
  have alone : ∀ id other, Table.start other = id ↔ other = id := fun _ _ => Iff.rfl
  refine ⟨by rw [simulates], by rw [simulates]; exact shows_root _,
    fun id unmentioned => ?_⟩
  have last := Table.run_alone (alone id) unmentioned id
  rw [simulates] at last
  exact last.mpr rfl

/-- With a hole at the third type. -/
theorem answers_as_table_chain :
    (Call.run perform empty [.union 0 1, .root 4, .union 1 3, .find 0, .sameSet 1 4]).1 =
        [.done, .representative 4, .done, .representative 3, .same false] ∧
      (Call.run perform empty [.union 0 1, .root 4, .union 1 3, .find 0, .sameSet 1 4]).2.root 2 =
        2 := by
  obtain ⟨answers, -, alone⟩ :=
    answers_as_table [.union 0 1, .root 4, .union 1 3, .find 0, .sameSet 1 4]
  refine ⟨?_, alone 2 ?_⟩
  · rw [answers]
    decide
  · simp [Call.types]

end Partition

end Frontend
