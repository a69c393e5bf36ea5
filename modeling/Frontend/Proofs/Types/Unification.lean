import Mathlib
import Frontend.Proofs.Types.WellFormed

/-!
# Unification

Unification adds one equation to a type graph, and no other: the solutions of the
new graph are those of the old one that give the two types one tree. It fails only
if there is no such solution. In either case the graph remains well-formed, and
so it is in every state that a sequence of operations reaches.

Calls are nested at most as deep as the number of sets times the height of the
graph. A nested call asks for types below the current ones, unless sets were
merged since.
-/

namespace Frontend
namespace TypeGraph

variable {graph coarse : TypeGraph}

/-- The number of sets of types that exist. -/
def classes (graph : TypeGraph) : Nat :=
  ((Finset.range graph.repository.size).filter fun id => graph.root id = id).card

theorem classes_le_size (graph : TypeGraph) :
    graph.classes ≤ graph.repository.size :=
  (Finset.card_filter_le _ _).trans (Finset.card_range _).le

/-- A graph with the same types in fewer or in the same sets. -/
structure Coarsens (graph coarse : TypeGraph) : Prop where
  repository : coarse.repository = graph.repository
  same : ∀ left right, graph.Same left right -> coarse.Same left right
  /-- Every change is paid for by a set. -/
  progress :
    (∀ id, coarse.root id = graph.root id) ∨ coarse.classes < graph.classes

namespace Coarsens

theorem refl (graph : TypeGraph) : graph.Coarsens graph :=
  ⟨rfl, fun _ _ same => same, .inl fun _ => rfl⟩

theorem classes_eq
    (coarsens : graph.Coarsens coarse)
    (unchanged : ∀ id, coarse.root id = graph.root id) :
    coarse.classes = graph.classes := by
  simp [classes, coarsens.repository, unchanged]

theorem trans
    {coarsest : TypeGraph}
    (first : graph.Coarsens coarse)
    (second : coarse.Coarsens coarsest) :
    graph.Coarsens coarsest := by
  refine ⟨second.repository.trans first.repository,
    fun left right same => second.same _ _ (first.same _ _ same), ?_⟩
  rcases first.progress with unchanged | fewer <;>
    rcases second.progress with stillUnchanged | evenFewer
  · exact .inl fun id => (stillUnchanged id).trans (unchanged id)
  · exact .inr (first.classes_eq unchanged ▸ evenFewer)
  · exact .inr (second.classes_eq stillUnchanged ▸ fewer)
  · exact .inr (evenFewer.trans fewer)

/-- A solution of a graph with fewer sets solves the graph. -/
theorem solves
    {Var : Type}
    (coarsens : graph.Coarsens coarse)
    {trees : TypeId -> TypeTree Var}
    (solves : coarse.Solves trees) :
    graph.Solves trees where
  same := fun left right same => solves.same left right (coarsens.same left right same)
  layer := coarsens.repository ▸ solves.layer

end Coarsens

/-- A merger of two sets leaves one set less. -/
theorem WellFormed.coarsens_merge
    (wellFormed : graph.WellFormed)
    {source target : TypeId}
    (sourceExists : source < graph.repository.size) :
    graph.Coarsens (graph.merge source target) := by
  refine ⟨rfl, fun left right same => same.merge source target, ?_⟩
  by_cases same : graph.root source = graph.root target
  · left
    intro id
    rw [root_merge]
    split
    next member => rw [member, same]
    next => rfl
  · right
    apply Finset.card_lt_card
    refine Finset.ssubset_iff_of_subset ?_ |>.mpr ⟨graph.root source, ?_, ?_⟩
    · intro id
      simp only [Finset.mem_filter]
      rintro ⟨bound, fixed⟩
      exact ⟨bound, (root_eq_of_root_merge_eq same fixed).1⟩
    · simp only [Finset.mem_filter, Finset.mem_range]
      exact ⟨wellFormed.root_lt source sourceExists, root_root source⟩
    · simp only [Finset.mem_filter, not_and]
      intro _ fixed
      exact (root_eq_of_root_merge_eq same fixed).2 (root_root source)

/-- The trees are equal in every pair. -/
def Equates {Var : Type} (trees : TypeId -> TypeTree Var)
    (pairs : List (TypeId × TypeId)) : Prop :=
  ∀ pair ∈ pairs, trees pair.1 = trees pair.2

@[simp] theorem equates_nil {Var : Type} (trees : TypeId -> TypeTree Var) :
    Equates trees [] := by
  simp [Equates]

@[simp] theorem equates_cons
    {Var : Type}
    (trees : TypeId -> TypeTree Var)
    (left right : TypeId)
    (pairs : List (TypeId × TypeId)) :
    Equates trees ((left, right) :: pairs) ↔
      trees left = trees right ∧ Equates trees pairs := by
  simp [Equates]

/-- The types of each pair are in one set. -/
def Joins (graph : TypeGraph) (pairs : List (TypeId × TypeId)) : Prop :=
  ∀ pair ∈ pairs, graph.Same pair.1 pair.2

@[simp] theorem joins_singleton (left right : TypeId) :
    graph.Joins [(left, right)] ↔ graph.Same left right := by
  simp [Joins]

/-- The result of a computation on a graph is right for the demand that the types
of each pair are the same: it succeeds with these equations added, or it fails
where no solution meets them. -/
def Settles
    (graph : TypeGraph)
    (pairs : List (TypeId × TypeId)) :
    EStateM.Result (Stop Clash) TypeGraph Unit -> Prop
  | .ok _ coarse =>
      coarse.WellFormed ∧ graph.Coarsens coarse ∧ coarse.Joins pairs ∧
        ∀ (Var : Type) (trees : TypeId -> TypeTree Var),
          coarse.Solves trees ↔ graph.Solves trees ∧ Equates trees pairs
  | .error (.failed _) coarse =>
      coarse.WellFormed ∧ graph.Coarsens coarse ∧
        ∀ (Var : Type) (trees : TypeId -> TypeTree Var),
          graph.Solves trees -> ¬ Equates trees pairs
  | .error (.fault _) _ => False

/-- Demands that come to the same are settled alike. -/
theorem Settles.congr
    {pairs others : List (TypeId × TypeId)}
    {result : EStateM.Result (Stop Clash) TypeGraph Unit}
    (settles : graph.Settles pairs result)
    (joins : ∀ coarse, graph.Coarsens coarse -> coarse.Joins pairs -> coarse.Joins others)
    (alike : ∀ (Var : Type) (trees : TypeId -> TypeTree Var),
      graph.Solves trees -> (Equates trees pairs ↔ Equates trees others)) :
    graph.Settles others result := by
  match result, settles with
  | .ok _ coarse, ⟨wellFormed, coarsens, joined, solves⟩ =>
      refine ⟨wellFormed, coarsens, joins coarse coarsens joined, fun Var trees => ?_⟩
      rw [solves]
      exact and_congr_right (alike Var trees)
  | .error (.failed _) coarse, ⟨wellFormed, coarsens, unsolved⟩ =>
      refine ⟨wellFormed, coarsens, fun Var trees solves equates => ?_⟩
      exact unsolved Var trees solves ((alike Var trees solves).mpr equates)

/-- Two types are the same if their representatives are. -/
theorem Settles.of_roots
    {left right : TypeId}
    {result : EStateM.Result (Stop Clash) TypeGraph Unit}
    (settles : graph.Settles [(graph.root left, graph.root right)] result) :
    graph.Settles [(left, right)] result := by
  refine settles.congr ?_ ?_
  · intro coarse coarsens joins
    rw [joins_singleton] at joins ⊢
    have toLeft := coarsens.same _ _ (same_root left)
    have toRight := coarsens.same _ _ (same_root right)
    exact (toLeft.trans joins).trans toRight.symm
  · intro Var trees solves
    simp [solves.root]

/-- Which type is named first does not matter. -/
theorem Settles.swap
    {left right : TypeId}
    {result : EStateM.Result (Stop Clash) TypeGraph Unit}
    (settles : graph.Settles [(left, right)] result) :
    graph.Settles [(right, left)] result := by
  refine settles.congr ?_ ?_
  · intro coarse _ joins
    rw [joins_singleton] at joins ⊢
    exact joins.symm
  · intro Var trees _
    simp [eq_comm]

/-- A demand after another one that has been met. -/
theorem Settles.append
    {pairs later : List (TypeId × TypeId)}
    {result : EStateM.Result (Stop Clash) TypeGraph Unit}
    (first : graph.Settles pairs (.ok () coarse))
    (second : coarse.Settles later result) :
    graph.Settles (pairs ++ later) result := by
  obtain ⟨_, coarsens, joined, solves⟩ := first
  have split : ∀ (Var : Type) (trees : TypeId -> TypeTree Var),
      Equates trees (pairs ++ later) ↔ Equates trees pairs ∧ Equates trees later := by
    intro Var trees
    simp only [Equates, List.forall_mem_append]
  match result, second with
  | .ok _ coarsest, ⟨wellFormed, coarsensLater, joinedLater, solvesLater⟩ =>
      refine ⟨wellFormed, coarsens.trans coarsensLater, ?_, fun Var trees => ?_⟩
      · refine List.forall_mem_append.mpr ⟨fun pair present => ?_, joinedLater⟩
        exact coarsensLater.same _ _ (joined pair present)
      · rw [solvesLater, solves, split, and_assoc]
  | .error (.failed _) coarsest, ⟨wellFormed, coarsensLater, unsolved⟩ =>
      refine ⟨wellFormed, coarsens.trans coarsensLater,
        fun Var trees solved equates => ?_⟩
      obtain ⟨now, afterwards⟩ := (split Var trees).mp equates
      exact unsolved Var trees ((solves Var trees).mpr ⟨solved, now⟩) afterwards

/-- Merging two sets settles the demand that they are the same, if the graph
remains well-formed. -/
theorem WellFormed.settles_merge
    (wellFormed : graph.WellFormed)
    {source target : TypeId}
    (sourceExists : source < graph.repository.size)
    (merged : (graph.merge source target).WellFormed) :
    graph.Settles [(source, target)] (.ok () (graph.merge source target)) := by
  refine ⟨merged, wellFormed.coarsens_merge sourceExists, ?_, fun Var trees => ?_⟩
  · exact (joins_singleton _ _).mpr (same_merge source target)
  · simp [solves_merge_iff]

end TypeGraph

namespace Unifier

open TypeGraph

variable {graph : TypeGraph}

/-- Giving a type of which nothing is known the tree of another one settles the
demand that they are the same. -/
theorem settles_assign
    (wellFormed : graph.WellFormed)
    {source target : TypeId}
    (fixed : graph.root source = source)
    (unknown : graph.repository.layer? source = none)
    (sourceExists : source < graph.repository.size)
    (targetExists : target < graph.repository.size)
    (different : graph.root source ≠ graph.root target) :
    graph.Settles [(source, target)] (assign source target graph) := by
  by_cases occurs : graph.Occurs source target
  · have failed : assign source target graph = .error (.failed .occurs) graph := by
      simp [assign, bind, EStateM.bind, get, getThe, MonadStateOf.get, EStateM.get,
        wellFormed.occurs_eq source target targetExists, occurs, ofFault, pure,
        EStateM.pure, clash, throw, throwThe, MonadExceptOf.throw, EStateM.throw]
    rw [failed]
    refine ⟨wellFormed, .refl graph, fun Var trees solves equates => ?_⟩
    have equal := ((equates_cons trees source target []).mp equates).1
    cases occurs with
    | here same => exact different (fixed.trans same.symm)
    | deeper known present inside =>
        have atMost := solves.sizeOf_le_of_occurs inside
        have smaller := solves.sizeOf_part_lt known present
        rw [solves.root, ← equal] at smaller
        omega
  · have merged : assign source target graph = .ok () (graph.merge source target) := by
      simp [assign, bind, EStateM.bind, get, getThe, MonadStateOf.get, EStateM.get,
        wellFormed.occurs_eq source target targetExists, occurs, ofFault, pure,
        EStateM.pure]
      rfl
    rw [merged]
    apply wellFormed.settles_merge sourceExists
    apply wellFormed.merge sourceExists targetExists ?_
      (wellFormed.exists_fallsAlong_merge (fixed.symm ▸ occurs))
    intro layer known
    rw [fixed, unknown] at known
    cases known

/-- What unification does with two types that are not yet the same, by what is
known of their representatives. -/
theorem unifyWithin_cases
    (wellFormed : graph.WellFormed)
    {left right : TypeId}
    (leftExists : left < graph.repository.size)
    (rightExists : right < graph.repository.size)
    (different : graph.root left ≠ graph.root right)
    (depth : Nat) :
    (graph.repository.layer? (graph.root left) = none ∧
      graph.repository.layer? (graph.root right) = none ∧
      unifyWithin (depth + 1) left right graph =
        .ok () (graph.merge (graph.root left) (graph.root right))) ∨
    (graph.repository.layer? (graph.root left) = none ∧
      unifyWithin (depth + 1) left right graph =
        assign (graph.root left) (graph.root right) graph) ∨
    (graph.repository.layer? (graph.root right) = none ∧
      unifyWithin (depth + 1) left right graph =
        assign (graph.root right) (graph.root left) graph) ∨
    ∃ leftLayer rightLayer,
      graph.repository.layer? (graph.root left) = some leftLayer ∧
      graph.repository.layer? (graph.root right) = some rightLayer ∧
      (leftLayer.SameShape rightLayer ∧
        unifyWithin (depth + 1) left right graph =
          EStateM.bind
            ((leftLayer.parts.zip rightLayer.parts).forM fun pair =>
              unifyWithin depth pair.1 pair.2)
            (fun _ => merge (graph.root left) (graph.root right)) graph ∨
      ¬ leftLayer.SameShape rightLayer ∧
        ∃ clash, unifyWithin (depth + 1) left right graph =
          .error (.failed clash) graph) := by
  obtain ⟨leftTerm, leftFound⟩ :=
    (graph.repository.exists_term_iff _).mpr (wellFormed.root_lt left leftExists)
  obtain ⟨rightTerm, rightFound⟩ :=
    (graph.repository.exists_term_iff _).mpr (wellFormed.root_lt right rightExists)
  simp only [unifyWithin, bind, EStateM.bind, get, getThe, MonadStateOf.get,
    EStateM.get, different, if_false, leftFound, rightFound, ofFault, pure, EStateM.pure,
    Repository.layer?]
  cases leftTerm <;> cases rightTerm
  case unbound.unbound => exact .inl ⟨rfl, rfl, rfl⟩
  case unbound.base => exact .inr (.inl ⟨rfl, rfl⟩)
  case unbound.pointer => exact .inr (.inl ⟨rfl, rfl⟩)
  case unbound.function => exact .inr (.inl ⟨rfl, rfl⟩)
  case base.unbound => exact .inr (.inr (.inl ⟨rfl, rfl⟩))
  case pointer.unbound => exact .inr (.inr (.inl ⟨rfl, rfl⟩))
  case function.unbound => exact .inr (.inr (.inl ⟨rfl, rfl⟩))
  all_goals
    refine .inr (.inr (.inr ⟨_, _, rfl, rfl, ?_⟩))
    simp only [Layer.SameShape, Layer.parts]
  case base.base left right =>
      by_cases equal : left = right
      · refine .inl ⟨equal, ?_⟩
        simp [equal, merge, pure, EStateM.pure]
      · refine .inr ⟨equal, .mismatch, ?_⟩
        simp [equal]
        rfl
  case pointer.pointer left right =>
      refine .inl ⟨trivial, ?_⟩
      simp only [List.zip_cons_cons, List.zip_nil_right, List.forM, bind, EStateM.bind,
        pure, EStateM.pure]
      cases unifyWithin depth left right graph <;> rfl
  case function.function =>
      split
      next unequal => exact .inr ⟨unequal, .arity, rfl⟩
      next equal =>
        exact .inl ⟨not_not.mp equal, rfl⟩
  all_goals exact .inr ⟨not_false, .mismatch, rfl⟩

/-- A height that bounds how deep calls for a type can be nested. -/
structure Affords
    (graph : TypeGraph)
    (height : TypeId -> Nat)
    (depth : Nat)
    (id : TypeId) : Prop where
  falls : graph.FallsAlong height
  bounded : ∀ id, height id ≤ graph.repository.size
  enough :
    graph.classes * (graph.repository.size + 1) + height (graph.root id) < depth

/-- What can be afforded is still affordable when sets have been merged. -/
theorem Affords.coarsen
    {coarse : TypeGraph}
    {height : TypeId -> Nat}
    {depth : Nat}
    (coarsens : graph.Coarsens coarse)
    (wellFormed : coarse.WellFormed)
    (falls : graph.FallsAlong height)
    (bounded : ∀ id, height id ≤ graph.repository.size)
    {ids : List TypeId}
    (enough : ∀ id ∈ ids,
      graph.classes * (graph.repository.size + 1) + height (graph.root id) < depth) :
    ∃ newHeight, ∀ id ∈ ids, Affords coarse newHeight depth id := by
  rcases coarsens.progress with unchanged | fewer
  · have roots : coarse.root = graph.root := funext unchanged
    have sets := coarsens.classes_eq unchanged
    refine ⟨height, fun id present => ⟨?_, ?_, ?_⟩⟩
    · unfold FallsAlong
      rw [roots, coarsens.repository]
      exact falls
    · rw [coarsens.repository]
      exact bounded
    · rw [sets, roots, coarsens.repository]
      exact enough id present
  · obtain ⟨newHeight, newFalls, newBounded⟩ := wellFormed.exists_bounded
    refine ⟨newHeight, fun id present => ⟨newFalls, newBounded, ?_⟩⟩
    have before := enough id present
    have low := newBounded (coarse.root id)
    rw [coarsens.repository] at low ⊢
    -- One set less is worth more than any height.
    have paid : (coarse.classes + 1) * (graph.repository.size + 1) ≤
        graph.classes * (graph.repository.size + 1) :=
      Nat.mul_le_mul_right _ fewer
    rw [Nat.add_mul, Nat.one_mul] at paid
    omega

/-- A list of demands is settled one after the other. -/
theorem settles_forM
    (depth : Nat)
    (settlesOne : ∀ (graph : TypeGraph) (left right : TypeId) (height : TypeId -> Nat),
      graph.WellFormed -> left < graph.repository.size ->
        right < graph.repository.size -> Affords graph height depth left ->
          graph.Settles [(left, right)] (unifyWithin depth left right graph))
    (pairs : List (TypeId × TypeId))
    (graph : TypeGraph)
    (height : TypeId -> Nat)
    (wellFormed : graph.WellFormed)
    (leftExists : ∀ pair ∈ pairs, pair.1 < graph.repository.size)
    (rightExists : ∀ pair ∈ pairs, pair.2 < graph.repository.size)
    (affords : ∀ id ∈ pairs.map Prod.fst, Affords graph height depth id) :
    graph.Settles pairs
      (pairs.forM (fun pair => unifyWithin depth pair.1 pair.2) graph) := by
  induction pairs generalizing graph height with
  | nil => exact ⟨wellFormed, .refl graph, by simp [Joins], fun Var trees => by simp⟩
  | cons pair pairs ih =>
      obtain ⟨left, right⟩ := pair
      have first := settlesOne graph left right height wellFormed
        (leftExists _ List.mem_cons_self) (rightExists _ List.mem_cons_self)
        (affords left (by simp))
      simp only [List.forM, bind, EStateM.bind]
      cases result : unifyWithin depth left right graph with
      | ok value coarse =>
          rw [result] at first
          have ⟨coarseWellFormed, coarsens, _, _⟩ := first
          have later := fun id present => affords id (List.mem_cons_of_mem left present)
          -- The first demand may have merged sets, so the rest is measured by new heights.
          obtain ⟨newHeight, newAffords⟩ := Affords.coarsen coarsens coarseWellFormed
            (affords left (by simp)).falls (affords left (by simp)).bounded
            fun id present => (later id present).enough
          refine first.append (ih coarse newHeight coarseWellFormed
            ?_ ?_ newAffords)
          · rw [coarsens.repository]
            exact fun pair present => leftExists pair (List.mem_cons_of_mem _ present)
          · rw [coarsens.repository]
            exact fun pair present => rightExists pair (List.mem_cons_of_mem _ present)
      | error stop coarse =>
          rw [result] at first
          match stop, first with
          | .failed clash, ⟨coarseWellFormed, coarsens, unsolved⟩ =>
              refine ⟨coarseWellFormed, coarsens, fun Var trees solves equates => ?_⟩
              apply unsolved Var trees solves
              simpa using ((equates_cons trees left right pairs).mp equates).1

/-- Two types of which something of the same shape is known are the same if their
parts are. -/
theorem settles_parts
    {left right : TypeId}
    {leftLayer rightLayer : Layer TypeId}
    (leftExists : left < graph.repository.size)
    (rightExists : right < graph.repository.size)
    (leftKnown : graph.repository.layer? left = some leftLayer)
    (rightKnown : graph.repository.layer? right = some rightLayer)
    (shape : leftLayer.SameShape rightLayer)
    (parts : Unifier Unit)
    (settles : graph.Settles (leftLayer.parts.zip rightLayer.parts) (parts graph)) :
    graph.Settles [(left, right)]
      (EStateM.bind parts (fun _ => merge left right) graph) := by
  have equal_iff : ∀ (Var : Type) (trees : TypeId -> TypeTree Var),
      graph.Solves trees ->
        (Equates trees (leftLayer.parts.zip rightLayer.parts) ↔
          Equates trees [(left, right)]) := by
    intro Var trees solves
    simp only [equates_cons, equates_nil, and_true]
    rw [solves.map_eq_map leftKnown rightKnown, Layer.map_eq_map_iff]
    simp [Equates, shape]
  simp only [EStateM.bind]
  cases result : parts graph with
  | error stop coarse =>
      rw [result] at settles
      match stop, settles with
      | .failed clash, ⟨coarseWellFormed, coarsens, unsolved⟩ =>
          refine ⟨coarseWellFormed, coarsens, fun Var trees solves equates => ?_⟩
          exact unsolved Var trees solves ((equal_iff Var trees solves).mpr equates)
  | ok value coarse =>
      rw [result] at settles
      have ⟨coarseWellFormed, coarsens, joined, solves_iff⟩ := settles
      have sameTypes := coarsens.repository
      have merged : (coarse.merge left right).WellFormed := by
        apply coarseWellFormed.merge
        · rwa [sameTypes]
        · rwa [sameTypes]
        · intro layer known
          obtain ⟨leftTop, leftTopKnown, leftEqual⟩ :=
            coarseWellFormed.layer_root left leftLayer (by rwa [sameTypes])
          obtain ⟨rightTop, rightTopKnown, rightEqual⟩ :=
            coarseWellFormed.layer_root right rightLayer (by rwa [sameTypes])
          rw [leftTopKnown, Option.some.injEq] at known
          have between : leftLayer.map coarse.root = rightLayer.map coarse.root :=
            (Layer.map_eq_map_iff _ _ _).mpr ⟨shape, joined⟩
          exact ⟨rightTop, rightTopKnown,
            known ▸ leftEqual.symm.trans (between.trans rightEqual)⟩
        · -- Every solution gives both types one tree, so that one remains.
          obtain ⟨trees, solves⟩ := coarseWellFormed.exists_solves Empty
          obtain ⟨before, equates⟩ := (solves_iff Empty trees).mp solves
          have equal := (equal_iff Empty trees before).mp equates
          rw [equates_cons] at equal
          exact ⟨_, ((solves_merge_iff left right trees).mpr
            ⟨solves, equal.1⟩).fallsAlong⟩
      have settlesMerge := coarseWellFormed.settles_merge (by rwa [sameTypes]) merged
      refine (settles.append settlesMerge).congr ?_ ?_
      · intro coarsest _ joins pair present
        exact joins pair (List.mem_append_right _ present)
      · intro Var trees solves
        have equivalent := equal_iff Var trees solves
        simp only [Equates, List.forall_mem_append] at equivalent ⊢
        rw [equivalent, and_self]

/-- Unification settles the demand that two types are the same. -/
theorem settles_unifyWithin
    (depth : Nat)
    (graph : TypeGraph)
    (left right : TypeId)
    (height : TypeId -> Nat)
    (wellFormed : graph.WellFormed)
    (leftExists : left < graph.repository.size)
    (rightExists : right < graph.repository.size)
    (affords : Affords graph height depth left) :
    graph.Settles [(left, right)] (unifyWithin depth left right graph) := by
  induction depth generalizing graph left right height with
  | zero => exact absurd affords.enough (Nat.not_lt_zero _)
  | succ depth ih =>
      by_cases same : graph.root left = graph.root right
      · have unchanged : unifyWithin (depth + 1) left right graph = .ok () graph := by
          simp [unifyWithin, bind, EStateM.bind, get, getThe, MonadStateOf.get,
            EStateM.get, same, pure, EStateM.pure]
        rw [unchanged]
        refine ⟨wellFormed, .refl graph, (joins_singleton _ _).mpr same,
          fun Var trees => ?_⟩
        simp only [equates_cons, equates_nil, and_true, iff_self_and]
        exact fun solves => solves.same left right same
      have leftRoot := wellFormed.root_lt left leftExists
      have rightRoot := wellFormed.root_lt right rightExists
      have different :
          graph.root (graph.root left) ≠ graph.root (graph.root right) := by
        simpa using same
      -- Nothing is known of one side, or of both; or else their shapes agree, or clash.
      rcases unifyWithin_cases wellFormed leftExists rightExists same depth with
        ⟨leftUnknown, rightUnknown, result⟩ | ⟨leftUnknown, result⟩ |
        ⟨rightUnknown, result⟩ |
        ⟨leftLayer, rightLayer, leftKnown, rightKnown,
          ⟨shape, result⟩ | ⟨shape, clash, result⟩⟩
      · rw [result]
        apply Settles.of_roots
        apply wellFormed.settles_merge leftRoot
        apply wellFormed.merge leftRoot rightRoot
        · intro layer known
          rw [root_root, leftUnknown] at known
          cases known
        · apply wellFormed.exists_fallsAlong_merge
          rintro (equal | ⟨known, _, _⟩)
          · exact different equal.symm
          · rw [root_root, rightUnknown] at known
            cases known
      · rw [result]
        exact (settles_assign wellFormed (root_root left) leftUnknown leftRoot rightRoot
          different).of_roots
      · rw [result]
        exact (settles_assign wellFormed (root_root right) rightUnknown rightRoot leftRoot
          different.symm).swap.of_roots
      · rw [result]
        apply Settles.of_roots
        apply settles_parts leftRoot rightRoot leftKnown rightKnown shape
        apply settles_forM depth ih _ _ height wellFormed
        · intro pair present
          exact wellFormed.part_lt _ _ leftKnown _ (List.of_mem_zip present).1
        · intro pair present
          exact wellFormed.part_lt _ _ rightKnown _ (List.of_mem_zip present).2
        · intro part present
          obtain ⟨pair, inZip, rfl⟩ := List.mem_map.mp present
          have lower := affords.falls _ _ _ (root_root left) leftKnown
            (List.of_mem_zip inZip).1
          have enough := affords.enough
          exact ⟨affords.falls, affords.bounded, by omega⟩
      · rw [result]
        refine ⟨wellFormed, .refl graph, fun Var trees solves equates => ?_⟩
        apply shape
        rw [equates_cons, ← solves.root left, ← solves.root right,
          solves.map_eq_map leftKnown rightKnown, Layer.map_eq_map_iff] at equates
        exact equates.1.1

/-- The depth to which calls may be nested is beyond anything they need. -/
theorem exists_affords
    (wellFormed : graph.WellFormed)
    (id : TypeId) :
    ∃ height, Affords graph height ((graph.repository.size + 1) ^ 3) id := by
  obtain ⟨height, falls, bounded⟩ := wellFormed.exists_bounded
  refine ⟨height, falls, bounded, ?_⟩
  have sets := graph.classes_le_size
  have low := bounded (graph.root id)
  have square : graph.classes * (graph.repository.size + 1) +
      height (graph.root id) < (graph.repository.size + 1) ^ 2 := by
    calc
      _ ≤ graph.repository.size * (graph.repository.size + 1) +
          graph.repository.size :=
        Nat.add_le_add (Nat.mul_le_mul_right _ sets) low
      _ < (graph.repository.size + 1) * (graph.repository.size + 1) := by
        rw [Nat.add_mul, Nat.one_mul]
        omega
      _ = (graph.repository.size + 1) ^ 2 := (Nat.pow_two _).symm
  exact square.trans_le (Nat.pow_le_pow_right (Nat.succ_pos _) (by decide))

/-- Unification settles the demand that two types are the same, at the depth that it
has. -/
theorem settles_unify
    (wellFormed : graph.WellFormed)
    {left right : TypeId}
    (leftExists : left < graph.repository.size)
    (rightExists : right < graph.repository.size) :
    graph.Settles [(left, right)] (unify left right graph) := by
  obtain ⟨height, affords⟩ := exists_affords wellFormed left
  exact settles_unifyWithin _ graph left right height wellFormed leftExists rightExists affords

end Unifier

namespace TypeGraph

variable {graph : TypeGraph}

/-- The graph that unification leaves behind, whether it succeeds or not. -/
def unified (graph : TypeGraph) (left right : TypeId) : TypeGraph :=
  match Unifier.unify left right graph with
  | .ok _ coarse => coarse
  | .error _ coarse => coarse

/-- One operation on types that exist. -/
inductive Step (graph : TypeGraph) : TypeGraph -> Prop
  | fresh (node : Option NodeId) : Step graph (graph.fresh node).2
  | base (base : BaseType) : Step graph (graph.base base).2
  | pointer {pointee : TypeId} :
      pointee < graph.repository.size -> Step graph (graph.pointer pointee).2
  | function {subtypes : List TypeId} :
      (∀ part ∈ subtypes, part < graph.repository.size) ->
        Step graph (graph.function subtypes).2
  | find {id : TypeId} :
      id < graph.repository.size -> Step graph (graph.find id).2
  | unify {left right : TypeId} :
      left < graph.repository.size -> right < graph.repository.size ->
        Step graph (graph.unified left right)

/-- A sequence of operations leads from the graph without types to this one. -/
def Reachable (graph : TypeGraph) : Prop :=
  Relation.ReflTransGen Step {} graph

/-- Unification keeps a graph well-formed and merges sets at most, whether it succeeds or
not. -/
theorem WellFormed.unified
    (wellFormed : graph.WellFormed)
    {left right : TypeId}
    (leftExists : left < graph.repository.size)
    (rightExists : right < graph.repository.size) :
    (graph.unified left right).WellFormed ∧ graph.Coarsens (graph.unified left right) := by
  have settles := Unifier.settles_unify wellFormed leftExists rightExists
  unfold TypeGraph.unified
  match Unifier.unify left right graph, settles with
  | .ok _ _, ⟨coarseWellFormed, coarsens, _⟩ => exact ⟨coarseWellFormed, coarsens⟩
  | .error (.failed _) _, ⟨coarseWellFormed, coarsens, _⟩ => exact ⟨coarseWellFormed, coarsens⟩

/-- Every operation keeps a graph well-formed. -/
theorem WellFormed.step
    {next : TypeGraph}
    (wellFormed : graph.WellFormed)
    (step : graph.Step next) :
    next.WellFormed := by
  cases step with
  | fresh node => exact (wellFormed.provides_fresh node).wellFormed
  | base base => exact (wellFormed.provides_base base).wellFormed
  | pointer bound => exact (wellFormed.provides_pointer _ bound).wellFormed
  | function bound => exact (wellFormed.provides_function _ bound).wellFormed
  | find bound => exact wellFormed.of_root_eq rfl (graph.partition.root_find _)
  | unify leftExists rightExists => exact (wellFormed.unified leftExists rightExists).1

/-- Every graph that operations lead to is well-formed. -/
theorem Reachable.wellFormed (reachable : graph.Reachable) : graph.WellFormed := by
  induction reachable with
  | refl => exact wellFormed_empty
  | tail _ step wellFormed => exact wellFormed.step step

end TypeGraph

namespace Unifier

open TypeGraph

/-- In every graph that operations lead to, unification of two types succeeds
exactly if some solution gives them one tree, and the solutions of the resulting
graph are then exactly those solutions. If there is none, it ends with a clash. -/
theorem unify_mostGeneral
    {graph : TypeGraph}
    (reachable : graph.Reachable)
    {left right : TypeId}
    (leftExists : left < graph.repository.size)
    (rightExists : right < graph.repository.size)
    (Var : Type) :
    ((∃ unified, unify left right graph = .ok () unified) ↔
        ∃ trees : TypeId -> TypeTree Var,
          graph.Solves trees ∧ trees left = trees right) ∧
      (∀ unified, unify left right graph = .ok () unified ->
        ∀ trees : TypeId -> TypeTree Var,
          unified.Solves trees ↔ graph.Solves trees ∧ trees left = trees right) ∧
      ((∃ unified, unify left right graph = .ok () unified) ∨
        ∃ clash unified, unify left right graph = .error (.failed clash) unified) := by
  have settles := settles_unify reachable.wellFormed leftExists rightExists
  match result : unify left right graph, settles with
  | .ok _ coarse, ⟨wellFormed, _, _, solves⟩ =>
      have added : ∀ trees : TypeId -> TypeTree Var,
          coarse.Solves trees ↔ graph.Solves trees ∧ trees left = trees right := by
        simpa using solves Var
      refine ⟨⟨fun _ => ?_, fun _ => ⟨coarse, rfl⟩⟩, ?_, .inl ⟨coarse, rfl⟩⟩
      · obtain ⟨trees, solved⟩ := wellFormed.exists_solves Var
        exact ⟨trees, (added trees).mp solved⟩
      · intro unified equal
        cases equal
        exact added
  | .error (.failed clash) coarse, ⟨_, _, unsolved⟩ =>
      refine ⟨⟨?_, ?_⟩, ?_, .inr ⟨clash, coarse, rfl⟩⟩
      · rintro ⟨unified, equal⟩
        cases equal
      · rintro ⟨trees, solves, equal⟩
        exact absurd (by simpa using equal) (unsolved Var trees solves)
      · intro unified equal
        cases equal

/-- A pointer to a type of which nothing is known and a pointer to an integer can
be made the same. -/
theorem unify_mostGeneral_pointers :
    ∃ graph : TypeGraph,
      graph = ((((({} : TypeGraph).fresh none).2.base .int).2.pointer 0).2.pointer 1).2 ∧
        graph.Reachable ∧ 2 < graph.repository.size ∧ 3 < graph.repository.size ∧
          ∃ unified, unify 2 3 graph = .ok () unified := by
  have reachable : Reachable
      ((((({} : TypeGraph).fresh none).2.base .int).2.pointer 0).2.pointer 1).2 :=
    (((Relation.ReflTransGen.single (.fresh none)).tail (.base .int)).tail
      (.pointer (by decide))).tail (.pointer (by decide))
  refine ⟨_, rfl, reachable, by decide, by decide, ?_⟩
  apply (unify_mostGeneral reachable (by decide) (by decide) Empty).1.mpr
  refine ⟨_, reachable.wellFormed.solves_tree fun _ => .base .int, ?_⟩
  rw [reachable.wellFormed.tree_eq, reachable.wellFormed.tree_eq]
  rfl

end Unifier
end Frontend
