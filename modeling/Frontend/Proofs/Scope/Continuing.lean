import Frontend.Proofs.Scope.Naming
import Frontend.Proofs.Scope.Resemblance

/-!
# Walks that go on

A walk never takes back what it has found. It only adds to the records, the usages and
the diagnostics, and a record stands in the same scopes whatever comes after it. So two
walks that start alike have found the same up to where they part, and one that ends there
has found a part of what the other one finds.
-/

namespace Frontend

/-! ## Records stay where they are -/

namespace Scopes

variable
  {scopes longer : Scopes}
  (extended : Extends scopes.declarations longer.declarations)
  {id : DeclId}

include extended

theorem declaration_eq_ok_of_extends
    {declaration : Declaration}
    (read : scopes.declaration id = .ok declaration) :
    longer.declaration id = .ok declaration := by
  unfold Scopes.declaration at read ⊢
  cases present : scopes.declarations[id]? with
  | none => simp [present] at read
  | some found =>
      rw [present] at read
      rw [extended.getElem?_eq_some present]
      exact read

/-- The scopes around a record do not change with further records. -/
theorem path_eq_ok_of_extends
    {path : List NodeId}
    (read : scopes.path id = .ok path) :
    longer.path id = .ok path := by
  induction id using Nat.strongRecOn generalizing path with
  | ind id ih =>
      rw [Scopes.path] at read ⊢
      obtain ⟨declaration, declarationRead, read⟩ := exists_of_bind_eq_ok read
      simp only [declaration_eq_ok_of_extends extended declarationRead, bind, Except.bind]
      cases isParent : declaration.parent with
      | none =>
          rw [isParent] at read
          exact read
      | some anchor =>
          simp only [isParent] at read
          split at read
          next before =>
            obtain ⟨outer, outerRead, read⟩ := exists_of_bind_eq_ok read
            obtain ⟨scope, scopeRead, read⟩ := exists_of_bind_eq_ok read
            simp only [if_pos before, ih anchor before outerRead,
              declaration_eq_ok_of_extends extended scopeRead]
            exact read
          next => cases read

end Scopes

/-! ## What a step adds -/

namespace Resolution

/-- The later walk has found what the earlier one has, and perhaps more. -/
structure Precedes (resolution later : Resolution) : Prop where
  declarations : Extends resolution.scopes.declarations later.scopes.declarations
  usages : Extends resolution.usages later.usages
  diagnostics : Extends resolution.diagnostics later.diagnostics

variable {tree : Tree} {resolution next later : Resolution} {node : NodeId}

namespace Precedes

theorem refl (resolution : Resolution) : resolution.Precedes resolution :=
  ⟨.refl _, .refl _, .refl _⟩

theorem trans (first : resolution.Precedes next) (second : next.Precedes later) :
    resolution.Precedes later where
  declarations := first.declarations.trans second.declarations
  usages := first.usages.trans second.usages
  diagnostics := first.diagnostics.trans second.diagnostics

theorem declare (declared : resolution.declare tree node = .ok next) :
    resolution.Precedes next := by
  obtain ⟨lexeme, -, declared⟩ := exists_of_bind_eq_ok declared
  obtain ⟨location, -, declared⟩ := exists_of_bind_eq_ok declared
  cases declared
  split
  · exact ⟨.push _ _, .refl _, .push _ _⟩
  · exact ⟨.push _ _, .refl _, .refl _⟩

theorem use (used : resolution.use tree node = .ok next) : resolution.Precedes next := by
  obtain ⟨lexeme, -, used⟩ := exists_of_bind_eq_ok used
  split at used
  next =>
    cases used
    exact ⟨.refl _, .push _ _, .refl _⟩
  next =>
    obtain ⟨location, -, used⟩ := exists_of_bind_eq_ok used
    cases used
    exact ⟨.refl _, .refl _, .push _ _⟩

theorem enterScope (entered : resolution.enterScope tree node = .ok next) :
    resolution.Precedes next := by
  obtain ⟨location, -, entered⟩ := exists_of_bind_eq_ok entered
  cases entered
  exact ⟨.push _ _, .refl _, .refl _⟩

theorem enter (entered : resolution.enter tree node = .ok next) :
    resolution.Precedes next := by
  obtain ⟨found, -, entered⟩ := exists_of_bind_eq_ok entered
  split at entered
  next => exact enterScope entered
  next => exact enterScope entered
  next =>
    obtain ⟨parts, -, entered⟩ := exists_of_bind_eq_ok entered
    obtain ⟨declared, nameDeclared, entered⟩ := exists_of_bind_eq_ok entered
    have scopeEntered := enterScope entered
    exact (declare nameDeclared).trans
      ⟨scopeEntered.declarations, scopeEntered.usages, scopeEntered.diagnostics⟩
  next =>
    cases entered
    exact ⟨.refl _, .refl _, .refl _⟩
  next =>
    split at entered
    next => exact use entered
    next =>
      split at entered
      next =>
        cases entered
        exact ⟨.refl _, .refl _, .refl _⟩
      next => exact declare entered
  next =>
    cases entered
    exact refl _

end Precedes

/-- On the way out of a node nothing is found. -/
theorem exists_of_leave (left : resolution.leave tree node = .ok next) :
    ∃ scopes inExpression,
      next = { resolution with scopes, inExpression } ∧
        scopes.declarations = resolution.scopes.declarations := by
  obtain ⟨found, -, left⟩ := exists_of_bind_eq_ok left
  split at left
  case h_4 =>
    cases left
    exact ⟨_, _, rfl, rfl⟩
  case h_5 =>
    cases left
    exact ⟨_, _, rfl, rfl⟩
  all_goals
    obtain ⟨scopes, scopesLeft, rest⟩ := exists_of_bind_eq_ok left
    cases rest
    obtain ⟨_, _, _, -, -, rfl⟩ := Scopes.leave_eq_ok.mp scopesLeft
    exact ⟨_, _, rfl, rfl⟩

namespace Precedes

theorem leave (left : resolution.leave tree node = .ok next) : resolution.Precedes next := by
  obtain ⟨_, _, rfl, same⟩ := exists_of_leave left
  exact ⟨same ▸ .refl _, .refl _, .refl _⟩

theorem of_leave
    (precedes : resolution.Precedes later)
    (left : resolution.leave tree node = .ok next) :
    next.Precedes later := by
  obtain ⟨_, _, rfl, same⟩ := exists_of_leave left
  exact ⟨same ▸ precedes.declarations, precedes.usages, precedes.diagnostics⟩

theorem step {event : Event} (stepped : resolution.step tree event = .ok next) :
    resolution.Precedes next := by
  cases event with
  | enter node => exact enter stepped
  | leave node => exact leave stepped

/-- A walk keeps what it has found before. -/
theorem foldlM
    {events : List Event}
    (walked : events.foldlM (Resolution.step tree) resolution = .ok next) :
    resolution.Precedes next :=
  foldlM_preserves (fun _ precedes stepped => precedes.trans (step stepped)) (refl resolution)
    walked

end Precedes

/-- A usage that is found refers to the same declaration later on. -/
theorem Precedes.pairs_prefix
    (precedes : resolution.Precedes later)
    (known : ∀ usage ∈ resolution.usages.toList,
      usage.declaration < resolution.scopes.declarations.size) :
    resolution.usages.toList.map resolution.pair <+: later.usages.toList.map later.pair := by
  obtain ⟨more, grown⟩ := precedes.usages
  have same : resolution.usages.toList.map resolution.pair =
      resolution.usages.toList.map later.pair := by
    refine List.map_congr_left fun usage member => ?_
    rw [pair, pair, precedes.declarations.getElem?_eq (known usage member)]
  rw [same, grown, Array.toList_appendList, List.map_append]
  exact List.prefix_append _ _

end Resolution

/-! ## Walks that start alike -/

namespace Tree.Resembles

/-- If two trees resemble each other where one of them ends, then the walk through the other
one finds all that the walk through that one finds. -/
theorem precedes
    {tree other : Tree}
    {Inside Names : NodeId -> Prop}
    (resembles : tree.Resembles other id Inside Names)
    {node : NodeId}
    {inner more : List Event}
    (inside : ∀ event ∈ Event.enter node :: inner, Inside event.node)
    {resolution later : Resolution}
    (walked : (Event.around node inner).foldlM (Resolution.step tree) {} = .ok resolution)
    (walkedLater : (Event.around node (inner ++ more)).foldlM (Resolution.step other) {} =
      .ok later) :
    resolution.Precedes later := by
  have split : Event.around node (inner ++ more) =
      Event.enter node :: inner ++ (more ++ [Event.leave node]) := by
    simp [Event.around]
  rw [Event.around, List.foldlM_append] at walked
  rw [split, List.foldlM_append] at walkedLater
  obtain ⟨middle, middleWalked, left⟩ := exists_of_bind_eq_ok walked
  obtain ⟨_, otherMiddleWalked, rest⟩ := exists_of_bind_eq_ok walkedLater
  obtain ⟨_, sameWalked, rfl, -⟩ := (resembles.foldlM inside).exists_ok middleWalked
  rw [otherMiddleWalked, Except.ok.injEq] at sameWalked
  rw [sameWalked, Resolution.rename_id] at rest
  simp only [List.foldlM_cons, List.foldlM_nil, bind_pure] at left
  exact (Resolution.Precedes.foldlM rest).of_leave left

end Tree.Resembles

end Frontend
