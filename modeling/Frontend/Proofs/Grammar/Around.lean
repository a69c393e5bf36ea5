import Frontend.Proofs.Syntax.Reaching

/-!
# Functions around a node

The innermost function around a node is the first one on the way up from it. The grammar
allows a return in the body of a function only, so there is a function around every return.
-/

namespace Frontend

namespace Tree

variable (tree : Tree)

/-- The second node is the first one, or below it and in no function that starts at the
first one or below. -/
inductive IsLoose (outer : NodeId) : NodeId -> Prop
  | refl : IsLoose outer outer
  | child {node child : NodeId} :
      IsLoose outer node -> tree.tag? node ≠ some .function -> tree.IsChild node child ->
        IsLoose outer child

/-- The function is the innermost one around the node. -/
def IsFunctionAround (function node : NodeId) : Prop :=
  tree.tag? function = some .function ∧
    ∃ child, tree.IsChild function child ∧ tree.IsLoose child node

namespace IsFunctionAround

variable {tree} {function node lower outer : NodeId}

theorem of_isChild
    (isFunction : tree.tag? function = some .function)
    (isChild : tree.IsChild function lower) :
    tree.IsFunctionAround function lower :=
  ⟨isFunction, lower, isChild, .refl⟩

/-- What is around a node that is no function is around its children. -/
theorem child
    (around : tree.IsFunctionAround function node)
    (noFunction : tree.tag? node ≠ some .function)
    (isChild : tree.IsChild node lower) :
    tree.IsFunctionAround function lower := by
  obtain ⟨isFunction, top, isTop, loose⟩ := around
  exact ⟨isFunction, top, isTop, loose.child noFunction isChild⟩

theorem isBelow (around : tree.IsFunctionAround function node) : tree.IsBelow function node := by
  obtain ⟨-, top, isTop, loose⟩ := around
  induction loose with
  | refl => exact .single isTop
  | child _ _ isChild below => exact below.tail isChild

/-- The way up to the function around a node leads past every node from which there is none
in between. -/
theorem of_isLoose
    (unique : ∀ parent other child, tree.IsChild parent child -> tree.IsChild other child ->
      parent = other)
    (loose : tree.IsLoose outer node)
    (around : tree.IsFunctionAround function node) :
    tree.IsFunctionAround function outer := by
  induction loose with
  | refl => exact around
  | child _ noFunction isChild ih =>
      obtain ⟨isFunction, top, isTop, topLoose⟩ := around
      cases topLoose with
      | refl => exact absurd (unique _ _ _ isTop isChild ▸ isFunction) noFunction
      | child higher _ otherIsChild =>
          obtain rfl := unique _ _ _ otherIsChild isChild
          exact ih ⟨isFunction, top, isTop, higher⟩

end IsFunctionAround

end Tree

/-! ## Returns -/

namespace Outline

variable {Label Other : Type}

/-- The returns that are in no function, by their labels. -/
def strayReturns : Outline Label -> List Label
  | .node label .return _ => [label]
  | .node _ .function _ => []
  | .node _ _ children => (children.map strayReturns).flatten

theorem strayReturns_map (change : Label -> Other) (outline : Outline Label) :
    (outline.map change).strayReturns = outline.strayReturns.map change := by
  induction outline with
  | node label tag children ih =>
      have inside : (children.map (map change)).map strayReturns =
          (children.map strayReturns).map (List.map change) := by
        rw [List.map_map, List.map_map]
        exact List.map_congr_left ih
      cases tag <;> simp only [map, strayReturns, inside, List.map_flatten] <;> rfl

/-- Where there is no stray return, each child that is in no function has none either. -/
theorem strayReturns_of_mem_children
    {part child : Outline Label}
    (none : part.strayReturns = [])
    (noFunction : part.tag ≠ .function)
    (member : child ∈ part.children) :
    child.strayReturns = [] := by
  obtain ⟨label, tag, children⟩ := part
  cases tag <;> simp_all [strayReturns]

end Outline

theorem Expression.strayReturns_outline {Label : Type} (expression : Expression Label) :
    expression.outline.strayReturns = [] := by
  induction expression <;> simp_all [outline, Outline.leaf, Outline.strayReturns]

theorem Whole.strayReturns_outline {Label : Type} (whole : Whole Label) :
    whole.outline.strayReturns = [] := by
  simp [outline, Outline.strayReturns, whole.inner.strayReturns_outline]

theorem Statement.strayReturns_outline {Label : Type} (statement : Statement Label) :
    statement.outline.strayReturns =
      match statement with
      | .return label _ => [label]
      | .block _ statements => (statements.map (·.outline.strayReturns)).flatten
      | _ => [] := by
  cases statement with
  | binding label isConstant name value =>
      cases isConstant <;>
        simp [outline, Outline.leaf, Outline.strayReturns, Tag.ofBinding,
          value.strayReturns_outline]
  | _ => simp [outline, Outline.strayReturns, Function.comp_def, Whole.strayReturns_outline]

theorem Program.strayReturns_outline {Label : Type} (program : Program Label) :
    program.outline.strayReturns =
      (program.statements.map (·.outline.strayReturns)).flatten := by
  simp [outline, Outline.strayReturns, Function.comp_def]

/-- Statements outside of functions have no return but in functions of their own. -/
theorem Stream.AreStatements.strayReturns_eq_nil
    {stream : Stream}
    {start stop : Nat}
    {statements : List (Statement TokenId)}
    (derived : stream.AreStatements false start stop statements) :
    ∀ statement ∈ statements, statement.outline.strayReturns = [] := by
  refine @AreStatements.rec stream
    (fun inFunction _ _ statement _ =>
      inFunction = false -> statement.outline.strayReturns = [])
    (fun inFunction _ _ statements _ => inFunction = false ->
      ∀ statement ∈ statements, statement.outline.strayReturns = [])
    ?binding ?block ?function ?return_ ?returnValue ?evaluate ?assign ?none ?skip ?more
    false start stop statements derived rfl
  case block =>
    intro _ _ _ _ _ _ _ inside outside
    rw [Statement.strayReturns_outline]
    simpa using inside outside
  case return_ => simp
  case returnValue => simp
  case binding | function | evaluate | assign => intros; rw [Statement.strayReturns_outline]
  case none => simp
  case skip => exact fun _ _ inside => inside
  case more =>
    intro _ _ _ _ _ _ _ _ first later outside
    exact List.forall_mem_cons.mpr ⟨first outside, later outside⟩

theorem Stream.Derives.strayReturns_eq_nil
    {stream : Stream}
    {program : Program TokenId}
    (derived : stream.Derives program) :
    program.outline.strayReturns = [] := by
  obtain ⟨_, areStatements, -⟩ := derived.statements
  simpa [program.strayReturns_outline] using areStatements.strayReturns_eq_nil

/-- There is nothing but expressions and what they consist of below a return. -/
theorem Outline.Fits.isValue
    {part child : Outline Mark}
    (fits : part.Fits)
    (inside : part.tag = .return ∨ part.tag = .expression ∨ part.tag.isOperand = true)
    (isChild : child ∈ part.children) :
    child.tag = .expression ∨ child.tag.isOperand = true := by
  have member : child.tag ∈ part.children.map Outline.tag := List.mem_map_of_mem isChild
  unfold Fits at fits
  generalize part.children.map Outline.tag = tags at fits member
  cases found : part.tag <;> rw [found] at fits inside <;> grind [Tag.Admits, Tag.isOperand]

namespace Tree.Represents

variable
  {tree : Tree}
  {program : Program Mark}
  {stream : Stream}
  (represents : tree.Represents program)

include represents

/-- There is a function around every return. -/
theorem exists_function_around
    (derived : stream.Derives (program.map Mark.token))
    {node : NodeId}
    (isReturn : tree.tag? node = some .return) :
    ∃ function, tree.IsFunctionAround function node := by
  have none := derived.strayReturns_eq_nil
  rw [program.outline_map, Outline.strayReturns_map, List.map_eq_nil_iff] at none
  -- On the way down there is no function yet, and no return either, or one is around, or a
  -- return has been passed.
  have down : ∀ passed part, program.outline.Reaches passed part ->
      (part.strayReturns = [] ∨ ∃ function, tree.IsFunctionAround function part.label.node) ∨
        part.tag = .expression ∨ part.tag.isOperand = true := by
    intro passed part reaches
    induction reaches with
    | start => exact .inl (.inl none)
    | @child passed part child earlier later reaches split ih =>
        have isPart := reaches.mem_parts
        have member : child ∈ part.children := split ▸ List.mem_append_cons_self
        have fits := program.fits_outline part isPart
        by_cases returns : part.tag = .return
        · exact .inr (fits.isValue (.inl returns) member)
        have isChild : tree.IsChild part.label.node child.label.node :=
          ⟨_, (represents.isHeld part isPart).children fun same => absurd same returns,
            List.mem_map_of_mem member⟩
        have tagged := represents.tag?_eq isPart
        by_cases isFunction : part.tag = .function
        · exact .inl (.inr ⟨_, .of_isChild (tagged.trans (congrArg some isFunction)) isChild⟩)
        rcases ih with (none | ⟨function, around⟩) | isValue
        · exact .inl (.inl (Outline.strayReturns_of_mem_children none isFunction member))
        · refine .inl (.inr ⟨function, around.child ?_ isChild⟩)
          rw [tagged]
          simpa using isFunction
        · exact .inr (fits.isValue (.inr isValue) member)
  obtain ⟨found, present, tag⟩ := Option.map_eq_some_iff.mp isReturn
  obtain ⟨part, isPart, -, rfl, sameTag, -⟩ := represents.exists_isHeld present
  rw [tag] at sameTag
  obtain ⟨passed, reaches⟩ := Outline.exists_reaches_of_mem isPart
  rcases down passed part reaches with (none | around) | isExpression | isOperand
  · obtain ⟨label, tag, children⟩ := part
    cases sameTag
    simp [Outline.strayReturns] at none
  · exact around
  · rw [sameTag] at isExpression
    cases isExpression
  · rw [sameTag] at isOperand
    cases isOperand

end Tree.Represents

end Frontend
