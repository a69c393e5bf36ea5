import Frontend.Proofs.Syntax.Dumping

/-!
# Outlines as nested lists

The dump of an outline is the text of a nested list. It leaves out the wrappers of whole
expressions, has one name for two operators, and writes leaves of all kinds side by side.
Still an outline can be told from it: wrappers stand where statements have their parts,
operators of one name differ in the number of their operands, and the text of a leaf
tells its kind.
-/

namespace Frontend

/-! ## Names -/

/-- The phrases that can stand in the same places. -/
inductive Tag.Role
  | program
  | statement
  | whole
  | operand
  deriving DecidableEq, Repr

namespace Tag

/-- Where a phrase with this tag can stand. -/
def role : Tag -> Role
  | .root => .program
  | .constant | .mutable | .assign | .evaluate | .return | .block | .function => .statement
  | .expression => .whole
  | .identifier | .literal _ | .unary _ | .binary _ | .call => .operand

theorem role_of_isStatement {tag : Tag} (isStatement : tag.isStatement = true) :
    tag.role = .statement := by
  cases tag <;> first | rfl | cases isStatement

theorem role_of_isOperand {tag : Tag} (isOperand : tag.isOperand = true) :
    tag.role = .operand := by
  cases tag <;> first | rfl | cases isOperand

theorem role_of_isLeaf {tag : Tag} (outer : tag.isLeaf = true) : tag.role = .operand := by
  cases tag <;> first | rfl | cases outer

theorem role_eq_whole_iff {tag : Tag} : tag.role = .whole ↔ tag = .expression := by
  cases tag <;> simp [role]

/-- What stands below a tag is known by its place. -/
theorem map_role_eq
    {tag : Tag}
    {children others : List Tag}
    (admits : tag.Admits children)
    (otherAdmits : tag.Admits others)
    (same : children.length = others.length) :
    children.map role = others.map role := by
  have constant {children : List Tag} {kind : Role}
      (each : ∀ child ∈ children, child.role = kind) :
      children.map role = List.replicate children.length kind := by
    rw [List.eq_replicate_iff]
    simpa using each
  cases tag with
  | root | block =>
      rw [constant fun child member => role_of_isStatement (admits child member),
        constant fun child member => role_of_isStatement (otherAdmits child member), same]
  | function =>
      obtain ⟨parameters, rfl⟩ := admits
      obtain ⟨otherParameters, rfl⟩ := otherAdmits
      obtain rfl : parameters = otherParameters := by simpa using same
      rfl
  | constant | mutable | assign | evaluate | identifier | literal =>
      rw [show children = _ from admits, show others = _ from otherAdmits]
  | «return» =>
      rcases admits with rfl | rfl <;> rcases otherAdmits with rfl | rfl
      · rfl
      · cases same
      · cases same
      · rfl
  | expression | unary | binary | call =>
      rw [constant fun child member => role_of_isOperand (admits child member),
        constant fun child member => role_of_isOperand (otherAdmits child member), same]

/-- The number of children of wrappers and operators. -/
def arity? : Tag -> Option Nat
  | .expression | .unary _ => some 1
  | .binary _ => some 2
  | _ => none

theorem isWord_name (tag : Tag) : Nested.IsWord tag.name.toList := by
  cases tag with
  | literal base => cases base <;> decide
  | unary operator => cases operator <;> decide
  | binary operator => cases operator <;> decide
  | _ => decide

end Tag

theorem UnaryOperator.name_injective : Function.Injective UnaryOperator.name := by
  intro operator other same
  cases operator <;> cases other <;> simp_all [UnaryOperator.name]

theorem BinaryOperator.name_injective : Function.Injective BinaryOperator.name := by
  intro operator other same
  cases operator <;> cases other <;> simp_all [BinaryOperator.name]

theorem UnaryOperator.name_ne_call (operator : UnaryOperator) :
    (Tag.unary operator).name ≠ Tag.call.name := by
  cases operator <;> decide

theorem BinaryOperator.name_ne_call (operator : BinaryOperator) :
    (Tag.binary operator).name ≠ Tag.call.name := by
  cases operator <;> decide

namespace Tag

/-- The tags of statements. -/
def statements : List Tag :=
  [.constant, .mutable, .assign, .evaluate, .return, .block, .function]

theorem mem_statements {tag : Tag} (isStatement : tag.role = .statement) :
    tag ∈ statements := by
  cases tag <;> cases isStatement <;> decide

theorem eq_of_name_eq_of_mem_statements :
    ∀ tag ∈ statements, ∀ other ∈ statements, tag.name = other.name -> tag = other := by
  decide

/-- Names that can stand in the same place are different but for operators with
different numbers of operands. -/
theorem eq_of_name_eq
    {tag other : Tag}
    (listed : tag.isListed = true)
    (otherListed : other.isListed = true)
    (alike : tag.role = other.role)
    (sameArity : ∀ count ∈ tag.arity?, ∀ otherCount ∈ other.arity?, count = otherCount)
    (same : tag.name = other.name) :
    tag = other := by
  cases role : tag.role with
  | program =>
      cases tag <;> cases role
      cases other <;> first | rfl | cases alike
  | statement =>
      exact eq_of_name_eq_of_mem_statements tag (mem_statements role) other
        (mem_statements (alike.symm.trans role)) same
  | whole =>
      rw [role_eq_whole_iff.mp role, role_eq_whole_iff.mp (alike.symm.trans role)]
  | operand =>
      have otherRole := alike.symm.trans role
      cases tag with
      | unary operator =>
          cases other with
          | unary otherOperator => rw [UnaryOperator.name_injective same]
          | binary => cases sameArity 1 rfl 2 rfl
          | call => exact absurd same operator.name_ne_call
          | identifier | literal => cases otherListed
          | _ => cases otherRole
      | binary operator =>
          cases other with
          | unary => cases sameArity 2 rfl 1 rfl
          | binary otherOperator => rw [BinaryOperator.name_injective same]
          | call => exact absurd same operator.name_ne_call
          | identifier | literal => cases otherListed
          | _ => cases otherRole
      | call =>
          cases other with
          | unary operator | binary operator => exact absurd same.symm operator.name_ne_call
          | call => rfl
          | identifier | literal => cases otherListed
          | _ => cases otherRole
      | identifier | literal => cases listed
      | _ => cases role

/-! ## Leaves -/

/-- The tag of the leaf that is spelled like this outside of quotes. -/
def ofSpelling (text : String) : Tag :=
  if text.toList.head?.any Char.isDigit then
    if text.toList.contains '.' then .literal .float else .literal .int
  else if text = "true" ∨ text = "false" then
    .literal .bool
  else
    .identifier

/-- The text is that of a leaf with this tag. A string literal has any text. -/
def Spells (tag : Tag) (text : String) : Prop :=
  tag = .literal .string ∨ (Nested.IsWord text.toList ∧ tag = ofSpelling text)

end Tag

namespace Nested

/-- A leaf as it is dumped. -/
def ofLeaf (tag : Tag) (text : String) : Nested :=
  if tag = .literal .string then .string text else .word text.toList

theorem print_ofLeaf (tag : Tag) (text : String) :
    (ofLeaf tag text).print = (tag.leafText text).toList := by
  unfold ofLeaf Tag.leafText
  split
  · rw [print_string]
  · rw [print_word]

theorem legible_ofLeaf {tag : Tag} {text : String} (spells : tag.Spells text) :
    (ofLeaf tag text).Legible := by
  unfold ofLeaf
  split
  next => exact .string text
  next different => exact .word (spells.resolve_left different).1

/-- The kind of a leaf can be told from its text. -/
theorem ofLeaf_inj
    {tag other : Tag}
    {text twin : String}
    (spells : tag.Spells text)
    (otherSpells : other.Spells twin)
    (same : ofLeaf tag text = ofLeaf other twin) :
    tag = other ∧ text = twin := by
  unfold ofLeaf at same
  split at same <;> split at same
  next isString otherIsString =>
    cases same
    exact ⟨isString.trans otherIsString.symm, rfl⟩
  next => cases same
  next => cases same
  next different otherDifferent =>
    obtain rfl : text = twin := String.toList_inj.mp (word.inj same)
    rw [(spells.resolve_left different).2, (otherSpells.resolve_left otherDifferent).2]
    exact ⟨rfl, rfl⟩

theorem ofLeaf_ne_list (tag : Tag) (text : String) (name : List Char) (items : List Nested) :
    ofLeaf tag text ≠ .list name items := by
  unfold ofLeaf
  split <;> simp

end Nested

/-! ## Outlines -/

namespace Outline

/-- The outermost node is one that a program can have: its children go with its tag, and
if it is a leaf, then so does its text. -/
structure IsFormed (outline : Outline (Option String)) : Prop where
  fits : outline.Fits
  arity : ∀ count ∈ outline.tag.arity?, outline.children.length = count
  spelled : outline.tag.isLeaf = true -> ∃ text ∈ outline.label, outline.tag.Spells text
  unlabelled : outline.tag.isLeaf = false -> outline.label = none

variable {tag : Tag} {label : Option String} {children : List (Outline (Option String))}

/-- A node is a leaf, the wrapper of a whole expression or a list. -/
theorem IsFormed.cases (formed : (node label tag children).IsFormed) :
    (tag.isLeaf = true ∧ children = [] ∧ ∃ text, label = some text ∧ tag.Spells text) ∨
      (tag = .expression ∧ label = none ∧ ∃ inner, children = [inner]) ∨
      (tag.isListed = true ∧ label = none) := by
  cases outer : tag.isLeaf with
  | true =>
      obtain ⟨text, rfl, spells⟩ := formed.spelled outer
      have fits := formed.fits
      refine .inl ⟨rfl, ?_, text, rfl, spells⟩
      cases tag <;> cases outer <;> exact List.map_eq_nil_iff.mp fits
  | false =>
      have unlabelled := formed.unlabelled outer
      by_cases isExpression : tag = .expression
      · subst isExpression
        exact .inr (.inl ⟨rfl, unlabelled, List.length_eq_one_iff.mp (formed.arity 1 rfl)⟩)
      · exact .inr (.inr ⟨Tag.isListed_iff.mpr ⟨outer, isExpression⟩, unlabelled⟩)

/-- An outline as a nested list. -/
def nested : Outline (Option String) -> Nested
  | .node label tag children =>
      if tag.isLeaf then
        .ofLeaf tag (label.getD "")
      else if tag = .expression then
        (children.map nested).headD (.word [])
      else
        .list tag.name.toList (children.map nested)

theorem nested_leaf (outer : tag.isLeaf = true) (text : String) :
    (node (some text) tag children).nested = .ofLeaf tag text := by
  rw [nested, if_pos outer, Option.getD_some]

theorem nested_expression (inner : Outline (Option String)) :
    (node label .expression [inner]).nested = inner.nested := by
  rw [nested, if_neg (by decide), if_pos rfl, List.map_singleton, List.headD_cons]

theorem nested_listed (listed : tag.isListed = true) :
    (node label tag children).nested = .list tag.name.toList (children.map nested) := by
  obtain ⟨inner, different⟩ := Tag.isListed_iff.mp listed
  rw [nested, inner, if_neg Bool.false_ne_true, if_neg different]

/-- The dump of an outline is the text of its nested list. -/
theorem toList_dump
    {outline : Outline (Option String)}
    (formed : ∀ part ∈ outline.parts, part.IsFormed) :
    outline.dump.toList = outline.nested.print := by
  induction outline with
  | node label tag children written =>
      rw [forall_parts_node] at formed
      obtain ⟨outer, rfl, text, rfl, -⟩ | ⟨rfl, rfl, inner, rfl⟩ | ⟨listed, -⟩ := formed.1.cases
      · rw [dump_leaf outer, nested_leaf outer, Nested.print_ofLeaf]
      · rw [dump_expression, nested_expression]
        exact written inner (by simp) (formed.2 inner (by simp))
      · have items : (children.map fun child => ' ' :: child.dump.toList).flatten =
            Nested.printItems (children.map nested) := by
          rw [Nested.printItems, List.map_map]
          congr 1
          exact List.map_congr_left fun child member =>
            congrArg (' ' :: ·) (written child member (formed.2 child member))
        rw [dump_listed listed, nested_listed listed, Nested.print_list, ← items]
        simp only [String.toList_append, String.toList_join, List.flatMap_def, List.map_cons,
          List.map_map, Function.comp_def, List.flatten_cons, List.append_assoc]
        rfl

theorem legible_nested
    {outline : Outline (Option String)}
    (formed : ∀ part ∈ outline.parts, part.IsFormed) :
    outline.nested.Legible := by
  induction outline with
  | node label tag children legible =>
      rw [forall_parts_node] at formed
      obtain ⟨outer, rfl, text, rfl, spells⟩ | ⟨rfl, rfl, inner, rfl⟩ | ⟨listed, -⟩ :=
        formed.1.cases
      · rw [nested_leaf outer]
        exact Nested.legible_ofLeaf spells
      · rw [nested_expression]
        exact legible inner (by simp) (formed.2 inner (by simp))
      · rw [nested_listed listed]
        refine .list tag.isWord_name ?_
        rw [List.forall_mem_map]
        exact fun child member => legible child member (formed.2 child member)

/-- Outlines that stand in the same place can be told from their nested lists. -/
theorem eq_of_nested_eq
    {first second : Outline (Option String)}
    (formed : ∀ part ∈ first.parts, part.IsFormed)
    (otherFormed : ∀ part ∈ second.parts, part.IsFormed)
    (alike : first.tag.role = second.tag.role)
    (same : first.nested = second.nested) :
    first = second := by
  induction first generalizing second with
  | node label tag children told =>
      obtain ⟨other, twin, others⟩ := second
      rw [forall_parts_node] at formed otherFormed
      rw [tag_node, tag_node] at alike
      -- Children at the same place of nodes with the same tag have the same role.
      have childrenEqual (sameTag : tag = twin)
          (sameItems : children.map nested = others.map nested) : children = others := by
        subst sameTag
        have sameLength : children.length = others.length := by
          simpa using congrArg List.length sameItems
        have sameRoles := Tag.map_role_eq formed.1.fits otherFormed.1.fits
          (by simpa using sameLength)
        refine List.ext_getElem sameLength fun index inside otherInside => ?_
        refine told _ (List.getElem_mem inside) (formed.2 _ (List.getElem_mem inside))
          (otherFormed.2 _ (List.getElem_mem otherInside)) ?_ ?_
        · simpa [inside, otherInside] using congrArg (·[index]?) sameRoles
        · simpa [inside, otherInside] using congrArg (·[index]?) sameItems
      obtain ⟨outer, rfl, text, rfl, spells⟩ | ⟨rfl, rfl, inner, rfl⟩ | ⟨listed, rfl⟩ :=
          formed.1.cases <;>
        obtain ⟨otherOuter, rfl, otherText, rfl, otherSpells⟩ | ⟨rfl, rfl, otherInner, rfl⟩ |
            ⟨otherListed, rfl⟩ :=
          otherFormed.1.cases
      -- A leaf
      · rw [nested_leaf outer, nested_leaf otherOuter] at same
        obtain ⟨rfl, rfl⟩ := Nested.ofLeaf_inj spells otherSpells same
        rfl
      · rw [Tag.role_of_isLeaf outer] at alike
        cases alike
      · rw [nested_leaf outer, nested_listed otherListed] at same
        exact absurd same (Nested.ofLeaf_ne_list _ _ _ _)
      -- A whole expression
      · rw [Tag.role_of_isLeaf otherOuter] at alike
        cases alike
      · rw [nested_expression, nested_expression] at same
        rw [childrenEqual rfl (by rw [List.map_singleton, List.map_singleton, same])]
      · rw [Tag.role_eq_whole_iff.mp alike.symm] at otherListed
        cases otherListed
      -- A list
      · rw [nested_listed listed, nested_leaf otherOuter] at same
        exact absurd same.symm (Nested.ofLeaf_ne_list _ _ _ _)
      · rw [Tag.role_eq_whole_iff.mp alike] at listed
        cases listed
      · rw [nested_listed listed, nested_listed otherListed] at same
        obtain ⟨sameName, sameItems⟩ := Nested.list.inj same
        have sameLength : children.length = others.length := by
          simpa using congrArg List.length sameItems
        obtain rfl := Tag.eq_of_name_eq listed otherListed alike
          (fun count isCount otherCount isOtherCount =>
            (formed.1.arity count isCount).symm.trans
              (sameLength.trans (otherFormed.1.arity otherCount isOtherCount)))
          (String.toList_inj.mp sameName)
        rw [childrenEqual rfl sameItems]

/-- Outlines that stand in the same place can be told from their dumps. -/
theorem eq_of_dump_eq
    {first second : Outline (Option String)}
    (formed : ∀ part ∈ first.parts, part.IsFormed)
    (otherFormed : ∀ part ∈ second.parts, part.IsFormed)
    (alike : first.tag.role = second.tag.role)
    (same : first.dump = second.dump) :
    first = second := by
  apply eq_of_nested_eq formed otherFormed alike
  have printed : first.nested.print ++ [] = second.nested.print ++ [] := by
    rw [← toList_dump formed, ← toList_dump otherFormed, same]
  exact (Nested.print_append_inj (legible_nested formed) (legible_nested otherFormed)
    Nested.endsWord_nil Nested.endsWord_nil printed).1

end Outline
end Frontend
