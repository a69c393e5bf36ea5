import Frontend.Proofs.Syntax.Numbering

/-!
# Lexical scoping

The meaning of identifiers by recursion over the phrases of a program. Where an
identifier stands is described by an environment, the stack of the scopes around it
with what each of them has declared so far. A program, a block and a function each
open a scope, and the body of a function opens a further one. A name is in force
from its declaration to the end of the scope, so a constant in its own initial
value and a function in its own body.
-/

namespace Frontend

/-- What an identifier turns out to be. -/
inductive Finding
  /-- It declares its text; `again` says whether its scope has done so before. -/
  | declares (mark : Mark) (again : Bool)
  /-- It refers to a declaration. -/
  | uses (mark declaration : Mark)
  /-- No declaration of its text is in force. -/
  | lacks (mark : Mark)
  deriving DecidableEq, Repr

namespace Finding

/-- The identifier that was looked at. -/
def mark : Finding -> Mark
  | declares mark _ | uses mark _ | lacks mark => mark

/-- The declaring node. -/
def declared? : Finding -> Option NodeId
  | declares mark _ => some mark.node
  | uses _ _ | lacks _ => none

/-- The using node with the node of the declaration. -/
def usage? : Finding -> Option (NodeId × NodeId)
  | uses mark declaration => some (mark.node, declaration.node)
  | declares _ _ | lacks _ => none

end Finding

/-- The scopes around a place, innermost first, each with the texts that it has
declared and their declarations, latest first. -/
abbrev Environment := List (List (String × Mark))

namespace Environment

variable (environment : Environment)

/-- The latest declaration of a text in the innermost scope that has one. -/
def find? (text : String) : Option Mark :=
  environment.findSome? fun scope => scope.lookup text

/-- A scope that has declared nothing finds nothing. -/
theorem find?_nil_cons (text : String) :
    find? ([] :: environment) text = environment.find? text :=
  rfl

/-- A declaration hides the earlier ones of its text, and no others. -/
theorem find?_cons_cons
    (scope : List (String × Mark))
    (key text : String)
    (mark : Mark) :
    find? (((key, mark) :: scope) :: environment) text =
      if text = key then some mark else find? (scope :: environment) text := by
  unfold find?
  rw [List.findSome?_cons, List.findSome?_cons, List.lookup_cons]
  by_cases same : text = key
  · simp [same]
  · simp [same, beq_eq_false_iff_ne.mpr same]

variable (lexeme : Mark -> String) (mark : Mark)

/-- The environment after a declaration in the innermost scope. -/
def declare : Environment :=
  match environment with
  | [] => [[(lexeme mark, mark)]]
  | scope :: outer => ((lexeme mark, mark) :: scope) :: outer

/-- What a declaring identifier turns out to be. -/
def declaring : Finding :=
  .declares mark ((environment.headD []).lookup (lexeme mark)).isSome

/-- What an identifier turns out to be that does not declare anything. -/
def referring : Finding :=
  match environment.find? (lexeme mark) with
  | some declaration => .uses mark declaration
  | none => .lacks mark

/-- The environment after declarations in a row. -/
def declareAll (marks : List Mark) : Environment :=
  marks.foldl (fun environment mark => environment.declare lexeme mark) environment

/-- What identifiers turn out to be that are declared in a row. -/
def declaringAll (environment : Environment) : List Mark -> List Finding
  | [] => []
  | mark :: marks =>
      environment.declaring lexeme mark ::
        declaringAll (environment.declare lexeme mark) marks

end Environment

section Findings

variable (lexeme : Mark -> String)

/-- What the identifiers in an expression turn out to be. None of them declares
anything. -/
def Expression.findings (environment : Environment) : Expression Mark -> List Finding
  | .identifier mark => [environment.referring lexeme mark]
  | .literal _ _ => []
  | .unary _ _ operand => operand.findings environment
  | .binary _ _ left right => left.findings environment ++ right.findings environment
  | .call _ callee arguments =>
      callee.findings environment ++ (arguments.map (findings environment)).flatten

/-- The environment after a statement, if `environment` is the one before it. -/
def Statement.environmentAfter (environment : Environment) :
    Statement Mark -> Environment
  | .binding _ _ name _ | .function _ name _ _ _ => environment.declare lexeme name
  | .assign _ _ _ | .evaluate _ _ | .return _ _ | .block _ _ => environment

mutual

/-- What the identifiers in a statement turn out to be, in the order of the text. -/
def Statement.findings (environment : Environment) : Statement Mark -> List Finding
  | .binding _ _ name value =>
      environment.declaring lexeme name ::
        value.inner.findings lexeme (environment.declare lexeme name)
  | .assign _ target value =>
      target.inner.findings lexeme environment ++ value.inner.findings lexeme environment
  | .evaluate _ expression => expression.inner.findings lexeme environment
  | .return _ value =>
      (value.toList.map fun whole => whole.inner.findings lexeme environment).flatten
  | .block _ statements => Statement.findingsInRow ([] :: environment) statements
  | .function _ name parameters _ body =>
      let around := environment.declare lexeme name
      let within := Environment.declareAll ([] :: around) lexeme parameters
      environment.declaring lexeme name ::
        (Environment.declaringAll lexeme ([] :: around) parameters ++
          Statement.findingsInRow ([] :: within) body)

/-- What the identifiers in statements turn out to be that follow each other. -/
def Statement.findingsInRow (environment : Environment) :
    List (Statement Mark) -> List Finding
  | [] => []
  | statement :: statements =>
      statement.findings environment ++
        Statement.findingsInRow (statement.environmentAfter lexeme environment) statements

end

/-- What the identifiers in a program turn out to be. -/
def Program.findings (program : Program Mark) : List Finding :=
  Statement.findingsInRow lexeme [[]] program.statements

end Findings

/-! ## The identifiers of a program -/

/-- The identifiers in an expression, in the order of the text. -/
def Expression.identifiers : Expression Mark -> List Mark
  | .identifier mark => [mark]
  | .literal _ _ => []
  | .unary _ _ operand => operand.identifiers
  | .binary _ _ left right => left.identifiers ++ right.identifiers
  | .call _ callee arguments =>
      callee.identifiers ++ (arguments.map identifiers).flatten

/-- The identifiers in a statement, in the order of the text. -/
def Statement.identifiers : Statement Mark -> List Mark
  | .binding _ _ name value => name :: value.inner.identifiers
  | .assign _ target value => target.inner.identifiers ++ value.inner.identifiers
  | .evaluate _ expression => expression.inner.identifiers
  | .return _ value => (value.toList.map (·.inner.identifiers)).flatten
  | .block _ statements => (statements.map identifiers).flatten
  | .function _ name parameters _ body =>
      name :: parameters ++ (body.map identifiers).flatten

section Tags

/-- The node of the mark has the tag of an identifier. -/
def Mark.isTagged (nodes : Array Node) (mark : Mark) : Bool :=
  nodes[mark.node]?.any fun node => node.tag = .identifier

variable {nodes : Array Node} {extra : Array Nat}

theorem Mark.isTagged_iff {mark : Mark} :
    mark.isTagged nodes = true ↔
      ∃ node, nodes[mark.node]? = some node ∧ node.tag = .identifier := by
  simp [isTagged, Option.any_eq_true]

/-- Choosing from lists chooses from each of them. -/
theorem filter_flatten_map
    {Item Part : Type}
    {chosen : Part -> Bool}
    {parts fewer : Item -> List Part}
    {items : List Item}
    (same : ∀ item ∈ items, (parts item).filter chosen = fewer item) :
    (items.map parts).flatten.filter chosen = (items.map fewer).flatten := by
  rw [List.filter_flatten, List.map_map]
  exact congrArg List.flatten (List.map_congr_left same)

/-- The identifiers of an expression are its nodes with the tag of an identifier.
Since they are leaves, they come in the order of the nodes. -/
theorem Expression.Holds.filter_labels
    {expression : Expression Mark}
    (held : expression.Holds nodes extra) :
    expression.labels.filter (Mark.isTagged nodes) = expression.identifiers := by
  induction held with
  | identifier present =>
      rw [Mark.IsIdentifier] at present
      simp [labels, identifiers, Mark.isTagged, present]
  | literal present => simp [labels, identifiers, Mark.isTagged, present]
  | unary present _ inside =>
      simp [labels, identifiers, inside, Mark.isTagged, present]
  | binary present _ _ leftInside rightInside =>
      simp [labels, identifiers, leftInside, rightInside, Mark.isTagged, present]
  | call present _ _ _ _ calleeInside argumentsInside =>
      rw [labels, identifiers, List.filter_append, List.filter_append, calleeInside,
        filter_flatten_map argumentsInside]
      simp [Mark.isTagged, present]

theorem Whole.Holds.filter_labels
    {whole : Whole Mark}
    (held : whole.Holds nodes extra) :
    whole.labels.filter (Mark.isTagged nodes) = whole.inner.identifiers := by
  rw [labels, List.filter_append, held.innerHeld.filter_labels]
  simp [Mark.isTagged, held.present]

/-- The identifiers of a statement are its nodes with the tag of an identifier. -/
theorem Statement.Holds.filter_labels
    {statement : Statement Mark}
    (held : statement.Holds nodes extra) :
    statement.labels.filter (Mark.isTagged nodes) = statement.identifiers := by
  induction held with
  | @binding mark name isConstant value present nameHeld valueHeld =>
      rw [Mark.IsIdentifier] at nameHeld
      cases isConstant <;>
        simp [labels, identifiers, valueHeld.filter_labels, Mark.isTagged, nameHeld, present,
          Tag.ofBinding]
  | assign present targetHeld valueHeld =>
      simp [labels, identifiers, targetHeld.filter_labels, valueHeld.filter_labels,
        Mark.isTagged, present]
  | evaluate present expressionHeld =>
      simp [labels, identifiers, expressionHeld.filter_labels, Mark.isTagged, present]
  | @«return» mark value present valueHeld =>
      cases value with
      | none => simp [labels, identifiers, Mark.isTagged, present]
      | some whole =>
          simp [labels, identifiers, (valueHeld whole rfl).filter_labels, Mark.isTagged,
            present]
  | block present _ _ inside =>
      rw [labels, identifiers, List.filter_append, filter_flatten_map inside]
      simp [Mark.isTagged, present]
  | @function mark name bodyMark parameters body _ _ _ present _ _ nameHeld parametersHeld
      bodyPresent _ _ inside =>
      have chosen : parameters.filter (Mark.isTagged nodes) = parameters := by
        rw [List.filter_eq_self]
        intro parameter member
        have parameterHeld := parametersHeld parameter member
        rw [Mark.IsIdentifier] at parameterHeld
        simp [Mark.isTagged, parameterHeld]
      rw [Mark.IsIdentifier] at nameHeld
      rw [labels, identifiers, List.filter_append, List.filter_append, List.filter_append,
        filter_flatten_map inside, List.filter_cons, chosen]
      simp [Mark.isTagged, present, bodyPresent, nameHeld]

end Tags

/-! ## Every identifier is looked at once -/

section Marks

variable (lexeme : Mark -> String)

@[simp] theorem Environment.mark_declaring (environment : Environment) (mark : Mark) :
    (environment.declaring lexeme mark).mark = mark :=
  rfl

@[simp] theorem Environment.mark_referring (environment : Environment) (mark : Mark) :
    (environment.referring lexeme mark).mark = mark := by
  unfold Environment.referring
  cases environment.find? (lexeme mark) <;> rfl

theorem Environment.map_mark_declaringAll (environment : Environment) (marks : List Mark) :
    (declaringAll lexeme environment marks).map Finding.mark = marks := by
  induction marks generalizing environment with
  | nil => rfl
  | cons mark marks ih =>
      rw [declaringAll, List.map_cons, mark_declaring, ih]

theorem Expression.map_mark_findings
    (environment : Environment)
    (expression : Expression Mark) :
    (expression.findings lexeme environment).map Finding.mark = expression.identifiers := by
  induction expression with
  | identifier mark => simp [findings, identifiers]
  | literal mark base => simp [findings, identifiers]
  | unary mark operator operand inside => simp [findings, identifiers, inside]
  | binary mark operator left right leftInside rightInside =>
      simp [findings, identifiers, leftInside, rightInside]
  | call mark callee arguments calleeInside argumentsInside =>
      rw [findings, identifiers, List.map_append, calleeInside, List.map_flatten,
        List.map_map]
      congr 2
      exact List.map_congr_left argumentsInside

/-- Statements in a row are looked at one after the other. -/
theorem Statement.map_mark_findingsInRow
    {statements : List (Statement Mark)}
    (inside : ∀ statement ∈ statements, ∀ environment,
      (statement.findings lexeme environment).map Finding.mark = statement.identifiers)
    (environment : Environment) :
    (findingsInRow lexeme environment statements).map Finding.mark =
      (statements.map identifiers).flatten := by
  induction statements generalizing environment with
  | nil => simp [findingsInRow]
  | cons statement statements ih =>
      rw [findingsInRow, List.map_append, inside statement (by simp),
        ih fun statement member => inside statement (by simp [member])]
      rfl

theorem Statement.map_mark_findings
    (environment : Environment)
    (statement : Statement Mark) :
    (statement.findings lexeme environment).map Finding.mark = statement.identifiers := by
  induction statement generalizing environment with
  | binding mark isConstant name value =>
      simp [findings, identifiers, Expression.map_mark_findings]
  | assign mark target value =>
      simp [findings, identifiers, Expression.map_mark_findings]
  | evaluate mark expression =>
      simp [findings, identifiers, Expression.map_mark_findings]
  | return_ mark value =>
      cases value <;> simp [findings, identifiers, Expression.map_mark_findings]
  | block mark statements inside =>
      rw [findings, identifiers, map_mark_findingsInRow lexeme inside]
  | function mark name parameters bodyMark body inside =>
      rw [findings, identifiers, List.map_cons, Environment.mark_declaring,
        List.map_append, Environment.map_mark_declaringAll,
        map_mark_findingsInRow lexeme inside]
      rfl

/-- A program looks at its identifiers in their order. -/
theorem Program.map_mark_findings (program : Program Mark) :
    (program.findings lexeme).map Finding.mark =
      (program.statements.map Statement.identifiers).flatten :=
  Statement.map_mark_findingsInRow lexeme
    (fun statement _ environment => statement.map_mark_findings lexeme environment) [[]]

/-- A program looks once at each of its identifiers, and at nothing else. -/
theorem Program.findings_exact
    {tree : Tree}
    {program : Program Mark}
    (represents : tree.Represents program) :
    ((program.findings lexeme).map (·.mark.node)).Nodup ∧
      ∀ id, id ∈ (program.findings lexeme).map (·.mark.node) ↔
        ∃ node, tree.nodes[id]? = some node ∧ node.tag = .identifier := by
  let labels := (program.statements.map Statement.labels).flatten
  have numbered : Numbered (Tree.root + 1) tree.nodes.size labels := represents.numbered
  have marks : (program.findings lexeme).map Finding.mark =
      labels.filter (Mark.isTagged tree.nodes) := by
    rw [filter_flatten_map fun statement member =>
      (represents.held.statementsHeld statement member).filter_labels]
    exact program.map_mark_findings lexeme
  have nodes : (program.findings lexeme).map (·.mark.node) =
      (labels.filter (Mark.isTagged tree.nodes)).map Mark.node := by
    rw [← marks, List.map_map]
    rfl
  rw [nodes]
  refine ⟨(List.filter_sublist.map Mark.node).nodup numbered.nodup, fun id => ⟨?_, ?_⟩⟩
  · intro member
    obtain ⟨mark, chosen, rfl⟩ := List.mem_map.mp member
    exact Mark.isTagged_iff.mp (List.mem_filter.mp chosen).2
  · rintro ⟨node, present, tagged⟩
    have proper : id ≠ Tree.root := by
      rintro rfl
      obtain ⟨start, rootPresent, -⟩ := represents.held.exists_run
      rw [represents.held.root, present, Option.some.injEq] at rootPresent
      rw [rootPresent] at tagged
      cases tagged
    obtain ⟨mark, member, rfl⟩ := numbered.exists_mem (Nat.pos_of_ne_zero proper)
      (Array.getElem?_eq_some_iff.mp present).1
    exact List.mem_map_of_mem
      (List.mem_filter.mpr ⟨member, Mark.isTagged_iff.mpr ⟨node, present, tagged⟩⟩)

end Marks

end Frontend
