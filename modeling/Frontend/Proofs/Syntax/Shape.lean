import Frontend.Proofs.Syntax.Numbering

/-!
# Shapes of phrases

What is left of a phrase without its labels is its shape. A phrase is known by its shape
and the list of its labels. So if two rows of statements have one shape, and their nodes
are numbered one by one, they differ only in the number with which they start.
-/

namespace Frontend

variable {Label Other Further : Type}

/-! ## Replacing labels twice -/

theorem Expression.map_map
    (change : Label -> Other)
    (next : Other -> Further)
    (expression : Expression Label) :
    (expression.map change).map next = expression.map (next ∘ change) := by
  induction expression with
  | identifier => simp [map]
  | literal => simp [map]
  | unary label operator operand operandMapped => simp [map, operandMapped]
  | binary label operator left right leftMapped rightMapped =>
      simp [map, leftMapped, rightMapped]
  | call label callee arguments calleeMapped argumentsMapped =>
      simp only [map, calleeMapped, List.map_map, call.injEq, Function.comp_apply, true_and]
      exact List.map_congr_left argumentsMapped

theorem Whole.map_map
    (change : Label -> Other)
    (next : Other -> Further)
    (whole : Whole Label) :
    (whole.map change).map next = whole.map (next ∘ change) := by
  simp [map, Expression.map_map]

theorem Statement.map_map
    (change : Label -> Other)
    (next : Other -> Further)
    (statement : Statement Label) :
    (statement.map change).map next = statement.map (next ∘ change) := by
  induction statement with
  | binding => simp [map, Whole.map_map]
  | assign => simp [map, Whole.map_map]
  | evaluate => simp [map, Whole.map_map]
  | return_ label value =>
      cases value <;> simp [map, Whole.map_map]
  | block label statements mapped =>
      simp only [map, List.map_map, block.injEq, Function.comp_apply, true_and]
      exact List.map_congr_left mapped
  | function label name parameters bodyLabel body mapped =>
      simp only [map, List.map_map, function.injEq, Function.comp_apply, true_and]
      exact List.map_congr_left mapped

theorem Statement.label_map (change : Label -> Other) (statement : Statement Label) :
    (statement.map change).label = change statement.label := by
  cases statement <;> simp [map, label]

/-! ## Shapes and labels -/

theorem Statement.label_mem_labels (statement : Statement Label) :
    statement.label ∈ statement.labels := by
  cases statement <;> simp [label, labels]

/-- A row is known by the shapes of its items and the labels of all of them. -/
theorem eq_of_flatten_eq
    {Item Shape : Type}
    {shape : Item -> Shape}
    {labels : Item -> List Label}
    (sized : ∀ {item other}, shape item = shape other ->
      (labels item).length = (labels other).length) :
    ∀ {items others : List Item},
      items.map shape = others.map shape ->
        (items.map labels).flatten = (others.map labels).flatten ->
          (∀ item ∈ items, ∀ other, shape item = shape other -> labels item = labels other ->
            item = other) ->
            items = others
  | [], [], _, _, _ => rfl
  | item :: items, other :: others, shapes, same, known => by
      simp only [List.map_cons, List.cons.injEq] at shapes
      simp only [List.map_cons, List.flatten_cons] at same
      obtain ⟨first, rest⟩ := List.append_inj same (sized shapes.1)
      rw [known item List.mem_cons_self other shapes.1 first]
      rw [eq_of_flatten_eq sized shapes.2 rest fun item member =>
        known item (List.mem_cons_of_mem _ member)]

section Shapes

variable {change : Label -> Other}

theorem Expression.length_labels
    {expression other : Expression Label}
    (shape : expression.map change = other.map change) :
    expression.labels.length = other.labels.length := by
  rw [← List.length_map change, ← labels_map, shape, labels_map, List.length_map]

theorem Whole.length_labels
    {whole other : Whole Label}
    (shape : whole.map change = other.map change) :
    whole.labels.length = other.labels.length := by
  have same := Expression.length_labels (congrArg Whole.inner shape)
  simp [labels, same]

theorem Statement.length_labels
    {statement other : Statement Label}
    (shape : statement.map change = other.map change) :
    statement.labels.length = other.labels.length := by
  rw [← List.length_map change, ← labels_map, shape, labels_map, List.length_map]

theorem Expression.eq_of_labels
    {expression other : Expression Label}
    (shape : expression.map change = other.map change)
    (same : expression.labels = other.labels) :
    expression = other := by
  induction expression generalizing other with
  | identifier label =>
      cases other <;> simp only [map, reduceCtorEq] at shape
      simpa [labels] using same
  | literal label base =>
      cases other <;> simp only [map, reduceCtorEq, literal.injEq] at shape
      simpa [labels, shape] using same
  | unary label operator operand known =>
      cases other <;> simp only [map, reduceCtorEq, unary.injEq] at shape
      obtain ⟨-, rfl, operandShape⟩ := shape
      rw [labels, labels] at same
      obtain ⟨inner, last⟩ := List.append_inj' same rfl
      rw [known operandShape inner, List.singleton_inj.mp last]
  | binary label operator left right leftKnown rightKnown =>
      cases other <;> simp only [map, reduceCtorEq, binary.injEq] at shape
      obtain ⟨-, rfl, leftShape, rightShape⟩ := shape
      rw [labels, labels] at same
      obtain ⟨both, last⟩ := List.append_inj' same rfl
      obtain ⟨leftSame, rightSame⟩ := List.append_inj both (length_labels leftShape)
      rw [leftKnown leftShape leftSame, rightKnown rightShape rightSame,
        List.singleton_inj.mp last]
  | call label callee arguments calleeKnown argumentsKnown =>
      cases other <;> simp only [map, reduceCtorEq, call.injEq] at shape
      obtain ⟨-, calleeShape, argumentsShape⟩ := shape
      rw [labels, labels] at same
      obtain ⟨both, last⟩ := List.append_inj' same rfl
      obtain ⟨calleeSame, argumentsSame⟩ := List.append_inj both (length_labels calleeShape)
      rw [calleeKnown calleeShape calleeSame, List.singleton_inj.mp last,
        eq_of_flatten_eq length_labels argumentsShape argumentsSame
          fun argument member other => argumentsKnown argument member]

theorem Whole.eq_of_labels
    {whole other : Whole Label}
    (shape : whole.map change = other.map change)
    (same : whole.labels = other.labels) :
    whole = other := by
  obtain ⟨inner, last⟩ := List.append_inj' same rfl
  have known := Expression.eq_of_labels (congrArg Whole.inner shape) inner
  cases whole
  cases other
  rw [Whole.mk.injEq]
  exact ⟨List.singleton_inj.mp last, known⟩

/-- A statement is known by its shape and its labels. -/
theorem Statement.eq_of_labels
    {statement other : Statement Label}
    (shape : statement.map change = other.map change)
    (same : statement.labels = other.labels) :
    statement = other := by
  induction statement generalizing other with
  | binding label isConstant name value =>
      cases other <;> simp only [map, reduceCtorEq, binding.injEq] at shape
      obtain ⟨-, rfl, -, valueShape⟩ := shape
      rw [labels, labels] at same
      obtain ⟨both, last⟩ := List.append_inj' same rfl
      obtain ⟨rfl, valueSame⟩ := List.cons.inj both
      rw [Whole.eq_of_labels valueShape valueSame, List.singleton_inj.mp last]
  | assign label target value =>
      cases other <;> simp only [map, reduceCtorEq, assign.injEq] at shape
      obtain ⟨-, targetShape, valueShape⟩ := shape
      rw [labels, labels] at same
      obtain ⟨both, last⟩ := List.append_inj' same rfl
      obtain ⟨targetSame, valueSame⟩ := List.append_inj both (Whole.length_labels targetShape)
      rw [Whole.eq_of_labels targetShape targetSame, Whole.eq_of_labels valueShape valueSame,
        List.singleton_inj.mp last]
  | evaluate label expression =>
      cases other <;> simp only [map, reduceCtorEq, evaluate.injEq] at shape
      rw [labels, labels] at same
      obtain ⟨inner, last⟩ := List.append_inj' same rfl
      rw [Whole.eq_of_labels shape.2 inner, List.singleton_inj.mp last]
  | return_ label value =>
      cases other <;> simp only [map, reduceCtorEq, «return».injEq] at shape
      rw [labels, labels] at same
      obtain ⟨inner, last⟩ := List.append_inj' same rfl
      rename_i otherValue
      rw [List.singleton_inj.mp last]
      cases value <;> cases otherValue <;> simp only [Option.map_none, Option.map_some,
        reduceCtorEq, Option.some.injEq, and_false] at shape
      · rfl
      · rw [Whole.eq_of_labels shape.2 inner]
  | block label statements known =>
      cases other <;> simp only [map, reduceCtorEq, block.injEq] at shape
      rw [labels, labels] at same
      obtain ⟨inner, last⟩ := List.append_inj' same rfl
      rw [List.singleton_inj.mp last, eq_of_flatten_eq length_labels shape.2 inner
        fun statement member other => known statement member]
  | function label name parameters bodyLabel body known =>
      cases other <;> simp only [map, reduceCtorEq, function.injEq] at shape
      obtain ⟨-, -, parametersShape, -, bodyShape⟩ := shape
      rw [labels, labels] at same
      obtain ⟨both, last⟩ := List.append_inj' same rfl
      rw [List.cons_append, List.cons_append] at both
      obtain ⟨rfl, rest⟩ := List.cons.inj both
      have sized := congrArg List.length parametersShape
      rw [List.length_map, List.length_map] at sized
      obtain ⟨rfl, bodies⟩ := List.append_inj rest sized
      obtain ⟨bodySame, bodyLast⟩ := List.append_inj' bodies rfl
      rw [List.singleton_inj.mp last, List.singleton_inj.mp bodyLast,
        eq_of_flatten_eq length_labels bodyShape bodySame
          fun statement member other => known statement member]

/-- Nothing changes if each label is replaced by itself. -/
theorem Expression.map_id (expression : Expression Label) :
    expression.map id = expression := by
  refine eq_of_labels (expression.map_map id id) ?_
  rw [labels_map, List.map_id]

theorem Statement.map_id (statement : Statement Label) : statement.map id = statement := by
  refine eq_of_labels (statement.map_map id id) ?_
  rw [labels_map, List.map_id]

end Shapes

/-! ## Numbered statements of one shape -/

/-- The same mark, some nodes and some tokens further on. -/
def Mark.shift (nodes tokens : Nat) (mark : Mark) : Mark :=
  ⟨nodes + mark.node, tokens + mark.token⟩

/-- Marks are known by their nodes and their tokens. -/
theorem Mark.eq_of_map_eq :
    ∀ {marks others : List Mark},
      marks.map Mark.node = others.map Mark.node ->
        marks.map Mark.token = others.map Mark.token -> marks = others
  | [], [], _, _ => rfl
  | ⟨_, _⟩ :: marks, ⟨_, _⟩ :: others, nodes, tokens => by
      simp only [List.map_cons, List.cons.injEq] at nodes tokens
      rw [nodes.1, tokens.1, eq_of_map_eq nodes.2 tokens.2]

theorem flatten_labels_map
    (change : Label -> Other)
    (statements : List (Statement Label)) :
    ((statements.map (·.map change)).map (·.labels)).flatten =
      (statements.map (·.labels)).flatten.map change := by
  rw [List.map_flatten, List.map_map, List.map_map]
  congr 1
  exact List.map_congr_left fun statement _ => statement.labels_map change

/-- Rows of statements that differ in where their tokens stand, and that are numbered one
by one, differ in where the numbers start. -/
theorem eq_shift_of_numbered
    {statements others : List (Statement Mark)}
    {start stop nodes otherStop tokens : Nat}
    (numbered : Numbered start stop (statements.map (·.labels)).flatten)
    (otherNumbered : Numbered (nodes + start) otherStop (others.map (·.labels)).flatten)
    (same : others.map (·.map Mark.token) =
      (statements.map (·.map Mark.token)).map (·.map (tokens + ·))) :
    others = statements.map (·.map (Mark.shift nodes tokens)) := by
  have shapes : others.map (·.map Mark.token) =
      (statements.map (·.map (Mark.shift nodes tokens))).map (·.map Mark.token) := by
    rw [same, List.map_map, List.map_map]
    refine List.map_congr_left fun statement _ => ?_
    simp only [Function.comp_apply, Statement.map_map]
    rfl
  refine eq_of_flatten_eq Statement.length_labels shapes ?_
    fun statement _ other => Statement.eq_of_labels
  have tokensSame := congrArg (fun row => (row.map (·.labels)).flatten) same
  simp only [flatten_labels_map] at tokensSame
  have sized := congrArg List.length tokensSame
  simp only [List.length_map] at sized
  rw [flatten_labels_map]
  apply Mark.eq_of_map_eq
  · have moved : (Mark.node ∘ Mark.shift nodes tokens) = (nodes + ·) ∘ Mark.node :=
      rfl
    rw [otherNumbered.2, List.map_map, moved, ← List.map_map, numbered.2, List.map_add_range',
      sized]
  · rw [tokensSame, List.map_map, List.map_map]
    rfl

end Frontend
