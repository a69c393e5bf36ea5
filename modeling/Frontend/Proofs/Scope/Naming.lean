import Frontend.Proofs.Scope.Agreement

/-!
# Names

A finished walk gives every declaration a name of its own, and every usage the name
of its declaration. Identifiers without a declaration get no name.
-/

namespace Frontend

/-! ## The name of a declaration -/

/-- The text of a name ends with the number of the declaring node. -/
theorem QualifiedName.exists_toList_text_ofParts
    (scopes : List NodeId)
    (lexeme : String)
    (node : NodeId) :
    ∃ stem, (ofParts scopes lexeme node).text.toList = stem ++ '#' :: Nat.toDigits 10 node := by
  refine ⟨(String.join (scopes.map fun scope => s!"{scope}::") ++ lexeme).toList, ?_⟩
  have sameText : toString lexeme = lexeme := rfl
  have sameSign : toString "#" = "#" := rfl
  simp [ofParts, sameText, sameSign]

/-- Lists with the same last separator have the same items after it. -/
theorem eq_of_append_cons_eq
    {Item : Type}
    {first second rest other : List Item}
    {separator : Item}
    (same : first ++ separator :: rest = second ++ separator :: other)
    (absent : separator ∉ rest)
    (otherAbsent : separator ∉ other) :
    rest = other := by
  rcases List.append_eq_append_iff.mp same with ⟨middle, -, split⟩ | ⟨middle, -, split⟩
  · cases middle with
    | nil => exact (List.cons.inj split).2
    | cons item middle =>
        rw [(List.cons.inj split).2] at absent
        simp at absent
  · cases middle with
    | nil => exact (List.cons.inj split).2.symm
    | cons item middle =>
        rw [(List.cons.inj split).2] at otherAbsent
        simp at otherAbsent

/-- Different nodes declare different names. -/
theorem QualifiedName.ofParts_injective
    {scopes otherScopes : List NodeId}
    {lexeme otherLexeme : String}
    {node other : NodeId}
    (same : ofParts scopes lexeme node = ofParts otherScopes otherLexeme other) :
    node = other := by
  have absent : ∀ number, '#' ∉ Nat.toDigits 10 number := by
    intro number member
    have isDigit := Nat.isDigit_of_mem_toDigits (by decide) (by decide) member
    exact absurd isDigit (by decide)
  obtain ⟨stem, text⟩ := exists_toList_text_ofParts scopes lexeme node
  obtain ⟨otherStem, otherText⟩ := exists_toList_text_ofParts otherScopes otherLexeme other
  rw [same, otherText] at text
  have digits := eq_of_append_cons_eq text (absent other) (absent node)
  rw [← @Nat.ofDigitChars_ten_toDigits node, ← digits, Nat.ofDigitChars_ten_toDigits]

/-! ## The table of names -/

/-- The records around a record can be followed outwards. -/
theorem Recorded.exists_path
    {tree : Tree}
    {scopes : Scopes}
    (recorded : Recorded tree scopes.declarations)
    {id : DeclId}
    (inside : id < scopes.declarations.size) :
    ∃ path, scopes.path id = .ok path := by
  induction id using Nat.strongRecOn with
  | ind id ih =>
      have present := Array.getElem?_eq_getElem inside
      have read : scopes.declaration id = .ok scopes.declarations[id] := by
        rw [Scopes.declaration, present]
      rw [Scopes.path]
      simp only [read, bind, Except.bind]
      cases isParent : scopes.declarations[id].parent with
      | none => exact ⟨[], rfl⟩
      | some anchor =>
          have before := recorded.parent_lt id _ anchor present isParent
          have anchorInside := Nat.lt_trans before inside
          obtain ⟨outer, outerRead⟩ := ih anchor before anchorInside
          have anchorRead : scopes.declaration anchor = .ok scopes.declarations[anchor] := by
            rw [Scopes.declaration, Array.getElem?_eq_getElem anchorInside]
          simp only [if_pos before, outerRead, anchorRead]
          exact ⟨_, rfl⟩

/-- The table has the declarations and the usages, gives each declaration a name of
its own, by which it is found, and each usage the name of its declaration, and names
nothing else. -/
structure NameTable.Covers
    (table : NameTable)
    (declared : List NodeId)
    (used : List (NodeId × NodeId)) : Prop where
  declarations : table.declarations.toList = declared
  usages : table.usages.toList = used
  referred : ∀ pair ∈ used, pair.2 ∈ declared
  declaredName : ∀ node ∈ declared, ∃ scopes lexeme,
    table.name? node = some (.ofParts scopes lexeme node)
  found : ∀ node ∈ declared, table.declarationOf? node = some node
  usedName : ∀ pair ∈ used, table.name? pair.1 = table.name? pair.2
  unnamed : ∀ node, node ∉ declared -> node ∉ used.map Prod.fst -> table.name? node = none

namespace NameTable.Covers

variable
  {table : NameTable}
  {declared : List NodeId}
  {used : List (NodeId × NodeId)}

theorem empty : NameTable.Covers {} [] [] where
  declarations := rfl
  usages := rfl
  referred := by simp
  declaredName := by simp
  found := by simp
  usedName := by simp
  unnamed := by simp [NameTable.name?]

theorem declare
    (covers : table.Covers declared [])
    (scopes : List NodeId)
    (lexeme : String)
    (node : NodeId) :
    (table.declare node (.ofParts scopes lexeme node)).Covers (declared ++ [node]) [] where
  declarations := by simp [NameTable.declare, covers.declarations]
  usages := covers.usages
  referred := by simp
  declaredName := by
    intro other member
    by_cases same : other = node
    · subst same
      exact ⟨scopes, lexeme, by simp [NameTable.declare, NameTable.name?]⟩
    · have earlier : other ∈ declared := by simpa [same] using member
      obtain ⟨scopes, lexeme, named⟩ := covers.declaredName other earlier
      refine ⟨scopes, lexeme, ?_⟩
      rw [← named]
      simp [NameTable.declare, NameTable.name?, Std.HashMap.getElem?_insert, Ne.symm same]
  found := by
    intro other member
    by_cases same : other = node
    · subst same
      simp [NameTable.declare, NameTable.declarationOf?, NameTable.name?, NameTable.node?]
    · have earlier : other ∈ declared := by simpa [same] using member
      obtain ⟨otherScopes, otherLexeme, named⟩ := covers.declaredName other earlier
      have different : QualifiedName.ofParts scopes lexeme node ≠
          .ofParts otherScopes otherLexeme other :=
        fun equal => same (QualifiedName.ofParts_injective equal).symm
      rw [← covers.found other earlier]
      rw [NameTable.name?] at named
      simp [NameTable.declare, NameTable.declarationOf?, NameTable.name?, NameTable.node?,
        Std.HashMap.getElem?_insert, Ne.symm same, named, different]
  usedName := by simp
  unnamed := by
    intro other absent _
    rw [List.mem_append, List.mem_singleton, not_or] at absent
    rw [← covers.unnamed other absent.1 (by simp)]
    simp [NameTable.declare, NameTable.name?, Std.HashMap.getElem?_insert, Ne.symm absent.2]

theorem use
    (covers : table.Covers declared used)
    {user declaration : NodeId}
    (isDeclared : declaration ∈ declared)
    (undeclared : user ∉ declared)
    (unused : user ∉ used.map Prod.fst) :
    (table.use user declaration).Covers declared (used ++ [(user, declaration)]) := by
  obtain ⟨scopes, lexeme, named⟩ := covers.declaredName declaration isDeclared
  have result : table.use user declaration =
      { table with
        nameOfNode := table.nameOfNode.insert user (.ofParts scopes lexeme declaration)
        usages := table.usages.push (user, declaration) } := by
    rw [NameTable.name?] at named
    simp only [NameTable.use, named]
  -- The user had no name yet, so the names that were there stay as they are.
  have unchanged : ∀ node, node ≠ user ->
      (table.use user declaration).name? node = table.name? node := by
    intro node different
    simp [result, NameTable.name?, Std.HashMap.getElem?_insert, Ne.symm different]
  have declaredUnchanged : ∀ node ∈ declared,
      (table.use user declaration).name? node = table.name? node :=
    fun node member => unchanged node fun same => undeclared (same ▸ member)
  have sameNodes : (table.use user declaration).node? = table.node? := by
    rw [result]
    rfl
  refine ⟨?_, ?_, ?_, ?_, ?_, ?_, ?_⟩
  · rw [result]
    exact covers.declarations
  · rw [result, Array.toList_push, covers.usages]
  · rw [List.forall_mem_append]
    exact ⟨covers.referred, by simpa using isDeclared⟩
  · intro node member
    rw [declaredUnchanged node member]
    exact covers.declaredName node member
  · intro node member
    rw [NameTable.declarationOf?, declaredUnchanged node member, sameNodes]
    exact covers.found node member
  · rw [List.forall_mem_append]
    constructor
    · intro pair member
      have different : pair.1 ≠ user :=
        fun same => unused (same ▸ List.mem_map_of_mem member)
      rw [unchanged _ different, declaredUnchanged _ (covers.referred pair member)]
      exact covers.usedName pair member
    · have shared : (table.use user declaration).name? user =
          (table.use user declaration).name? declaration := by
        rw [declaredUnchanged declaration isDeclared, named, result]
        simp [NameTable.name?]
      simpa using shared
  · intro node absent free
    rw [List.map_append, List.mem_append, not_or] at free
    have different : node ≠ user := by simpa using free.2
    rw [unchanged node different]
    exact covers.unnamed node absent free.1

end NameTable.Covers

/-- What is declared is looked at, in the same order. -/
theorem Finding.declared_sublist (findings : List Finding) :
    (findings.filterMap declared?).Sublist (findings.map (·.mark.node)) := by
  induction findings with
  | nil => exact .slnil
  | cons finding findings ih =>
      cases finding with
      | declares mark again => exact ih.cons_cons _
      | uses mark declaration => exact ih.cons _
      | lacks mark => exact ih.cons _

theorem Finding.declared_subset (findings : List Finding) :
    findings.filterMap declared? ⊆ findings.map (·.mark.node) :=
  (declared_sublist findings).subset

/-- What refers to a declaration is looked at. -/
theorem Finding.users_subset (findings : List Finding) :
    (findings.filterMap usage?).map Prod.fst ⊆ findings.map (·.mark.node) := by
  intro node member
  obtain ⟨pair, pairMember, rfl⟩ := List.mem_map.mp member
  obtain ⟨finding, listed, found⟩ := List.mem_filterMap.mp pairMember
  cases finding <;> cases found
  exact List.mem_map_of_mem listed

/-- An identifier that refers to a declaration is no declaration, and no other
identifier is the same node. -/
theorem Finding.users_nodup
    {findings : List Finding}
    (distinct : (findings.map (·.mark.node)).Nodup) :
    ((findings.filterMap usage?).map Prod.fst).Nodup ∧
      ∀ user ∈ (findings.filterMap usage?).map Prod.fst, user ∉ findings.filterMap declared? := by
  induction findings with
  | nil => simp
  | cons finding findings ih =>
      rw [List.map_cons, List.nodup_cons] at distinct
      obtain ⟨nodup, apart⟩ := ih distinct.2
      cases finding with
      | declares mark again =>
          refine ⟨nodup, fun user member => ?_⟩
          simp only [List.filterMap_cons, declared?, List.mem_cons, not_or]
          refine ⟨?_, apart user member⟩
          rintro rfl
          exact distinct.1 (users_subset findings member)
      | uses mark declaration =>
          simp only [List.filterMap_cons, usage?, declared?, List.map_cons, List.nodup_cons,
            List.forall_mem_cons]
          exact ⟨⟨fun member => distinct.1 (users_subset findings member), nodup⟩,
            fun member => distinct.1 (declared_subset findings member), apart⟩
      | lacks mark => exact ⟨nodup, apart⟩

/-- Each item of related lists is related to one of the other list. -/
theorem exists_rel_of_mem
    {Item Other : Type}
    {Related : Item -> Other -> Prop}
    {items : List Item}
    {others : List Other}
    (related : List.Forall₂ Related items others)
    {item : Item}
    (member : item ∈ items) :
    ∃ other ∈ others, Related item other := by
  induction related with
  | nil => cases member
  | cons first _ ih =>
      rcases List.mem_cons.mp member with rfl | member
      · exact ⟨_, by simp, first⟩
      · obtain ⟨other, otherMember, isRelated⟩ := ih member
        exact ⟨other, by simp [otherMember], isRelated⟩

namespace Resolution

variable {tree : Tree} {resolution : Resolution}

/-- The using node, with the node of the record that is referred to. -/
def pair (resolution : Resolution) (usage : Usage) : NodeId × NodeId :=
  (usage.user,
    (resolution.scopes.declarations[usage.declaration]?.map Declaration.node).getD Tree.root)

/-- Naming a record of a name adds a declaration, and any other record nothing. -/
theorem exists_nameDeclaration
    (recorded : Recorded tree resolution.scopes.declarations)
    {table : NameTable}
    {declared : List NodeId}
    (covers : table.Covers declared [])
    {declaration : Declaration}
    {id : DeclId}
    (present : resolution.scopes.declarations[id]? = some declaration) :
    ∃ next,
      resolution.nameDeclaration tree table (declaration, id) = .ok next ∧
        next.Covers (declared ++ [declaration].filterMap Declaration.binding?) [] := by
  rw [nameDeclaration]
  cases isBinding : declaration.isBinding with
  | false =>
      refine ⟨table, rfl, ?_⟩
      simpa [Declaration.binding?, isBinding] using covers
  | true =>
      obtain ⟨path, pathRead⟩ :=
        recorded.exists_path (Array.getElem?_eq_some_iff.mp present).1
      obtain ⟨lexeme, textRead⟩ :=
        recorded.text declaration (Array.mem_of_getElem? present) isBinding
      simp only [if_true, pathRead, textRead, bind, Except.bind]
      refine ⟨_, rfl, ?_⟩
      simpa [Declaration.binding?, isBinding] using
        covers.declare path lexeme declaration.node

/-- Naming the records names the declarations. -/
theorem exists_declared
    (recorded : Recorded tree resolution.scopes.declarations) :
    ∃ table,
      resolution.scopes.declarations.toList.zipIdx.foldlM (resolution.nameDeclaration tree)
          {} = .ok table ∧
        table.Covers
          (resolution.scopes.declarations.toList.filterMap Declaration.binding?) [] := by
  have steps : ∀ passed item rest table,
      passed ++ item :: rest = resolution.scopes.declarations.toList.zipIdx ->
        table.Covers ((passed.map Prod.fst).filterMap Declaration.binding?) [] ->
          ∃ next, resolution.nameDeclaration tree table item = .ok next ∧
            next.Covers (((passed ++ [item]).map Prod.fst).filterMap
              Declaration.binding?) [] := by
    rintro passed ⟨declaration, id⟩ rest table whole covers
    have member : (declaration, id) ∈ resolution.scopes.declarations.toList.zipIdx := by
      simp [← whole]
    have present : resolution.scopes.declarations[id]? = some declaration := by
      rw [← Array.getElem?_toList]
      exact List.mem_zipIdx_iff_getElem?.mp member
    obtain ⟨next, named, nextCovers⟩ := exists_nameDeclaration recorded covers present
    exact ⟨next, named, by simpa using nextCovers⟩
  obtain ⟨table, folded, covers⟩ := exists_foldlM_eq_ok
    (fun passed table =>
      NameTable.Covers table ((passed.map Prod.fst).filterMap Declaration.binding?) [])
    steps NameTable.Covers.empty
  rw [List.zipIdx_map_fst] at covers
  exact ⟨table, folded, covers⟩

/-- The usages are those that were found. -/
theorem Agrees.map_pair
    {environment : Environment}
    {findings : List Finding}
    {inExpression : Bool}
    {predeclared : List NodeId}
    (agrees : resolution.Agrees tree environment findings inExpression predeclared) :
    resolution.usages.toList.map resolution.pair = findings.filterMap Finding.usage? := by
  rw [← List.forall₂_eq_eq_eq, List.forall₂_map_left_iff]
  refine agrees.usages.imp fun usage pair refers => ?_
  obtain ⟨user, declaration, present, -, node⟩ := refers
  simp [Resolution.pair, present, user, node]

/-- A finished walk can be turned into a table of names. -/
theorem Agrees.exists_names
    {environment : Environment}
    {findings : List Finding}
    {inExpression : Bool}
    {predeclared : List NodeId}
    (agrees : resolution.Agrees tree environment findings inExpression predeclared)
    (distinct : (findings.map (·.mark.node)).Nodup) :
    ∃ names,
      resolution.names tree = .ok names ∧
        names.Covers (findings.filterMap Finding.declared?)
          (findings.filterMap Finding.usage?) := by
  obtain ⟨table, tableMade, tableCovers⟩ := exists_declared agrees.recorded
  rw [agrees.declared] at tableCovers
  obtain ⟨usersDistinct, apart⟩ := Finding.users_nodup distinct
  have pairs := agrees.map_pair
  -- When a usage is entered, all declarations have names, and its own node has none.
  have steps : ∀ passed usage rest table,
      passed ++ usage :: rest = resolution.usages.toList ->
        table.Covers (findings.filterMap Finding.declared?) (passed.map resolution.pair) ->
          ∃ next, resolution.nameUsage table usage = .ok next ∧
            next.Covers (findings.filterMap Finding.declared?)
              ((passed ++ [usage]).map resolution.pair) := by
    intro passed usage rest table whole covers
    have member : usage ∈ resolution.usages.toList := by simp [← whole]
    obtain ⟨-, -, user, declaration, present, isBinding, -⟩ :=
      exists_rel_of_mem agrees.usages member
    have read : resolution.scopes.declaration usage.declaration = .ok declaration := by
      rw [Scopes.declaration, present]
    have isDeclared : declaration.node ∈ findings.filterMap Finding.declared? := by
      rw [← agrees.declared, List.mem_filterMap]
      exact ⟨declaration, (Array.mem_of_getElem? present).val,
        by simp [Declaration.binding?, isBinding]⟩
    have undeclared : usage.user ∉ findings.filterMap Finding.declared? := by
      apply apart
      rw [← pairs]
      exact List.mem_map_of_mem (List.mem_map_of_mem member)
    have unused : usage.user ∉ (passed.map resolution.pair).map Prod.fst := by
      rw [← pairs, ← whole, List.map_append, List.map_append, List.nodup_append]
        at usersDistinct
      intro used
      exact usersDistinct.2.2 _ used _ (by simp [Resolution.pair]) rfl
    refine ⟨table.use usage.user declaration.node, ?_, ?_⟩
    · simp only [nameUsage, read, bind, Except.bind]
      rfl
    · have same : resolution.pair usage = (usage.user, declaration.node) := by
        simp [Resolution.pair, present]
      rw [List.map_append, List.map_singleton, same]
      exact covers.use isDeclared undeclared unused
  obtain ⟨names, folded, covers⟩ := exists_foldlM_eq_ok
    (fun passed table => NameTable.Covers table (findings.filterMap Finding.declared?)
      (passed.map resolution.pair))
    steps tableCovers
  rw [pairs] at covers
  refine ⟨names, ?_, covers⟩
  simp only [Resolution.names, tableMade, bind, Except.bind]
  rw [← Array.foldlM_toList]
  exact folded

end Resolution

/-! ## Resolution is lexical scoping -/

/-- What was found in a program and named is what lexical scoping finds. Each
identifier is looked at once, and so is just one of a declaration, a usage and the
subject of a report that it is not declared. -/
structure Resolution.IsLexical
    (tree : Tree)
    (program : Program Mark)
    (resolution : Resolution)
    (names : NameTable) : Prop where
  declarations : names.declarations.toList =
    (program.findings tree.lexeme).filterMap Finding.declared?
  usages : names.usages.toList = (program.findings tree.lexeme).filterMap Finding.usage?
  diagnostics : resolution.diagnostics.toList =
    (program.findings tree.lexeme).filterMap (Finding.diagnostic? tree)
  once : ((program.findings tree.lexeme).map (·.mark.node)).Nodup
  identifiers : ∀ id, id ∈ (program.findings tree.lexeme).map (·.mark.node) ↔
    ∃ node, tree.nodes[id]? = some node ∧ node.tag = .identifier

/-- The names of a legible tree are those of lexical scoping. -/
theorem Tree.Legible.exists_names
    {tree : Tree}
    {program : Program Mark}
    (legible : tree.Legible program) :
    ∃ resolution names,
      tree.resolution = .ok resolution ∧ resolution.names tree = .ok names ∧
        resolution.IsLexical tree program names ∧
        names.Covers ((program.findings tree.lexeme).filterMap Finding.declared?)
          ((program.findings tree.lexeme).filterMap Finding.usage?) := by
  obtain ⟨resolution, resolved, agrees⟩ := legible.exists_resolution
  obtain ⟨once, identifiers⟩ := Program.findings_exact tree.lexeme legible.represents
  obtain ⟨names, named, covers⟩ := agrees.exists_names once
  exact ⟨resolution, names, resolved, named,
    ⟨covers.declarations, covers.usages, agrees.diagnostics, once, identifiers⟩, covers⟩

/-- Resolving the names of a source that can be read always succeeds, and is lexical
scoping on the program that the source derives. -/
theorem Source.names_are_lexical
    {source : Source}
    {tree : Tree}
    (made : source.tree = .ok tree)
    (addressable : tree.Addressable) :
    ∃ stream program resolution names,
      source.stream = .ok stream ∧ stream.Derives (program.map Mark.token) ∧
        tree.Represents program ∧ tree.resolution = .ok resolution ∧
        resolution.names tree = .ok names ∧ resolution.IsLexical tree program names := by
  obtain ⟨stream, program, streamMade, derived, legible⟩ :=
    exists_legible made addressable
  obtain ⟨resolution, names, resolved, named, isLexical, -⟩ := legible.exists_names
  exact ⟨stream, program, resolution, names, streamMade, derived, legible.represents,
    resolved, named, isLexical⟩

/-- A parameter that hides a function, a name without a declaration, and a constant
that refers to itself and replaces the function. -/
def Source.shadowing : Source :=
  .ofText "fn f(f) \x7b return f + y \x7d\nconst f = f" none

theorem Source.names_are_lexical_shadowing :
    ∃ tree, shadowing.tree = .ok tree ∧ tree.Addressable ∧
      ∃ stream program resolution names,
        shadowing.stream = .ok stream ∧ stream.Derives (program.map Mark.token) ∧
          tree.Represents program ∧ tree.resolution = .ok resolution ∧
          resolution.names tree = .ok names ∧ resolution.IsLexical tree program names := by
  obtain ⟨tree, made, addressable⟩ : ∃ tree, shadowing.tree = .ok tree ∧ tree.Addressable := by
    refine ⟨_, by cbv, ?_, ?_⟩ <;> cbv
  exact ⟨tree, made, addressable, names_are_lexical made addressable⟩

end Frontend
