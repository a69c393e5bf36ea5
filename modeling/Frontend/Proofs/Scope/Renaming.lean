import Frontend.Proofs.Scope.Naming
import Frontend.Proofs.Scope.Resemblance

/-!
# Renamed identifiers

If the identifiers of a tree are renamed, and different ones stay different, then the
same nodes declare and use names, and two nodes have one name just if they had one name
before. The names themselves are spelled with the new texts.
-/

namespace Frontend

/-! ## Names that are spelled anew -/

namespace QualifiedName

/-- Names of one node, of which the second has the changed text of that node. -/
def Respells
    (tree : Tree)
    (change : String -> String)
    (name twin : QualifiedName) : Prop :=
  ∃ path lexeme node,
    tree.text node = .ok lexeme ∧ name = .ofParts path lexeme node ∧
      twin = .ofParts path (change lexeme) node

/-- Whether two names of one node are the same does not depend on its text. -/
theorem ofParts_congr
    {scopes otherScopes : List NodeId}
    {lexeme : String}
    {node : NodeId}
    (same : ofParts scopes lexeme node = ofParts otherScopes lexeme node)
    (changed : String) :
    ofParts scopes changed node = ofParts otherScopes changed node := by
  simp only [ofParts, QualifiedName.mk.injEq, String.append_left_inj] at same ⊢
  exact same

/-- Names are spelled anew without being mixed up. -/
theorem Respells.eq_iff
    {tree : Tree}
    {change : String -> String}
    {name twin other otherTwin : QualifiedName}
    (respells : Respells tree change name twin)
    (otherRespells : Respells tree change other otherTwin) :
    name = other ↔ twin = otherTwin := by
  obtain ⟨path, lexeme, node, read, rfl, rfl⟩ := respells
  obtain ⟨otherPath, otherLexeme, otherNode, otherRead, rfl, rfl⟩ := otherRespells
  constructor
  · intro same
    obtain rfl := ofParts_injective same
    obtain rfl := Except.ok.inj (read.symm.trans otherRead)
    exact ofParts_congr same _
  · intro same
    obtain rfl := ofParts_injective same
    obtain rfl := Except.ok.inj (read.symm.trans otherRead)
    exact ofParts_congr same _

end QualifiedName

/-- The tables have the same declarations and usages, and name the same nodes. -/
structure NameTable.Respelled
    (tree : Tree)
    (change : String -> String)
    (table twin : NameTable) : Prop where
  declarations : twin.declarations = table.declarations
  usages : twin.usages = table.usages
  name? : ∀ node,
    Option.Rel (QualifiedName.Respells tree change) (table.name? node) (twin.name? node)

namespace NameTable.Respelled

variable
  {tree : Tree}
  {change : String -> String}
  {table twin : NameTable}

/-- The names of one node in the two tables. -/
theorem respells
    (respelled : table.Respelled tree change twin)
    {node : NodeId}
    {name twinName : QualifiedName}
    (named : table.name? node = some name)
    (twinNamed : twin.name? node = some twinName) :
    name.Respells tree change twinName := by
  have related := respelled.name? node
  rw [named, twinNamed] at related
  cases related
  assumption

theorem empty (tree : Tree) (change : String -> String) :
    NameTable.Respelled tree change {} {} where
  declarations := rfl
  usages := rfl
  name? := by simp [NameTable.name?]

theorem declare
    (respelled : table.Respelled tree change twin)
    (path : List NodeId)
    {lexeme : String}
    {node : NodeId}
    (read : tree.text node = .ok lexeme) :
    (table.declare node (.ofParts path lexeme node)).Respelled tree change
      (twin.declare node (.ofParts path (change lexeme) node)) where
  declarations := by simp [NameTable.declare, respelled.declarations]
  usages := respelled.usages
  name? := by
    intro other
    simp only [NameTable.name?, NameTable.declare, Std.HashMap.getElem?_insert]
    split
    · exact .some ⟨path, lexeme, node, read, rfl, rfl⟩
    · exact respelled.name? other

theorem use
    (respelled : table.Respelled tree change twin)
    (user declaration : NodeId) :
    (table.use user declaration).Respelled tree change (twin.use user declaration) := by
  have named := respelled.name? declaration
  unfold NameTable.name? at named
  unfold NameTable.use
  generalize table.nameOfNode[declaration]? = name,
    twin.nameOfNode[declaration]? = twinName at named
  cases named with
  | none => exact respelled
  | some respells =>
      refine ⟨respelled.declarations, ?_, ?_⟩
      · simp [respelled.usages]
      · intro other
        simp only [NameTable.name?, Std.HashMap.getElem?_insert]
        split
        · exact .some respells
        · exact respelled.name? other

end NameTable.Respelled

/-! ## The table of a walk -/

namespace Tree.Resembles

variable
  {tree other : Tree}
  {change : String -> String}
  {Inside Names : NodeId -> Prop}
  (resembles : tree.Resembles other change Inside Names)
  {resolution : Resolution}
  (binds : resolution.Binds Names)

include resembles binds

theorem nameDeclaration
    {table twin : NameTable}
    (respelled : table.Respelled tree change twin)
    {declaration : Declaration}
    (member : declaration ∈ resolution.scopes.declarations)
    (id : DeclId) :
    SameResult (NameTable.Respelled tree change)
      (resolution.nameDeclaration tree table (declaration, id))
      ((resolution.rename change).nameDeclaration other twin (declaration, id)) := by
  simp only [Resolution.nameDeclaration]
  split
  next isBinding =>
    change SameResult _ _ (resolution.scopes.path id >>= _)
    cases resolution.scopes.path id with
    | error fault => exact .error fault
    | ok path =>
        rw [resembles.text _ (binds declaration member isBinding)]
        cases read : tree.text declaration.node with
        | error fault => exact .error fault
        | ok lexeme => exact .ok (respelled.declare path read)
  next => exact .ok respelled

/-- The tables of walks that have found the same differ only in the spelling of names. -/
theorem names :
    SameResult (NameTable.Respelled tree change) (resolution.names tree)
      ((resolution.rename change).names other) := by
  refine SameResult.bind (SameResult.foldlM ?_ (NameTable.Respelled.empty tree change)) ?_
  · rintro ⟨declaration, id⟩ member table twin respelled
    refine resembles.nameDeclaration binds respelled ?_ id
    exact Array.mem_toList_iff.mp (List.fst_mem_of_mem_zipIdx member)
  · intro table twin respelled
    rw [← Array.foldlM_toList, ← Array.foldlM_toList]
    refine SameResult.foldlM ?_ respelled
    intro usage _ table twin respelled
    change SameResult _ (resolution.scopes.declaration usage.declaration >>= _)
      (resolution.scopes.declaration usage.declaration >>= _)
    refine (SameResult.refl _).bind ?_
    rintro declaration _ rfl
    exact .ok (respelled.use usage.user declaration.node)

end Tree.Resembles

/-! ## Renaming the identifiers of a tree -/

/-- Change the value of a token that is an identifier. -/
def Token.rename (change : String -> String) (token : Token) : Token :=
  if token.kind = .identifier then { token with value := change token.value } else token

theorem Token.kind_rename (change : String -> String) (token : Token) :
    (token.rename change).kind = token.kind := by
  unfold rename
  split <;> rfl

theorem Token.span_rename (change : String -> String) (token : Token) :
    (token.rename change).span = token.span := by
  unfold rename
  split <;> rfl

namespace Tree

/-- Change the values of all identifiers. -/
def rename (change : String -> String) (tree : Tree) : Tree :=
  { tree with tokens := tree.tokens.map (Token.rename change) }

/-- The main token of every name is an identifier. -/
def NamesIdentifiers (tree : Tree) : Prop :=
  ∀ id, tree.IsName id -> ∃ found token,
    tree.nodes[id]? = some found ∧ tree.tokens[found.token]? = some token ∧
      token.kind = .identifier

variable (change : String -> String) (tree : Tree)

theorem token_rename (id : TokenId) :
    (tree.rename change).token id = (tree.token id).map (Token.rename change) := by
  simp only [Tree.token, rename, Array.getElem?_map]
  cases tree.tokens[id]? <;> rfl

theorem location_rename (id : NodeId) :
    (tree.rename change).location id = tree.location id := by
  change (tree.node id >>= fun found => (tree.rename change).token found.token >>= _) = _
  rw [location]
  cases tree.node id with
  | error fault => rfl
  | ok found =>
      simp only [bind, Except.bind, token_rename]
      cases tree.token found.token with
      | error fault => rfl
      | ok token =>
          simp only [Except.map, Token.span_rename]
          rfl

theorem eventsWithin_rename (depth : Nat) (id : NodeId) :
    (tree.rename change).eventsWithin depth id = tree.eventsWithin depth id := by
  induction depth generalizing id with
  | zero => rfl
  | succ depth ih =>
      rw [eventsWithin, eventsWithin, funext ih]
      rfl

theorem events_rename : (tree.rename change).events = tree.events := by
  rw [events, events, eventsFrom, eventsFrom, eventsWithin_rename]
  rfl

variable {change} {tree}

theorem NamesIdentifiers.text_rename
    (named : tree.NamesIdentifiers)
    {id : NodeId}
    (isName : tree.IsName id) :
    (tree.rename change).text id = (tree.text id).map change := by
  obtain ⟨found, token, present, tokenPresent, isIdentifier⟩ := named id isName
  have read : (tree.rename change).node id = .ok found := node_eq_ok present
  have tokenRead : tree.token found.token = .ok token := by rw [Tree.token, tokenPresent]
  simp only [text, read, node_eq_ok present, bind, Except.bind, token_rename, tokenRead,
    Except.map, pure, Except.pure, Token.rename, isIdentifier, if_true]

/-- A tree resembles the one with other identifiers. -/
theorem NamesIdentifiers.resembles
    (named : tree.NamesIdentifiers)
    (injective : Function.Injective change) :
    tree.Resembles (tree.rename change) change (fun _ => True) tree.IsName where
  injective := injective
  node := fun id _ => (SameResult.refl (tree.node id)).mono fun _ _ same => congrArg _ same
  location := fun id _ => (tree.location_rename change id).symm
  text := fun _ isName => named.text_rename isName
  names_inside := fun _ _ => trivial
  identifier := fun _ found _ read isIdentifier =>
    .inl ⟨found, getElem?_of_node_eq_ok read, isIdentifier⟩
  function := fun id found _ read isFunction => ⟨rfl, fun parts partsRead =>
    .inr ⟨id, found, parts, getElem?_of_node_eq_ok read, isFunction, partsRead, rfl⟩⟩

end Tree

end Frontend
