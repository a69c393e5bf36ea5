import Frontend.Proofs.Grammar.Carrying
import Frontend.Proofs.Grammar.Legible
import Frontend.Proofs.Grammar.Parallel
import Frontend.Proofs.Syntax.Shape
import Frontend.Proofs.Token.Joining

/-!
# Trees of two texts on separate lines

The tokens of two sources on separate lines are those of the first one up to its end,
and then those of the second one. Both keep their derivations there. The first part is
read as before, token by token, and the reading goes on behind it; so the tree starts
with the nodes of the first source, and has the statements of both below its root.

What a derivation asks of the tokens behind a phrase is the one thing that could change
at the seam. But where the end of the file could end a statement, the line break before
it already does.
-/

namespace Frontend

/-- Two readings that see the same tokens before a place. -/
def Comparison.before (place : Nat) : Comparison where
  Inside := (· < place)
  Quotes := Eq
  Ignores _ _ := True
  downward := Nat.lt_of_le_of_lt

/-- A reading that stays inside of what is compared is the same in both streams. -/
theorem Comparison.Mirrors.eq_ok
    {comparison : Comparison}
    {α : Type}
    {parser twin : Parser α}
    (mirrors : comparison.Mirrors Eq parser twin)
    {before after : Progress}
    {value : α}
    (read : parser before = .ok value after)
    (inside : comparison.Inside after.position) :
    twin before = .ok value after := by
  have same := (mirrors before).same
  rw [read] at same
  cases twinRead : twin before <;> rw [twinRead] at same <;> cases same inside
  case ok pairs => rw [pairs]

namespace Stream

/-- The place of the last token. -/
def lastPlace (stream : Stream) : Nat :=
  stream.tokens.size - 1

/-- The tokens of the whole are those of the first stream up to its end, then those of
the second one, some bytes further on. The end of the first one stands where a line break
would not end a statement. -/
structure Joins (first second whole : Stream) (distance : Nat) : Prop where
  firstOnce : first.EndsOnce
  secondOnce : second.EndsOnce
  size : whole.tokens.size = first.lastPlace + second.tokens.size
  early : ∀ place < first.lastPlace, whole.tokens[place]? = first.tokens[place]?
  late : ∀ place, whole.tokens[first.lastPlace + place]? =
    second.tokens[place]?.map (Token.shift distance)
  settled : ¬ first.IsEndable first.lastPlace
  locate : ∀ token ∈ first.tokens,
    first.source.locate token.span.start = whole.source.locate token.span.start

namespace Joins

variable
  {first second whole : Stream}
  {distance : Nat}
  (joins : Joins first second whole distance)

include joins

theorem lastPlace_add_one : first.lastPlace + 1 = first.tokens.size :=
  Nat.sub_add_cancel joins.firstOnce.nonempty

theorem eq_lastPlace
    {place : Nat}
    (ended : first.kindAt? place = some .endOfFile) :
    place = first.lastPlace := by
  have last := (joins.firstOnce.kindAt?_iff place).mp ended
  rw [← joins.lastPlace_add_one] at last
  exact Nat.succ.inj last

/-- A stream that starts like the first one has its tokens, up to its end. -/
theorem embeds_of_kindAt?_eq
    {other : Stream}
    (same : ∀ place < first.lastPlace, other.kindAt? place = first.kindAt? place) :
    first.Embeds other 0 first.lastPlace := by
  refine Carries.embeds_of_settled ⟨?_⟩ joins.settled
  intro place before
  rw [Nat.zero_add, same place before]

theorem embeds_first : first.Embeds whole 0 first.lastPlace := by
  refine joins.embeds_of_kindAt?_eq fun place before => ?_
  rw [kindAt?, kindAt?, joins.early place before]

/-- The main tokens of the first stream stand before its end. -/
theorem lt_lastPlace
    {inFunction : Bool}
    {start : Nat}
    {statements : List (Statement TokenId)}
    (derived : first.AreStatements inFunction start first.lastPlace statements) :
    ∀ token ∈ (statements.map Statement.labels).flatten, token < first.lastPlace := by
  -- Without its last token the stream derives the same statements.
  have embeds : first.Embeds { first with tokens := first.tokens.pop } 0 first.lastPlace := by
    refine joins.embeds_of_kindAt?_eq fun place before => ?_
    rw [kindAt?, kindAt?, Array.getElem?_pop, if_pos (by rwa [lastPlace] at before)]
  have shortened := embeds.areStatements_of_zero joins.firstOnce derived (Nat.le_refl _)
  simpa [lastPlace] using shortened.lt_size

theorem embeds_second : second.Embeds whole first.lastPlace second.tokens.size := by
  refine Carries.embeds_of_settled ⟨?_⟩ ?_
  · intro place _
    rw [kindAt?, kindAt?, joins.late place, Option.map_map]
    rfl
  · rintro ⟨place, kind, last, present, endable⟩
    rw [(joins.secondOnce.kindAt?_iff place).mpr last] at present
    cases present
    cases endable

theorem endsOnce : whole.EndsOnce where
  nonempty := by
    have nonempty := joins.secondOnce.nonempty
    rw [joins.size]
    omega
  kindAt?_iff := by
    intro place
    have nonempty := joins.secondOnce.nonempty
    have size := joins.size
    rcases Nat.lt_or_ge place first.lastPlace with before | after
    · have same := joins.embeds_first.kindAt?_eq before
      rw [Nat.zero_add] at same
      rw [same, joins.firstOnce.kindAt?_iff, ← joins.lastPlace_add_one]
      omega
    · obtain ⟨later, rfl⟩ := Nat.exists_eq_add_of_le after
      have same : whole.kindAt? (first.lastPlace + later) = second.kindAt? later := by
        rw [kindAt?, kindAt?, joins.late later, Option.map_map]
        rfl
      rw [same, joins.secondOnce.kindAt?_iff]
      omega

theorem hasValues (firstValued : first.HasValues) (secondValued : second.HasValues) :
    whole.HasValues := by
  intro token member
  obtain ⟨place, present⟩ := Array.mem_iff_getElem?.mp member
  rcases Nat.lt_or_ge place first.lastPlace with before | after
  · rw [joins.early place before] at present
    exact firstValued token (Array.mem_of_getElem? present)
  · obtain ⟨later, rfl⟩ := Nat.exists_eq_add_of_le after
    rw [joins.late later] at present
    obtain ⟨original, found, rfl⟩ := Option.map_eq_some_iff.mp present
    exact secondValued original (Array.mem_of_getElem? found)

/-- The first stream and the whole are read alike up to the end of the first stream. -/
theorem fits : (Comparison.before first.lastPlace).Fits first whole where
  nonempty := joins.firstOnce.nonempty
  covers := by
    have nonempty := joins.secondOnce.nonempty
    refine .inr ⟨?_, fun _ => trivial⟩
    rw [joins.size, ← joins.lastPlace_add_one]
    omega
  exists_twin := fun token _ => ⟨token, rfl, rfl, rfl⟩
  alike := by
    intro place (before : place < first.lastPlace)
    have nonempty := joins.secondOnce.nonempty
    have size := joins.size
    have firstAhead : first.ahead place = place := Nat.min_eq_left (Nat.le_of_lt before)
    have wholeAhead : whole.ahead place = place := Nat.min_eq_left (by omega)
    have inside : place < first.tokens.size := by
      rw [← joins.lastPlace_add_one]
      omega
    rw [firstAhead, wholeAhead]
    refine ⟨rfl, first.tokens[place], first.tokens[place], Array.getElem?_eq_getElem inside, ?_,
      ⟨rfl, rfl, rfl⟩, .inl (joins.locate _ (Array.getElem_mem inside))⟩
    rw [joins.early place before, Array.getElem?_eq_getElem inside]

end Joins

/-! ## Reading up to the seam -/

/-- Outside of functions, only a closing brace ends what these words start. -/
theorem IsStatement.isEndable
    {stream : Stream}
    {start stop : Nat}
    {statement : Statement TokenId}
    (derived : stream.IsStatement false start stop statement)
    {kind : Token.Kind}
    (present : stream.kindAt? start = some kind)
    (starts : kind = .openCurly ∨ kind = .fnWord ∨ kind = .returnWord) :
    stream.IsEndable stop := by
  have noOperand : Grammar.standard.operand kind = none := by
    rcases starts with rfl | rfl | rfl <;> rfl
  cases derived with
  | @binding _ isConstant _ _ _ _ isBinding =>
      rw [isBinding, Option.some.injEq] at present
      rcases starts with rfl | rfl | rfl <;> cases isConstant <;> cases present
  | block _ _ closed => exact ⟨_, _, rfl, closed, rfl⟩
  | function _ _ _ _ _ _ _ closed => exact ⟨_, _, rfl, closed, rfl⟩
  | evaluate valueDerived => exact absurd present (valueDerived.2.kindAt?_ne kind noOperand)
  | assign targetDerived => exact absurd present (targetDerived.2.kindAt?_ne kind noOperand)

namespace Joins

open Frontend.Parser

variable
  {first second whole : Stream}
  {distance : Nat}
  (joins : Joins first second whole distance)
  {before after : Progress}
  {id : NodeId}

include joins

theorem kindAt?_eq
    {place : Nat}
    (inside : place < first.lastPlace) :
    whole.kindAt? place = first.kindAt? place := by
  rw [← joins.embeds_first.kindAt?_eq inside, Nat.zero_add]

theorem kindAt?_eq_some
    {place : Nat}
    {kind : Token.Kind}
    (present : first.kindAt? place = some kind)
    (goesOn : kind ≠ .endOfFile) :
    whole.kindAt? place = some kind := by
  have inside := joins.firstOnce.ends.succ_lt_size present goesOn
  rw [← joins.lastPlace_add_one] at inside
  rw [joins.kindAt?_eq (Nat.lt_of_succ_lt_succ inside), present]

theorem isTerminator
    {start stop : Nat}
    (endable : first.IsEndable start)
    (terminates : first.IsTerminator start stop)
    (inside : stop ≤ first.lastPlace) :
    start < first.lastPlace ∧ whole.IsTerminator start stop := by
  have embedded := joins.embeds_first.terminates endable terminates inside
  rw [Nat.zero_add, Nat.zero_add] at embedded
  exact ⟨lt_of_settled joins.settled endable terminates inside, embedded⟩

section Step

variable
  {self twin : Phrase -> Parser NodeId}
  (mirrors : ∀ request,
    (Comparison.before first.lastPlace).Mirrors Eq (self request) (twin request))
  (sound : AllSound first self)
  (steady : AllSteady first self)

include mirrors sound steady

/-- An expression or an assignment is read alike also if it ends at the seam. -/
theorem statement_eq
    (twinSteady : AllSteady whole twin)
    {kind : Token.Kind}
    (present : first.kindAt? before.position = some kind)
    (found : Grammar.standard.statement kind = none)
    (read : statement .standard first self before = .ok id after)
    (inside : after.position ≤ first.lastPlace) :
    statement .standard whole twin before = .ok id after := by
  obtain ⟨target, middle, targetRead, rest⟩ :=
    (statement_eq_ok joins.firstOnce steady present found).mp read
  obtain ⟨_, -, -, targetDerived⟩ :=
    sound _ _ _ _ (ready_of_kindAt? present) targetRead trivial
  have nonempty := (targetDerived.2.bounds joins.firstOnce).1
  rcases rest with ⟨notAssigned, stop, terminates, rfl, rfl⟩ |
    ⟨isAssignment, value, next, stop, valueRead, terminates, rfl, rfl⟩
  · obtain ⟨reached, terminatesLater⟩ :=
      joins.isTerminator targetDerived.2.isEndable terminates inside
    have presentLater := (joins.kindAt?_eq (Nat.lt_trans nonempty reached)).trans present
    refine (statement_eq_ok joins.endsOnce twinSteady presentLater found).mpr
      ⟨target, middle, (mirrors _).eq_ok targetRead reached, .inl ⟨?_, stop, terminatesLater,
        rfl, rfl⟩⟩
    rwa [joins.kindAt?_eq reached]
  · obtain ⟨_, -, -, valueDerived⟩ := sound _ _ _ _
      (ready_advanced joins.firstOnce isAssignment (by decide)) valueRead trivial
    have goesOn : middle.position + 1 < next.position :=
      (valueDerived.2.bounds joins.firstOnce).1
    obtain ⟨reached, terminatesLater⟩ :=
      joins.isTerminator valueDerived.2.isEndable terminates inside
    have middleReached : middle.position < first.lastPlace := by omega
    have presentLater := (joins.kindAt?_eq (Nat.lt_trans nonempty middleReached)).trans present
    exact (statement_eq_ok joins.endsOnce twinSteady presentLater found).mpr
      ⟨target, middle, (mirrors _).eq_ok targetRead middleReached, .inr
        ⟨(joins.kindAt?_eq middleReached).trans isAssignment, value, next, stop,
          (mirrors _).eq_ok valueRead reached, terminatesLater, rfl, rfl⟩⟩

/-- A declaration is read alike also if it ends at the seam. -/
theorem binding_eq
    (located : whole.HasLocations)
    {isConstant : Bool}
    (present : first.kindAt? before.position = some (bindingKind isConstant))
    (read : binding first self before = .ok id after)
    (inside : after.position ≤ first.lastPlace) :
    binding whole twin before = .ok id after := by
  obtain ⟨isName, isAssignment, value, next, stop, valueRead, terminates, rfl, rfl⟩ :=
    of_binding_eq_ok joins.firstOnce steady present read
  have assignedReady : Ready first (advanced (withName before)) :=
    ready_advanced joins.firstOnce isAssignment (by decide)
  obtain ⟨_, -, -, valueDerived⟩ := sound _ _ _ _ assignedReady valueRead trivial
  have goesOn : before.position + 3 < next.position :=
    (valueDerived.2.bounds joins.firstOnce).1
  obtain ⟨reached, terminatesLater⟩ :=
    joins.isTerminator valueDerived.2.isEndable terminates inside
  have nextReady : Ready whole next := by
    rw [Ready, joins.size]
    omega
  exact Parser.binding_eq located ((joins.kindAt?_eq (by omega)).trans present)
    ((joins.kindAt?_eq (by omega)).trans isName)
    ((joins.kindAt?_eq (by omega)).trans isAssignment)
    ((mirrors _).eq_ok valueRead reached) terminatesLater nextReady

end Step

/-- Every statement of the first stream is read alike in the whole. -/
theorem phrase_statement_eq
    (located : whole.HasLocations)
    (ready : Ready first before)
    (outside : before.depth = 0)
    (read : phrase .standard first (.construct .statement) before = .ok id after) :
    phrase .standard whole (.construct .statement) before = .ok id after := by
  have reached : after.position < first.tokens.size :=
    (allSteady_phraseWithin joins.firstOnce _ _ _ _ _ ready read trivial).ready
  rw [← joins.lastPlace_add_one] at reached
  rcases Nat.lt_or_eq_of_le (Nat.le_of_lt_succ reached) with inside | atSeam
  · exact (joins.fits.mirrors_phrase _ _).eq_ok read inside
  -- The bounds on the nesting of calls leave room for two levels.
  obtain ⟨depth, depthEq⟩ : ∃ depth, waysPerToken * (first.tokens.size + 1) = depth + 2 :=
    Nat.exists_eq_add_of_le' (by rw [waysPerToken]; omega)
  obtain ⟨deeper, deeperEq⟩ : ∃ deeper, waysPerToken * (whole.tokens.size + 1) = deeper + 2 :=
    Nat.exists_eq_add_of_le' (by rw [waysPerToken]; omega)
  have shallower : depth ≤ deeper := by
    have size := joins.size
    have nonempty := joins.secondOnce.nonempty
    have last := joins.lastPlace_add_one
    rw [waysPerToken] at depthEq deeperEq
    omega
  obtain ⟨_, -, -, derived⟩ :=
    allSound_phraseWithin joins.firstOnce _ _ _ _ _ ready read trivial
  rw [outside, atSeam] at derived
  rw [phrase, depthEq] at read
  rw [phrase, deeperEq]
  obtain ⟨kind, present⟩ := ready.exists_kindAt?
  cases found : Grammar.standard.statement kind with
  | none =>
      have covers : (Comparison.before first.lastPlace).Covers (depth + 1) (deeper + 1) :=
        .inr ⟨Nat.succ_le_succ shallower, fun _ => trivial⟩
      exact joins.statement_eq (joins.fits.mirrors_phraseWithin .standard covers)
        (allSound_phraseWithin joins.firstOnce _) (allSteady_phraseWithin joins.firstOnce _)
        (allSteady_phraseWithin joins.endsOnce _) present found read (Nat.le_of_eq atSeam)
  | some construct =>
      have goesOn : kind ≠ .endOfFile := by
        rintro rfl
        cases found
      have presentLater := joins.kindAt?_eq_some present goesOn
      rw [phraseWithin, phraseStep, statement_eq_of_entry present found] at read
      rw [phraseWithin, phraseStep, statement_eq_of_entry presentLater found]
      have covers : (Comparison.before first.lastPlace).Covers depth deeper :=
        .inr ⟨shallower, fun _ => trivial⟩
      have bound : ∀ isConstant,
          first.kindAt? before.position = some (bindingKind isConstant) ->
            binding first (phraseWithin .standard first depth) before = .ok id after ->
              binding whole (phraseWithin .standard whole deeper) before = .ok id after :=
        fun _ isBinding bindingRead =>
          joins.binding_eq (joins.fits.mirrors_phraseWithin .standard covers)
            (allSound_phraseWithin joins.firstOnce _) (allSteady_phraseWithin joins.firstOnce _)
            located isBinding bindingRead (Nat.le_of_eq atSeam)
      have ended := derived.isEndable present
      cases kind <;> cases found
      case constWord.refl => exact bound true present read
      case varWord.refl => exact bound false present read
      all_goals exact absurd (ended (by decide)) joins.settled

/-- The statements of the first stream are read alike in the whole, and what follows them
is read from where they end. -/
theorem programStatements_eq
    (located : whole.HasLocations)
    {bound : Nat}
    {ids : List NodeId}
    {middle : Progress}
    (ready : Ready first before)
    (outside : before.depth = 0)
    (read : programStatements .standard first bound before = .ok ids middle) :
    ∃ used < bound, ∀ {more later after},
      programStatements .standard whole more middle = .ok later after ->
        programStatements .standard whole (used + more) before = .ok (ids ++ later) after := by
  have sound := allSound_phraseWithin joins.firstOnce.ends (waysPerToken * (first.tokens.size + 1))
  have steady :=
    allSteady_phraseWithin joins.firstOnce.ends (waysPerToken * (first.tokens.size + 1))
  induction bound generalizing before ids with
  | zero => exact (endless_eq_ok.mp read).elim
  | succ bound ih =>
      rcases (lists_programStatements.succ ready).mp read with ⟨-, rfl, rfl⟩ |
        ⟨isSemicolon, restRead⟩ |
        ⟨kind, present, notEnd, -, notSemicolon, id, rest, next, rfl, statementRead, restRead⟩
      · exact ⟨0, Nat.succ_pos bound, by simp⟩
      · obtain ⟨used, small, goesOn⟩ := ih
          (ready_advanced joins.firstOnce isSemicolon (by decide)) outside restRead
        refine ⟨used + 1, Nat.succ_lt_succ small, fun moreRead => ?_⟩
        have presentLater := joins.kindAt?_eq_some isSemicolon (by decide)
        rw [Nat.add_right_comm, lists_programStatements.succ (ready_of_kindAt? presentLater)]
        exact .inr (.inl ⟨presentLater, goesOn moreRead⟩)
      · obtain ⟨_, built, -, -⟩ := sound _ _ _ _ ready statementRead trivial
        obtain ⟨used, small, goesOn⟩ := ih
          (steady _ _ _ _ ready statementRead trivial).ready (built.grown.depth.trans outside)
          restRead
        refine ⟨used + 1, Nat.succ_lt_succ small, fun moreRead => ?_⟩
        have presentLater := joins.kindAt?_eq_some present notEnd
        rw [Nat.add_right_comm, lists_programStatements.succ (ready_of_kindAt? presentLater)]
        exact .inr (.inr ⟨kind, presentLater, notEnd, notEnd, notSemicolon, id, _, next, rfl,
          joins.phrase_statement_eq located ready outside statementRead, goesOn moreRead⟩)

end Joins

end Stream

/-! ## The tree of the whole -/

/-- The statements of both programs, the later ones with their marks moved. -/
def Program.followedBy
    (program later : Program Mark)
    (nodes tokens : Nat) :
    Program Mark where
  label := program.label
  statements :=
    program.statements ++ later.statements.map (Statement.map (Mark.shift nodes tokens))

/-- Giving the root its statements changes no other node. -/
theorem Parser.tail_withRoot (progress : Progress) (statements : List NodeId) :
    (withRoot progress statements).nodes.toList.tail = progress.nodes.toList.tail := by
  rw [withRoot, Array.toList_setIfInBounds, Tree.root]
  cases progress.nodes.toList <;> rfl

namespace Stream.Joins

open Frontend.Parser

variable
  {first second whole : Stream}
  {distance : Nat}
  (joins : Joins first second whole distance)
  {tree later : Tree}

include joins

/-- The statements of the second stream are read in the whole, from the seam on. -/
theorem exists_later_eq
    (located : whole.HasLocations)
    (valued : whole.HasValues)
    {stop : Nat}
    {statements : List (Statement TokenId)}
    (derived : second.AreStatements false 0 stop statements)
    (ended : second.kindAt? stop = some .endOfFile)
    {before : Progress}
    (atSeam : before.position = first.lastPlace)
    (outside : before.depth = 0)
    {bound : Nat}
    (enough : second.tokens.size ≤ bound) :
    ∃ built after,
      BuildsStatements before after built ∧
        built.map (·.map Mark.token) = statements.map (·.map (first.lastPlace + ·)) ∧
        after.position = first.lastPlace + stop ∧
        programStatements .standard whole bound before =
          .ok (built.map (·.label.node)) after := by
  have inside := lt_size_of_kindAt? ended
  have embedded :=
    joins.embeds_second.areStatements joins.secondOnce derived (Nat.le_of_lt inside)
  exact lists_programStatements.exists_eq
    (areSequenced_of_areStatements joins.endsOnce valued located embedded) atSeam
    (by simp [outside]) (depthAt_add_le _)
    (joins.embeds_second.kindAt?_eq_some ended inside) (by omega)

/-- Reading the whole makes the statements of the first stream and then those of the second
one, with further nodes and tokens. -/
theorem exists_whole_eq
    (located : whole.HasLocations)
    (valued : whole.HasValues)
    {statements laterStatements : List (Statement Mark)}
    {middle laterMiddle : Progress}
    (built : BuildsStatements rooted middle statements)
    (read : programStatements .standard first (listBound first) rooted =
      .ok (statements.map (·.label.node)) middle)
    (ended : first.kindAt? middle.position = some .endOfFile)
    (laterBuilt : BuildsStatements rooted laterMiddle laterStatements)
    (laterDerived : second.AreStatements false 0 laterMiddle.position
      (laterStatements.map (·.map Mark.token)))
    (laterEnded : second.kindAt? laterMiddle.position = some .endOfFile) :
    ∃ added after,
      added = laterStatements.map (·.map (Mark.shift (middle.nodes.size - 1) first.lastPlace)) ∧
        BuildsStatements middle after added ∧
        programStatements .standard whole (listBound whole) rooted =
          .ok ((statements ++ added).map (·.label.node)) after := by
  have ready : Ready first rooted := joins.firstOnce.nonempty
  obtain ⟨used, small, goesOn⟩ := joins.programStatements_eq located ready rfl read
  have enough : used + second.tokens.size ≤ listBound whole := by
    have size := joins.size
    have last := joins.lastPlace_add_one
    rw [listBound] at small ⊢
    omega
  obtain ⟨added, after, addedBuilt, addedTokens, -, addedRead⟩ :=
    joins.exists_later_eq located valued laterDerived laterEnded (joins.eq_lastPlace ended)
      built.grown.depth (Nat.le_sub_of_add_le' enough)
  have nonempty : 1 ≤ middle.nodes.size := built.grown.nodes.size_le
  -- Nodes are numbered on behind those of the first stream, whose root is shared.
  have numbered : Numbered (middle.nodes.size - 1 + rooted.nodes.size) after.nodes.size
      (added.map (·.labels)).flatten := by
    have same : middle.nodes.size - 1 + rooted.nodes.size = middle.nodes.size :=
      Nat.sub_add_cancel nonempty
    rw [same]
    exact addedBuilt.grown.numbered
  refine ⟨added, after, eq_shift_of_numbered laterBuilt.grown.numbered numbered addedTokens,
    addedBuilt, ?_⟩
  rw [List.map_append, ← Nat.add_sub_of_le (Nat.le_of_add_right_le enough)]
  exact goesOn addedRead

/-- The whole has a tree, which starts with the nodes of the first tree, and in which the
statements of the second tree follow those of the first one. -/
theorem exists_tree
    (located : whole.HasLocations)
    (firstMade : first.tree = .ok tree)
    (secondMade : second.tree = .ok later) :
    ∃ joined program laterProgram,
      whole.tree = .ok joined ∧
        tree.Represents program ∧ first.Derives (program.map Mark.token) ∧
        later.Represents laterProgram ∧
        joined.Represents
          (program.followedBy laterProgram (tree.nodes.size - 1) first.lastPlace) ∧
        whole.Derives
          ((program.followedBy laterProgram (tree.nodes.size - 1) first.lastPlace).map
            Mark.token) ∧
        tree.nodes.toList.tail <+: joined.nodes.toList.tail := by
  have valued : whole.HasValues :=
    joins.hasValues (hasValues_of_tree joins.firstOnce firstMade)
      (hasValues_of_tree joins.secondOnce secondMade)
  obtain ⟨ids, middle, read, nonempty, rfl⟩ := (tree_eq_ok joins.firstOnce).mp firstMade
  obtain ⟨laterIds, laterMiddle, laterRead, -, rfl⟩ :=
    (tree_eq_ok joins.secondOnce).mp secondMade
  have ready : Ready first rooted := joins.firstOnce.nonempty
  have laterReady : Ready second rooted := joins.secondOnce.nonempty
  obtain ⟨statements, built, rfl, derived, ended⟩ :=
    areStatements_of_programStatements joins.firstOnce ready read
  obtain ⟨laterStatements, laterBuilt, rfl, laterDerived, laterEnded⟩ :=
    areStatements_of_programStatements joins.secondOnce laterReady laterRead
  obtain ⟨_, after, rfl, addedBuilt, wholeRead⟩ := joins.exists_whole_eq located valued built
    read ended laterBuilt laterDerived laterEnded
  have size : (withRoot middle (statements.map (·.label.node))).nodes.size =
      middle.nodes.size := by
    simp [withRoot]
  rw [size]
  have inside := lt_size_of_kindAt? laterEnded
  refine ⟨_, ⟨⟨Tree.root, 0⟩, statements⟩, ⟨⟨Tree.root, 0⟩, laterStatements⟩,
    (tree_eq_ok joins.endsOnce).mpr ⟨_, after, wholeRead, ?_, rfl⟩,
    built.represents _ _, ⟨rfl, middle.position, derived, ended⟩,
    laterBuilt.represents _ _, (built.append addedBuilt).represents _ _,
    ⟨rfl, first.lastPlace + laterMiddle.position, ?_,
      joins.embeds_second.kindAt?_eq_some laterEnded inside⟩, ?_⟩
  · exact Nat.lt_of_lt_of_le nonempty addedBuilt.grown.nodes.size_le
  · rw [joins.eq_lastPlace ended] at derived
    have early := joins.embeds_first.areStatements_of_zero joins.firstOnce derived (Nat.le_refl _)
    have late :=
      joins.embeds_second.areStatements joins.secondOnce laterDerived (Nat.le_of_lt inside)
    rw [List.map_map] at late
    simp only [Program.map, Program.followedBy, List.map_append, List.map_map,
      Function.comp_def, Statement.map_map] at late ⊢
    exact early.append late
  · obtain ⟨made, grown⟩ := addedBuilt.grown.nodes
    rw [tail_withRoot, tail_withRoot, grown, Array.toList_appendList,
      List.tail_append_of_ne_nil]
    · exact List.prefix_append _ _
    · exact List.ne_nil_of_length_pos nonempty

end Stream.Joins

/-! ## Sources -/

namespace Source

/-- What is scanned is the stream of the source. -/
theorem stream_of_scan
    {source : Source}
    {tokens : List Token}
    (scanned : Token.scan false 0 source.text.toList = .ok tokens) :
    source.stream = .ok { source, tokens := tokens.toArray } := by
  simp only [stream, Source.tokens, scanned, bind, Except.bind]
  rfl

/-- The stream of two sources on separate lines joins their streams. -/
theorem exists_joins
    {first second : Source}
    {firstStream secondStream : Stream}
    (firstMade : first.stream = .ok firstStream)
    (secondMade : second.stream = .ok secondStream) :
    ∃ whole,
      (first.followedBy second).stream = .ok whole ∧
        firstStream.Joins secondStream whole (first.text.utf8ByteSize + 1) := by
  have firstOnce := endsOnce_of_stream firstMade
  have secondOnce := endsOnce_of_stream secondMade
  have started : ∀ token ∈ firstStream.tokens,
      token.span.start ≤ first.text.utf8ByteSize := fun token => start_le_of_mem firstMade
  obtain ⟨tokens, firstScanned, rfl⟩ := exists_scan firstMade
  obtain ⟨later, secondScanned, rfl⟩ := exists_scan secondMade
  obtain ⟨earlier, rfl, settled, scanned⟩ :=
    exists_tokens_followedBy firstScanned secondScanned
  have seam : Stream.lastPlace { source := first, tokens :=
      (earlier ++ [Token.endOfFile first.text.utf8ByteSize]).toArray } = earlier.length := by
    simp [Stream.lastPlace]
  refine ⟨_, stream_of_scan scanned, firstOnce, secondOnce, ?_, ?_, ?_, ?_, ?_⟩
  · simp [seam]
  · intro place before
    rw [seam] at before
    simp [List.getElem?_append_left before]
  · intro place
    simp [seam, List.getElem?_append_right]
  · rintro ⟨place, kind, last, present, endable⟩
    rw [seam] at last
    have lastToken : earlier.getLast? = earlier[place]? := by
      rw [List.getLast?_eq_getElem?, ← last, Nat.add_sub_cancel]
    obtain ⟨token, found, rfl⟩ := Option.map_eq_some_iff.mp present
    rw [List.getElem?_toArray, List.getElem?_append_left (by omega), ← lastToken] at found
    rw [settled token found] at endable
    cases endable
  · intro token member
    rw [locate, locate, place_followedBy first second (started token member)]

end Source

end Frontend
