import Frontend.Proofs.Token.Scan

/-!
# Scanning lexeme by lexeme

A text is cut from the left into the lexemes that the first rules that apply take.
Scanning gives the tokens that these lexemes make one after another, and gives up just
where something is left at which no rule applies. So the tokens of a text start inside
it, and only the last one ends the file.
-/

namespace Frontend
namespace Token

namespace Rule

/-- The tokens that a lexeme makes at an offset, where `endable` says whether the token
before it can end a statement. -/
def tokensAt (rule : Rule) (lexeme : List Char) (endable : Bool) (offset : Nat) : List Token :=
  match rule.content? lexeme with
  | some (kind, value) => [⟨kind, value, ⟨offset, offset + byteLength lexeme⟩⟩]
  | none => if rule = .newline then terminator endable offset else []

/-- Behind the lexeme, the last token can end a statement. A newline settles that. -/
def leavesEndable (rule : Rule) (lexeme : List Char) (endable : Bool) : Bool :=
  match rule.content? lexeme with
  | some (kind, _) => kind.endsStatement
  | none => if rule = .newline then false else endable

/-- A token of a lexeme has its content, or stands for a line break. -/
theorem mem_tokensAt
    {rule : Rule}
    {lexeme : List Char}
    {endable : Bool}
    {offset : Nat}
    {token : Token}
    (member : token ∈ rule.tokensAt lexeme endable offset) :
    (∃ kind value, rule.content? lexeme = some (kind, value) ∧
        token = ⟨kind, value, ⟨offset, offset + byteLength lexeme⟩⟩) ∨
      token = lineBreak offset := by
  unfold tokensAt at member
  split at member
  next kind value content => exact .inl ⟨kind, value, content, List.mem_singleton.mp member⟩
  next =>
    split at member
    · cases endable with
      | false => cases member
      | true => exact .inr (List.mem_singleton.mp member)
    · cases member

end Rule

/-- The tokens that lexemes make from an offset on, up to the end of the file. -/
def tokensOf (endable : Bool) (offset : Nat) : List (Rule × List Char) -> List Token
  | [] => terminator endable offset ++ [endOfFile offset]
  | (rule, lexeme) :: later =>
      rule.tokensAt lexeme endable offset ++
        tokensOf (rule.leavesEndable lexeme endable) (offset + byteLength lexeme) later

/-- The text is cut into these lexemes, each the one that the first rule takes that
applies, and something is left behind them. -/
inductive Scans : List Char -> List (Rule × List Char) -> List Char -> Prop
  | stop (left : List Char) : Scans left [] left
  | step
      {rule : Rule}
      {lexeme rest left : List Char}
      {later : List (Rule × List Char)}
      (found : Rule.first? (lexeme ++ rest) = some (rule, lexeme))
      (scans : Scans rest later left) :
      Scans (lexeme ++ rest) ((rule, lexeme) :: later) left

/-- The characters of lexemes that stand behind each other. -/
def joined (lexemes : List (Rule × List Char)) : List Char :=
  lexemes.flatMap Prod.snd

theorem joined_cons (rule : Rule) (lexeme : List Char) (later : List (Rule × List Char)) :
    joined ((rule, lexeme) :: later) = lexeme ++ joined later := by
  simp [joined]

namespace Scans

variable {text left : List Char} {lexemes : List (Rule × List Char)}

theorem eq_joined (scans : Scans text lexemes left) : text = joined lexemes ++ left := by
  induction scans with
  | stop left => rfl
  | step found scans ih =>
      rw [joined_cons, List.append_assoc, ← ih]

/-- Each lexeme takes at least one character. -/
theorem length_le (scans : Scans text lexemes left) : lexemes.length ≤ text.length := by
  induction scans with
  | stop left => exact Nat.zero_le _
  | step found scans ih =>
      have positive := List.length_pos_iff.mpr (Rule.first?_eq_some found).2.2
      rw [List.length_append, List.length_cons]
      omega

end Scans

/-- Every text can be cut until nothing is left, or something at which no rule applies. -/
theorem exists_scans (text : List Char) :
    ∃ lexemes left, Scans text lexemes left ∧ (left ≠ [] -> Rule.first? left = none) := by
  induction size : text.length using Nat.strongRecOn generalizing text with
  | _ length ih =>
      cases found : Rule.first? text with
      | none => exact ⟨[], text, .stop text, fun _ => found⟩
      | some taken =>
          obtain ⟨rule, lexeme⟩ := taken
          obtain ⟨-, ⟨rest, rfl⟩, nonempty⟩ := Rule.first?_eq_some found
          have shorter : rest.length < length := by
            have positive := List.length_pos_iff.mpr nonempty
            rw [← size, List.length_append]
            omega
          obtain ⟨later, left, scans, stuck⟩ := ih _ shorter rest rfl
          exact ⟨(rule, lexeme) :: later, left, .step found scans, stuck⟩

/-- Scanning gives up at a character at which no rule applies. -/
theorem scan_of_first?_eq_none
    {character : Char}
    {rest : List Char}
    (never : Rule.first? (character :: rest) = none)
    (endable : Bool)
    (offset : Nat) :
    scan endable offset (character :: rest) = .error ⟨character, offset⟩ := by
  rw [scan]
  split
  next => rfl
  next found =>
    rw [never] at found
    cases found

/-- Scanning makes the tokens of the first lexeme and goes on behind it. -/
theorem scan_append
    {rule : Rule}
    {lexeme rest : List Char}
    (found : Rule.first? (lexeme ++ rest) = some (rule, lexeme))
    (endable : Bool)
    (offset : Nat) :
    scan endable offset (lexeme ++ rest) = do
      let later <- scan (rule.leavesEndable lexeme endable) (offset + byteLength lexeme) rest
      return rule.tokensAt lexeme endable offset ++ later := by
  obtain ⟨listed, -, nonempty⟩ := Rule.first?_eq_some found
  have stride := Rule.stride_eq listed (Rule.lexeme?_of_first? found)
  have unread := Rule.afterBytes_stride found
  rw [stride] at unread
  obtain ⟨first, more, rfl⟩ := List.exists_cons_of_ne_nil nonempty
  rw [List.cons_append] at found unread ⊢
  rw [scan]
  split
  next never =>
    rw [found] at never
    cases never
  next same =>
    rw [found] at same
    cases same
    simp only [unread, stride, Rule.leavesEndable, Rule.tokensAt]
    cases rule.content? (first :: more) with
    | some made => rfl
    | none =>
        by_cases isNewline : rule = .newline
        · simp only [if_pos isNewline]
        · simp only [if_neg isNewline, List.nil_append, bind_pure]

/-- Scanning gives the tokens of the lexemes if nothing is left. -/
theorem Scans.scan_eq
    {text : List Char}
    {lexemes : List (Rule × List Char)}
    (scans : Scans text lexemes [])
    (endable : Bool)
    (offset : Nat) :
    scan endable offset text = .ok (tokensOf endable offset lexemes) := by
  generalize isEmpty : ([] : List Char) = left at scans
  induction scans generalizing endable offset with
  | stop left =>
      subst isEmpty
      rw [scan, tokensOf]
  | step found scans ih =>
      rw [scan_append found, ih _ _ isEmpty, tokensOf]
      rfl

/-- Scanning gives up at the first character that is left. -/
theorem Scans.scan_eq_error
    {text rest : List Char}
    {lexemes : List (Rule × List Char)}
    {character : Char}
    (scans : Scans text lexemes (character :: rest))
    (never : Rule.first? (character :: rest) = none)
    (endable : Bool)
    (offset : Nat) :
    scan endable offset text = .error ⟨character, offset + byteLength (joined lexemes)⟩ := by
  generalize isLeft : character :: rest = left at scans
  induction scans generalizing endable offset with
  | stop left =>
      subst isLeft
      exact scan_of_first?_eq_none never endable offset
  | step found scans ih =>
      rw [scan_append found, ih _ _ isLeft, joined_cons, byteLength_append,
        Nat.add_assoc]
      rfl

/-- What scanning gives are the tokens of lexemes into which the text is cut. -/
theorem exists_scans_of_scan
    {endable : Bool}
    {offset : Nat}
    {text : List Char}
    {tokens : List Token}
    (scanned : scan endable offset text = .ok tokens) :
    ∃ lexemes, Scans text lexemes [] ∧ tokens = tokensOf endable offset lexemes := by
  obtain ⟨lexemes, left, scans, stuck⟩ := exists_scans text
  cases left with
  | nil =>
      rw [scans.scan_eq, Except.ok.injEq] at scanned
      exact ⟨lexemes, scans, scanned.symm⟩
  | cons character rest =>
      rw [scans.scan_eq_error (stuck (List.cons_ne_nil _ _))] at scanned
      cases scanned

/-- The tokens before the end of the file start inside the text. -/
def AreInside (offset : Nat) (text : List Char) (tokens : List Token) : Prop :=
  ∃ earlier,
    tokens = earlier ++ [endOfFile (offset + byteLength text)] ∧
      ∀ token ∈ earlier,
        token.kind ≠ .endOfFile ∧ token.span.start ≤ offset + byteLength text

theorem AreInside.append
    {offset later : Nat}
    {text rest : List Char}
    {tokens : List Token}
    (inside : AreInside later rest tokens)
    (earlier : List Token)
    (same : later + byteLength rest = offset + byteLength text)
    (earlierInside : ∀ token ∈ earlier,
      token.kind ≠ .endOfFile ∧ token.span.start ≤ offset + byteLength text) :
    AreInside offset text (earlier ++ tokens) := by
  obtain ⟨others, rfl, othersInside⟩ := inside
  refine ⟨earlier ++ others, by rw [List.append_assoc, same], ?_⟩
  rw [← same] at earlierInside ⊢
  simpa only [List.forall_mem_append] using ⟨earlierInside, othersInside⟩

/-- What is scanned lies inside the text. -/
theorem areInside_of_scan
    {endable : Bool}
    {offset : Nat}
    {text : List Char}
    {tokens : List Token}
    (scanned : scan endable offset text = .ok tokens) :
    AreInside offset text tokens := by
  obtain ⟨lexemes, scans, rfl⟩ := exists_scans_of_scan scanned
  clear scanned
  induction lexemes generalizing endable offset text with
  | nil =>
      cases scans
      exact ⟨_, rfl, by cases endable <;> simp [terminator, lineBreak]⟩
  | cons first later ih =>
      cases scans with
      | step found scans =>
          apply (ih scans).append
          · rw [byteLength_append, Nat.add_assoc]
          · intro token member
            rcases Rule.mem_tokensAt member with ⟨kind, value, content, rfl⟩ | rfl
            · exact ⟨Rule.content?_ne_endOfFile (Rule.first?_eq_some found).1 content,
                Nat.le_add_right _ _⟩
            · exact ⟨by simp [lineBreak], Nat.le_add_right _ _⟩

end Token

namespace Source

/-- A source has tokens just where scanning its text gives them. -/
theorem tokens_eq_ok {source : Source} {tokens : List Token} :
    source.tokens = .ok tokens ↔ Token.scan false 0 source.text.toList = .ok tokens := by
  unfold Source.tokens
  cases Token.scan false 0 source.text.toList <;> simp

end Source

end Frontend
