import Frontend.Proofs.Source.Place
import Frontend.Proofs.Token.Standing
import Frontend.Source.Cursor

/-!
# Scanning by slices

Scanning can also be told as the moves of a cursor: the text is only read in slices from
the cursor on, and each rule moves the cursor on by its stride. Slices that are
not there, or that cut a character, are faults; so are steps without end. Scanning by
slices gives what scanning gives, and thus meets no fault.
-/

namespace Frontend

open Token (byteLength)

namespace Token.Rule

/-- The rest of a string ends with the closing quote. -/
theorem exists_concat_of_stringTail
    {text tail : List Char}
    (found : stringTail text = some tail) :
    ∃ body, tail = body ++ ['"'] := by
  fun_induction stringTail text generalizing tail with
  | case1 => cases found
  | case2 rest =>
      cases found
      exact ⟨[], rfl⟩
  | case3 => cases found
  | case4 escaped rest notNewline ih =>
      obtain ⟨inner, innerFound, rfl⟩ := Option.map_eq_some_iff.mp found
      obtain ⟨body, rfl⟩ := ih innerFound
      exact ⟨'\\' :: escaped :: body, rfl⟩
  | case5 => cases found
  | case6 character rest _ _ _ ih =>
      obtain ⟨inner, innerFound, rfl⟩ := Option.map_eq_some_iff.mp found
      obtain ⟨body, rfl⟩ := ih innerFound
      exact ⟨character :: body, rfl⟩

/-- A string is a body between two quotes. -/
theorem exists_body
    {text lexeme : List Char}
    (found : lexeme? .string text = some lexeme) :
    ∃ body, lexeme = '"' :: (body ++ ['"']) := by
  obtain ⟨rest, tail, -, tailFound, rfl⟩ := exists_of_lexeme?_string found
  obtain ⟨body, rfl⟩ := exists_concat_of_stringTail tailFound
  exact ⟨body, rfl⟩

end Token.Rule

namespace Cursor

/-- The characters of a number of bytes, if that number ends on a boundary between
characters. -/
def takeBytes : Nat -> List Char -> Option (List Char)
  | 0, _ => some []
  | _ + 1, [] => none
  | bytes + 1, character :: rest =>
      if character.utf8Size ≤ bytes + 1 then
        (takeBytes (bytes + 1 - character.utf8Size) rest).map (character :: ·)
      else
        none

/-- The text from `first` up to `last`, both counted in bytes from the cursor on. -/
def slice (cursor : Cursor) (first last : Nat) : Except Fault String := do
  let unread <- cursor.rest
  if last < first then
    throw (.reversedRun first last)
  match (dropBytes first unread.toList).bind (takeBytes (last - first)) with
  | some characters => return String.ofList characters
  | none => throw (.position (cursor.offset + last))

/-- The kind and the value of the token that a lexeme of this number of bytes makes at
the cursor, if it makes one. A string is read without its quotes. -/
def read (cursor : Cursor) (bytes : Nat) :
    Token.Rule -> Except Fault (Option (Token.Kind × String))
  | .word => do
      let word <- cursor.slice 0 bytes
      return some (.ofWord word, word)
  | .number => do
      let numeral <- cursor.slice 0 bytes
      return some (if numeral.toList.contains '.' then .float else .int, numeral)
  | .string => do
      if bytes = 0 then
        throw (.position cursor.offset)
      let body <- cursor.slice 1 (bytes - 1)
      return some (.string, String.ofList (Token.Rule.unescape body.toList))
  | .symbol row => return some (row.kind, row.literal)
  | .newline | .blanks | .comment => return none

/-- The tokens from the cursor on, found in at most this number of steps, where
`endable` says whether the token before can end a statement. -/
def scanWithin :
    Nat -> Bool -> Cursor -> Except Fault (Except Token.Unrecognised (List Token))
  | 0, _, _ => throw .endless
  | steps + 1, endable, cursor =>
      if cursor.atEnd then do
        let (start, _) <- cursor.stretch 0
        return .ok (Token.terminator endable start ++ [Token.endOfFile start])
      else do
        let unread <- cursor.rest
        match Token.Rule.first? unread.toList with
        | none => do
            let (start, _) <- cursor.stretch 0
            return .error ⟨unread.toList.headD default, start⟩
        | some (rule, lexeme) => do
            let bytes := rule.stride lexeme
            let content <- cursor.read bytes rule
            let (start, stop) <- cursor.stretch bytes
            let next <- cursor.advance bytes
            match content with
            | some (kind, value) => do
                let later <- scanWithin steps kind.endsStatement next
                return later.map (⟨kind, value, ⟨start, stop⟩⟩ :: ·)
            | none =>
                if rule = .newline then do
                  let later <- scanWithin steps false next
                  return later.map (Token.terminator endable start ++ ·)
                else
                  scanWithin steps endable next

/-- The tokens of a source. There are no more steps than characters, and one for the
end. -/
def scan (source : Source) : Except Fault (Except Token.Unrecognised (List Token)) :=
  scanWithin (source.text.length + 1) false { source }

/-! ## Reading slices -/

theorem takeBytes_append (before after : List Char) :
    takeBytes (byteLength before) (before ++ after) = some before := by
  induction before with
  | nil => simp [takeBytes]
  | cons character rest ih =>
      have positive := character.utf8Size_pos
      have split : byteLength (character :: rest) =
          character.utf8Size + byteLength rest - 1 + 1 := by
        rw [Token.byteLength_cons]
        omega
      rw [List.cons_append, split, takeBytes, if_pos (by omega)]
      have left : character.utf8Size + byteLength rest - 1 + 1 - character.utf8Size =
          byteLength rest := by
        omega
      rw [left, ih]
      rfl

/-- The cursor stands before this text. -/
def StandsBefore (cursor : Cursor) (text : List Char) : Prop :=
  ∃ before, cursor.source.text.toList = before ++ text ∧ cursor.offset = byteLength before

namespace StandsBefore

variable {cursor : Cursor} {text : List Char}

theorem rest_eq (stands : cursor.StandsBefore text) :
    cursor.rest = .ok (String.ofList text) := by
  obtain ⟨before, split, offset⟩ := stands
  rw [rest, split, offset, dropBytes_append]

theorem slice_eq
    {first middle after : List Char}
    (stands : cursor.StandsBefore (first ++ middle ++ after)) :
    cursor.slice (byteLength first) (byteLength first + byteLength middle) =
      .ok (String.ofList middle) := by
  have ordered : ¬ byteLength first + byteLength middle < byteLength first := by omega
  simp only [slice, stands.rest_eq, bind, Except.bind, if_neg ordered, String.toList_ofList,
    List.append_assoc, dropBytes_append, Option.bind_some, Nat.add_sub_cancel_left,
    takeBytes_append]
  rfl

/-- The offset of a cursor and the bytes after it are those of the source. -/
theorem size_eq (stands : cursor.StandsBefore text) :
    cursor.offset + byteLength text = cursor.source.text.utf8ByteSize := by
  obtain ⟨before, split, offset⟩ := stands
  rw [offset, ← Token.byteLength_append, ← split, Token.byteLength_toList]

theorem atEnd_iff (stands : cursor.StandsBefore text) :
    cursor.atEnd = true ↔ text = [] := by
  have size := stands.size_eq
  rw [atEnd, decide_eq_true_eq]
  cases text with
  | nil =>
      simp only [iff_true]
      simp only [Token.byteLength_nil] at size
      omega
  | cons character rest =>
      have positive := character.utf8Size_pos
      rw [Token.byteLength_cons] at size
      simp only [reduceCtorEq, iff_false]
      omega

variable (stands : cursor.StandsBefore text)
  (short : cursor.source.text.utf8ByteSize < Source.wordSize)

include stands short

theorem stretch_eq {bytes : Nat} (inside : bytes ≤ byteLength text) :
    cursor.stretch bytes = .ok (cursor.offset, cursor.offset + bytes) := by
  have size := stands.size_eq
  have counted : cursor.offset + bytes < positions := by
    have wide : Source.wordSize < positions := by decide
    omega
  have start : cursor.offset % Source.wordSize = cursor.offset := Nat.mod_eq_of_lt (by omega)
  have stop : (cursor.offset + bytes) % Source.wordSize = cursor.offset + bytes :=
    Nat.mod_eq_of_lt (by omega)
  simp only [stretch, after, if_pos counted, bind, Except.bind, start, stop]
  rfl

theorem advance_eq
    {lexeme after : List Char}
    (split : text = lexeme ++ after) :
    ∃ next, cursor.advance (byteLength lexeme) = .ok next ∧ next.source = cursor.source ∧
      next.offset = cursor.offset + byteLength lexeme ∧ next.StandsBefore after := by
  have size := stands.size_eq
  rw [split, Token.byteLength_append] at size
  have counted : cursor.offset + byteLength lexeme < positions := by
    have wide : Source.wordSize < positions := by decide
    omega
  obtain ⟨before, whole, offset⟩ := stands
  refine ⟨{ cursor with offset := cursor.offset + byteLength lexeme }, ?_, rfl, rfl,
    before ++ lexeme, ?_, ?_⟩
  · simp only [advance, Cursor.after, if_pos counted, bind, Except.bind]
    rfl
  · rw [whole, split, List.append_assoc]
  · rw [offset, Token.byteLength_append]

end StandsBefore

/-- What a rule makes of its lexeme is read in slices. -/
theorem StandsBefore.read_eq
    {cursor : Cursor}
    {rule : Token.Rule}
    {text lexeme : List Char}
    (found : Token.Rule.first? text = some (rule, lexeme))
    (stands : cursor.StandsBefore text) :
    cursor.read (byteLength lexeme) rule = .ok (rule.content? lexeme) := by
  obtain ⟨-, ⟨after, split⟩, nonempty⟩ := Token.Rule.first?_eq_some found
  have whole : cursor.slice 0 (byteLength lexeme) = .ok (String.ofList lexeme) := by
    have stands : cursor.StandsBefore ([] ++ lexeme ++ after) := by
      rwa [List.nil_append, split]
    simpa using stands.slice_eq
  cases rule with
  | word =>
      simp only [read, whole, bind, Except.bind]
      rfl
  | number =>
      simp only [read, whole, bind, Except.bind, String.toList_ofList]
      rfl
  | string =>
      obtain ⟨body, rfl⟩ := Token.Rule.exists_body (Token.Rule.lexeme?_of_first? found)
      have quote : byteLength ['"'] = 1 := by decide
      have bytes : byteLength ('"' :: (body ++ ['"'])) - 1 = 1 + byteLength body := by
        rw [← List.singleton_append, Token.byteLength_append, Token.byteLength_append, quote]
        omega
      have inner : cursor.slice 1 (1 + byteLength body) = .ok (String.ofList body) := by
        have stands : cursor.StandsBefore (['"'] ++ body ++ ('"' :: after)) := by
          simpa [← split] using stands
        simpa only [quote] using stands.slice_eq
      have positive : byteLength ('"' :: (body ++ ['"'])) ≠ 0 := by
        rw [← List.singleton_append, Token.byteLength_append, quote]
        omega
      simp only [read, if_neg positive, bytes, inner, bind, Except.bind, String.toList_ofList,
        Token.Rule.content?, List.tail_cons, List.dropLast_concat]
      rfl
  | symbol row => rfl
  | newline => rfl
  | blanks => rfl
  | comment => rfl

/-- One step of scanning by slices: the tokens of the lexeme are made, and the cursor
stands behind it. -/
theorem scanWithin_succ
    {cursor : Cursor}
    (short : cursor.source.text.utf8ByteSize < Source.wordSize)
    {rule : Token.Rule}
    {lexeme rest : List Char}
    (stands : cursor.StandsBefore (lexeme ++ rest))
    (found : Token.Rule.first? (lexeme ++ rest) = some (rule, lexeme))
    (steps : Nat)
    (endable : Bool) :
    ∃ next : Cursor,
      next.source = cursor.source ∧ next.offset = cursor.offset + byteLength lexeme ∧
        next.StandsBefore rest ∧
        scanWithin (steps + 1) endable cursor = do
          let later <- scanWithin steps (rule.leavesEndable lexeme endable) next
          return later.map (rule.tokensAt lexeme endable cursor.offset ++ ·) := by
  obtain ⟨listed, -, nonempty⟩ := Token.Rule.first?_eq_some found
  have stride := Token.Rule.stride_eq listed (Token.Rule.lexeme?_of_first? found)
  have inside : byteLength lexeme ≤ byteLength (lexeme ++ rest) := by
    rw [Token.byteLength_append]
    exact Nat.le_add_right _ _
  have unended : ¬ cursor.atEnd = true := by
    rw [stands.atEnd_iff]
    exact List.append_ne_nil_of_left_ne_nil nonempty rest
  obtain ⟨next, advanced, sameSource, offset, later⟩ := stands.advance_eq short rfl
  refine ⟨next, sameSource, offset, later, ?_⟩
  rw [scanWithin, if_neg unended, stands.rest_eq]
  simp only [bind, Except.bind, String.toList_ofList, found, stride, stands.read_eq found,
    stands.stretch_eq short inside, advanced, Token.Rule.tokensAt, Token.Rule.leavesEndable]
  cases rule.content? lexeme with
  | some made => rfl
  | none =>
      by_cases isNewline : rule = .newline
      · simp only [if_pos isNewline]
      · simp only [if_neg isNewline]
        rcases scanWithin steps endable next with fault | (_ | _) <;> rfl

/-- Scanning by slices gives what scanning the text after the cursor gives. -/
theorem scanWithin_eq
    {cursor : Cursor}
    (short : cursor.source.text.utf8ByteSize < Source.wordSize)
    (endable : Bool)
    {text : List Char}
    (stands : cursor.StandsBefore text)
    {steps : Nat}
    (enough : text.length ≤ steps) :
    scanWithin (steps + 1) endable cursor = .ok (Token.scan endable cursor.offset text) := by
  obtain ⟨lexemes, left, scans, stuck⟩ := Token.exists_scans text
  induction scans generalizing cursor steps endable with
  | stop left =>
      cases left with
      | nil =>
          rw [scanWithin, if_pos (stands.atEnd_iff.mpr rfl),
            stands.stretch_eq short (Nat.zero_le _), Token.scan]
          rfl
      | cons character rest =>
          have unended : ¬ cursor.atEnd = true := by
            rw [stands.atEnd_iff]
            exact List.cons_ne_nil _ _
          have never := stuck (List.cons_ne_nil _ _)
          rw [scanWithin, if_neg unended, stands.rest_eq, Token.scan_of_first?_eq_none never]
          simp only [bind, Except.bind, String.toList_ofList, never,
            stands.stretch_eq short (Nat.zero_le _), List.headD_cons]
          rfl
  | step found scans ih =>
      -- The lexeme leaves a shorter text, and so there are steps left for it.
      have positive := List.length_pos_iff.mpr (Token.Rule.first?_eq_some found).2.2
      rw [List.length_append] at enough
      obtain ⟨more, rfl⟩ := Nat.exists_eq_succ_of_ne_zero (show steps ≠ 0 by omega)
      obtain ⟨next, sameSource, moved, later, step⟩ :=
        scanWithin_succ short stands found (more + 1) endable
      rw [step, ih (sameSource ▸ short) _ later (by omega) stuck, moved,
        Token.scan_append found]
      rcases Token.scan _ (cursor.offset + _) _ with _ | _ <;> rfl

/-- Scanning a source by slices meets no fault, and gives what scanning gives. -/
theorem scan_eq
    {source : Source}
    (short : source.text.utf8ByteSize < Source.wordSize) :
    scan source = .ok (Token.scan false 0 source.text.toList) := by
  have stands : StandsBefore { source } source.text.toList := ⟨[], rfl, rfl⟩
  exact scanWithin_eq short false stands (Nat.le_of_eq source.text.length_toList)

end Cursor

end Frontend
