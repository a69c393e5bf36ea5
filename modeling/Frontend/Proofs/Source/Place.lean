import Frontend.Proofs.Token.Scan
import Frontend.Source.Cursor

/-!
# Places and lines

A text up to some offset is a number of whole lines and a part of the next one. The
place of the offset is given by that number and by the bytes of that part. The line
with this number starts with this part, and goes on with what follows the offset.
Places come in the order of the offsets.
-/

namespace Frontend

open Token (byteLength)

/-- The location is on an earlier line, or on the same line and further left. -/
def Location.Before (first second : Location) : Prop :=
  first.line < second.line ∨ first.line = second.line ∧ first.column < second.column

theorem Location.Before.irrefl (location : Location) : ¬ location.Before location := by
  simp [Before]

namespace Text

/-- Whole lines, each with the newline that ends it. -/
def joinLines (lines : List (List Char)) : List Char :=
  (lines.map (· ++ ['\n'])).flatten

@[simp] theorem joinLines_nil : joinLines [] = [] :=
  rfl

@[simp] theorem joinLines_cons (line : List Char) (lines : List (List Char)) :
    joinLines (line :: lines) = line ++ '\n' :: joinLines lines := by
  simp [joinLines]

/-- Every text is a number of whole lines and a part of one. -/
theorem exists_joinLines (text : List Char) :
    ∃ lines current, text = joinLines lines ++ current ∧
      (∀ line ∈ lines, '\n' ∉ line) ∧ '\n' ∉ current := by
  induction text with
  | nil => exact ⟨[], [], rfl, by simp, by simp⟩
  | cons character rest ih =>
      obtain ⟨lines, current, rfl, whole, part⟩ := ih
      by_cases isNewline : character = '\n'
      · exact ⟨[] :: lines, current, by simp [isNewline], by simpa using whole, part⟩
      · cases lines with
        | nil =>
            refine ⟨[], character :: current, by simp, by simp, ?_⟩
            simpa [part] using Ne.symm isNewline
        | cons line lines =>
            rw [List.forall_mem_cons] at whole
            refine ⟨(character :: line) :: lines, current, by simp, ?_, part⟩
            rw [List.forall_mem_cons]
            exact ⟨by simpa [whole.1] using Ne.symm isNewline, whole.2⟩

/-- The line after a number of whole lines. -/
theorem lineAfter_eq
    {lines : List (List Char)}
    {current : List Char}
    (whole : ∀ line ∈ lines, '\n' ∉ line)
    (part : '\n' ∉ current)
    (after : List Char) :
    lineAfter lines.length (joinLines lines ++ current ++ after) =
      some (current ++ after.takeWhile (· ≠ '\n')) := by
  have skips : ∀ characters : List Char, '\n' ∉ characters ->
      ∀ character ∈ characters, decide (character ≠ '\n') = true := by
    intro characters absent character member
    exact decide_eq_true fun same => absent (same ▸ member)
  induction lines with
  | nil =>
      rw [joinLines_nil, List.nil_append, List.length_nil, lineAfter,
        List.takeWhile_append_of_pos (skips current part)]
  | cons line lines ih =>
      rw [List.forall_mem_cons] at whole
      rw [List.length_cons, joinLines_cons, lineAfter, List.append_assoc, List.append_assoc,
        List.dropWhile_append_of_pos (skips line whole.1), List.cons_append,
        List.dropWhile_cons_of_neg (by simp)]
      simpa using ih whole.2

theorem dropTrailing_isPrefix (drop : Char -> Bool) (text : List Char) :
    dropTrailing drop text <+: text := by
  rw [dropTrailing, ← List.reverse_suffix, List.reverse_reverse]
  exact List.dropWhile_suffix _

/-- What is dropped at the end does not reach beyond a character that stays. -/
theorem dropTrailing_append
    {drop : Char -> Bool}
    {kept : List Char}
    {last : Char}
    (stays : drop last = false)
    (rest : List Char) :
    dropTrailing drop (kept ++ last :: rest) = kept ++ last :: dropTrailing drop rest := by
  have split : (kept ++ last :: rest).reverse = rest.reverse ++ last :: kept.reverse := by
    simp
  rw [dropTrailing, split, List.dropWhile_append, dropTrailing]
  split
  next empty =>
    rw [List.isEmpty_iff] at empty
    simp [empty, stays]
  next => simp

end Text

namespace LineIndex

theorem lt_of_mem_startsAfter
    {offset next : Nat}
    {text : List Char}
    (member : next ∈ startsAfter offset text) :
    offset < next := by
  induction text generalizing offset with
  | nil => cases member
  | cons character rest ih =>
      have positive := character.utf8Size_pos
      have later : next ∈ startsAfter (offset + character.utf8Size) rest -> offset < next :=
        fun inRest => Nat.lt_of_le_of_lt (Nat.le_add_right _ _) (ih inRest)
      rw [startsAfter] at member
      split at member
      next =>
        rcases List.mem_cons.mp member with rfl | member
        · omega
        · exact later member
      next => exact later member

/-- No line starts in a part without a newline. -/
theorem startsAfter_append
    {part : List Char}
    (absent : '\n' ∉ part)
    (offset : Nat)
    (rest : List Char) :
    startsAfter offset (part ++ rest) = startsAfter (offset + byteLength part) rest := by
  induction part generalizing offset with
  | nil => rfl
  | cons character part ih =>
      rw [List.mem_cons, not_or] at absent
      rw [List.cons_append, startsAfter, if_neg (Ne.symm absent.1), ih absent.2]
      rw [Token.byteLength_cons, Nat.add_assoc]

/-- The place of an offset, counted from the start of a line. -/
theorem placeFrom_eq
    {lines : List (List Char)}
    {current : List Char}
    (whole : ∀ line ∈ lines, '\n' ∉ line)
    (part : '\n' ∉ current)
    (after : List Char)
    (line start : Nat) :
    placeFrom (start + byteLength (Text.joinLines lines ++ current)) line start
        (startsAfter start (Text.joinLines lines ++ current ++ after)) =
      (line + lines.length, byteLength current + 1) := by
  induction lines generalizing line start with
  | nil =>
      rw [Text.joinLines_nil, List.nil_append, startsAfter_append part]
      cases later : startsAfter (start + byteLength current) after with
      | nil => simp [placeFrom]
      | cons next rest =>
          have beyond : start + byteLength current < next :=
            lt_of_mem_startsAfter (by rw [later]; exact List.mem_cons_self)
          rw [placeFrom, if_neg (by omega)]
          simp
  | cons first lines ih =>
      rw [List.forall_mem_cons] at whole
      have newline : Char.utf8Size '\n' = 1 := by decide
      let next := start + byteLength first + 1
      have starts : startsAfter start
          (Text.joinLines (first :: lines) ++ current ++ after) =
            next :: startsAfter next (Text.joinLines lines ++ current ++ after) := by
        rw [Text.joinLines_cons, List.append_assoc, List.append_assoc,
          startsAfter_append whole.1, List.cons_append, startsAfter, if_pos rfl, newline,
          List.append_assoc]
      have offset : start + byteLength (Text.joinLines (first :: lines) ++ current) =
          next + byteLength (Text.joinLines lines ++ current) := by
        simp only [Text.joinLines_cons, Token.byteLength_append, Token.byteLength_cons,
          newline, next]
        omega
      rw [starts, offset, placeFrom, if_pos (Nat.le_add_right _ _),
        ih whole.2]
      simp only [List.length_cons, Prod.mk.injEq, and_true]
      omega

theorem le_line_placeFrom (offset line start : Nat) (starts : List Nat) :
    line ≤ (placeFrom offset line start starts).1 := by
  induction starts generalizing line start with
  | nil => exact Nat.le_refl line
  | cons next later ih =>
      rw [placeFrom]
      split
      · exact Nat.le_of_succ_le (ih (line + 1) next)
      · exact Nat.le_refl line

/-- A later offset is on a later line, or on the same line in a later column. -/
theorem placeFrom_lt
    {first second start : Nat}
    (before : first < second)
    (started : start ≤ first)
    (line : Nat)
    (starts : List Nat) :
    (placeFrom first line start starts).1 < (placeFrom second line start starts).1 ∨
      (placeFrom first line start starts).1 = (placeFrom second line start starts).1 ∧
        (placeFrom first line start starts).2 < (placeFrom second line start starts).2 := by
  induction starts generalizing line start with
  | nil => exact .inr ⟨rfl, by dsimp only [placeFrom]; omega⟩
  | cons next later ih =>
      rw [placeFrom, placeFrom]
      by_cases firstReaches : next ≤ first
      · rw [if_pos firstReaches, if_pos (Nat.le_trans firstReaches (Nat.le_of_lt before))]
        exact ih firstReaches (line + 1)
      · rw [if_neg firstReaches]
        by_cases secondReaches : next ≤ second
        · rw [if_pos secondReaches]
          exact .inl (le_line_placeFrom second (line + 1) next later)
        · rw [if_neg secondReaches]
          exact .inr ⟨rfl, by dsimp only; omega⟩

end LineIndex

namespace Cursor

/-- The characters after a number of bytes are those after the characters with so many
bytes. -/
theorem dropBytes_append (before after : List Char) :
    dropBytes (byteLength before) (before ++ after) = some after := by
  induction before with
  | nil => simp [dropBytes]
  | cons character before ih =>
      have positive := character.utf8Size_pos
      have size : byteLength (character :: before) =
          (character.utf8Size - 1 + byteLength before) + 1 := by
        rw [Token.byteLength_cons]
        omega
      rw [size, List.cons_append, dropBytes, if_pos (by omega)]
      have rest : character.utf8Size - 1 + byteLength before + 1 - character.utf8Size =
          byteLength before := by
        omega
      rw [rest, ih]

end Cursor

namespace Source

variable {source : Source}

/-- A later offset has a later place. -/
theorem place_before (source : Source) {first second : Nat} (before : first < second) :
    (source.place first).Before (source.place second) :=
  LineIndex.placeFrom_lt before (Nat.zero_le first) 0 source.lines.starts

/-- The line of a location goes on from its column with the quoted text, and then with
what `Follows`. The column counts bytes, and is that of a character in the line. -/
def Shows
    (source : Source)
    (location : Location)
    (quoted : String)
    (Follows : List Char -> Prop) : Prop :=
  ∃ line rest,
    Text.line? source.text location.line = some line ∧
      0 < location.column ∧ location.column - 1 < line.utf8ByteSize ∧
      Cursor.dropBytes (location.column - 1) line.toList = some (quoted.toList ++ rest) ∧
      Follows rest

/-- The place of an offset shows the text that stands there, if it is on one line and no
carriage return ends it. -/
theorem shows_place
    {before after : List Char}
    {first : List Char}
    {last : Char}
    (text : source.text.toList = before ++ (first ++ [last]) ++ after)
    (oneLine : '\n' ∉ first ++ [last])
    (stays : last ≠ '\r') :
    source.Shows (source.place (byteLength before)) (String.ofList (first ++ [last]))
      fun rest => rest <+: after.takeWhile (· ≠ '\n') := by
  obtain ⟨lines, current, rfl, whole, part⟩ := Text.exists_joinLines before
  have place : source.place (byteLength (Text.joinLines lines ++ current)) =
      { line := lines.length + 1, column := byteLength current + 1, file := source.file } := by
    have found := LineIndex.placeFrom_eq whole part (first ++ [last] ++ after) 1 0
    rw [Nat.zero_add] at found
    rw [Source.place, LineIndex.place, source.lines_eq, LineIndex.ofText, text,
      LineIndex.placeFrom, if_pos (Nat.zero_le _), List.append_assoc _ (first ++ [last]), found,
      Nat.add_comm 1]
  have onLine : (first ++ [last] ++ after).takeWhile (· ≠ '\n') =
      first ++ last :: after.takeWhile (· ≠ '\n') := by
    rw [List.takeWhile_append_of_pos, List.append_assoc, List.singleton_append]
    intro character member
    exact decide_eq_true fun same => oneLine (same ▸ member)
  let rest := Text.dropTrailing (· = '\r') (after.takeWhile (· ≠ '\n'))
  have line : Text.line? source.text (lines.length + 1) =
      some (String.ofList (current ++ (first ++ last :: rest))) := by
    rw [Text.line?, text, List.append_assoc _ (first ++ [last]),
      Text.lineAfter_eq whole part, onLine, Option.map_some, ← List.append_assoc,
      Text.dropTrailing_append (by simpa using stays), List.append_assoc]
  rw [place]
  refine ⟨_, rest, line, Nat.succ_pos _, ?_, ?_, ?_⟩
  · have positive := last.utf8Size_pos
    rw [← Token.byteLength_eq_utf8ByteSize]
    simp only [Token.byteLength_append, Token.byteLength_cons]
    omega
  · rw [Nat.add_sub_cancel, String.toList_ofList, Cursor.dropBytes_append,
      String.toList_ofList]
    simp
  · exact Text.dropTrailing_isPrefix _ _

end Source
end Frontend
