import Frontend.Proofs.Source.Place
import Mathlib.Data.List.DropRight

/-!
# Places and lines by bytes

Offsets count bytes, and may point into the middle of a character. The bytes of a newline
and of a carriage return are met in no other character, so lines may be told by bytes
alone: the line of an offset is given by the newlines before it, its column by the bytes
since the last of them, and the text of the line by the bytes around the offset.
-/

namespace Frontend

open Token (byteLength)

namespace Text

/-- The bytes of a text. -/
def bytes (text : String) : List UInt8 :=
  text.toUTF8.data.toList

/-- The byte of a newline. -/
def newline : UInt8 := 10

/-- The byte of a carriage return. -/
def carriageReturn : UInt8 := 13

/-- The number of newlines before an offset. -/
def breaksBefore (text : String) (offset : Nat) : Nat :=
  ((bytes text).take offset).count newline

/-- The bytes before an offset that come after all newlines there. -/
def sinceBreak (text : String) (offset : Nat) : List UInt8 :=
  ((bytes text).take offset).rtakeWhile (· ≠ newline)

/-! ## Characters as bytes -/

/-- The bytes of characters. -/
def encode (characters : List Char) : List UInt8 :=
  characters.flatMap String.utf8EncodeChar

theorem bytes_ofList (characters : List Char) :
    bytes (String.ofList characters) = encode characters := by
  simp [bytes, String.toUTF8, List.utf8Encode, encode]

theorem bytes_eq_encode (text : String) : bytes text = encode text.toList := by
  rw [← bytes_ofList, String.ofList_toList]

theorem encode_cons (character : Char) (rest : List Char) :
    encode (character :: rest) = String.utf8EncodeChar character ++ encode rest :=
  List.flatMap_cons

theorem encode_concat (characters : List Char) (last : Char) :
    encode (characters ++ [last]) = encode characters ++ String.utf8EncodeChar last := by
  simp [encode]

theorem length_encode (characters : List Char) :
    (encode characters).length = byteLength characters := by
  induction characters with
  | nil => rfl
  | cons character rest ih =>
      rw [encode_cons, List.length_append, String.length_utf8EncodeChar, ih,
        Token.byteLength_cons]

theorem length_bytes (text : String) : (bytes text).length = text.utf8ByteSize := by
  rw [bytes_eq_encode, length_encode, Token.byteLength_toList]

/-- A character is a byte of its own below 128, or made of larger bytes. -/
theorem utf8EncodeChar_cases (character : Char) :
    (character.toNat < 128 ∧
        String.utf8EncodeChar character = [UInt8.ofNat character.toNat]) ∨
      ∀ byte ∈ String.utf8EncodeChar character, 128 ≤ byte.toNat := by
  unfold String.utf8EncodeChar
  change character.val.toNat < 128 ∧ _ ∨ _
  dsimp only
  split
  · exact .inl ⟨by omega, rfl⟩
  · right
    split
    · simp only [List.mem_cons, List.not_mem_nil, or_false]
      rintro byte (rfl | rfl) <;> rw [UInt8.toNat_ofNat'] <;> omega
    · split
      · simp only [List.mem_cons, List.not_mem_nil, or_false]
        rintro byte (rfl | rfl | rfl) <;> rw [UInt8.toNat_ofNat'] <;> omega
      · simp only [List.mem_cons, List.not_mem_nil, or_false]
        rintro byte (rfl | rfl | rfl | rfl) <;> rw [UInt8.toNat_ofNat'] <;> omega

section Marks

variable
  {mark : Char}
  {byte : UInt8}
  (same : byte.toNat = mark.toNat)
  (ascii : byte.toNat < 128)

include same ascii

theorem utf8EncodeChar_mark : String.utf8EncodeChar mark = [byte] := by
  have single : [UInt8.ofNat mark.toNat] = [byte] := by
    rw [← same, UInt8.ofNat_toNat]
  rw [← single, String.utf8EncodeChar]
  have small : mark.val.toNat ≤ 127 := by
    change mark.toNat ≤ 127
    omega
  exact if_pos small

/-- The byte of such a mark is met in no other character. -/
theorem mem_utf8EncodeChar_iff {character : Char} :
    byte ∈ String.utf8EncodeChar character ↔ character = mark := by
  constructor
  · intro member
    rcases utf8EncodeChar_cases character with ⟨small, encoded⟩ | large
    · rw [encoded, List.mem_singleton] at member
      apply Char.toNat_inj.mp
      rw [← same, member, UInt8.toNat_ofNat']
      omega
    · have := large byte member
      omega
  · rintro rfl
    rw [utf8EncodeChar_mark same ascii]
    exact List.mem_singleton_self byte

theorem forall_mem_utf8EncodeChar
    {character : Char}
    (different : character ≠ mark) :
    ∀ other ∈ String.utf8EncodeChar character, decide (other ≠ byte) = true := by
  intro other member
  refine decide_eq_true fun equal => different ?_
  rw [← mem_utf8EncodeChar_iff same ascii, ← equal]
  exact member

/-- The characters before the first mark have the bytes before its byte. -/
theorem encode_takeWhile (text : List Char) :
    encode (text.takeWhile (· ≠ mark)) = (encode text).takeWhile (· ≠ byte) := by
  induction text with
  | nil => rfl
  | cons character rest ih =>
      rw [encode_cons]
      by_cases isMark : character = mark
      · rw [isMark, utf8EncodeChar_mark same ascii, List.takeWhile_cons_of_neg (by simp),
          List.singleton_append, List.takeWhile_cons_of_neg (by simp)]
        rfl
      · rw [List.takeWhile_cons_of_pos (by simpa using isMark), encode_cons, ih,
          List.takeWhile_append_of_pos (forall_mem_utf8EncodeChar same ascii isMark)]

/-- The characters from the first mark on have the bytes from its byte on. -/
theorem encode_dropWhile (text : List Char) :
    encode (text.dropWhile (· ≠ mark)) = (encode text).dropWhile (· ≠ byte) := by
  have whole := congrArg encode (@List.takeWhile_append_dropWhile _ (· ≠ mark) text)
  rw [encode, List.flatMap_append, ← encode, ← encode, encode_takeWhile same ascii] at whole
  exact List.append_cancel_left (whole.trans List.takeWhile_append_dropWhile.symm)

/-- Dropping marks at the end drops their bytes there. -/
theorem encode_dropTrailing (text : List Char) :
    encode (dropTrailing (· = mark) text) = (encode text).rdropWhile (· = byte) := by
  change encode (text.rdropWhile (· = mark)) = _
  induction text using List.reverseRecOn with
  | nil => rfl
  | append_singleton rest last ih =>
      rw [encode_concat]
      by_cases isMark : last = mark
      · rw [isMark, List.rdropWhile_concat_pos _ _ _ (by simp), utf8EncodeChar_mark same ascii,
          List.rdropWhile_concat_pos _ _ _ (by simp), ih]
      · have nonempty : String.utf8EncodeChar last ≠ [] := by
          rw [← List.length_pos_iff, String.length_utf8EncodeChar]
          exact last.utf8Size_pos
        have stays := forall_mem_utf8EncodeChar same ascii isMark _
          (List.getLast_mem nonempty)
        rw [List.rdropWhile_concat_neg _ _ _ (by simpa using isMark), encode_concat, eq_comm,
          List.rdropWhile_eq_self_iff]
        intro _
        rw [List.getLast_append_of_ne_nil _ nonempty]
        simpa using stays

end Marks

/-! ## Lines as bytes -/

/-- The bytes of the line that `skipped` lines precede. -/
def lineOfBytes : Nat -> List UInt8 -> Option (List UInt8)
  | 0, bytes => some (bytes.takeWhile (· ≠ newline))
  | skipped + 1, bytes =>
      match bytes.dropWhile (· ≠ newline) with
      | [] => none
      | _ :: rest => lineOfBytes skipped rest

/-- The bytes of a line are a line of the bytes. -/
theorem map_encode_lineAfter (skipped : Nat) (text : List Char) :
    (lineAfter skipped text).map encode = lineOfBytes skipped (encode text) := by
  have same : newline.toNat = '\n'.toNat := rfl
  have ascii : newline.toNat < 128 := by decide
  induction skipped generalizing text with
  | zero => rw [lineAfter, Option.map_some, encode_takeWhile same ascii, lineOfBytes]
  | succ skipped ih =>
      rw [lineAfter, lineOfBytes, ← encode_dropWhile same ascii]
      cases dropped : text.dropWhile (· ≠ '\n') with
      | nil => rfl
      | cons character rest =>
          have isNewline : character = '\n' := by
            simpa using Token.dropWhile_stops (· ≠ '\n') text character (by rw [dropped]; rfl)
          rw [isNewline, encode_cons, utf8EncodeChar_mark same ascii]
          exact ih rest

/-- The first line goes on with a byte that ends no line. -/
theorem lineOfBytes_zero_cons {byte : UInt8} (goesOn : byte ≠ newline) (rest : List UInt8) :
    lineOfBytes 0 (byte :: rest) = (lineOfBytes 0 rest).map (byte :: ·) := by
  rw [lineOfBytes, lineOfBytes, List.takeWhile_cons_of_pos (by simpa using goesOn),
    Option.map_some]

/-- A byte that ends no line does not matter to later lines. -/
theorem lineOfBytes_succ_cons
    {byte : UInt8}
    (goesOn : byte ≠ newline)
    (skipped : Nat)
    (rest : List UInt8) :
    lineOfBytes (skipped + 1) (byte :: rest) = lineOfBytes (skipped + 1) rest := by
  rw [lineOfBytes, lineOfBytes, List.dropWhile_cons_of_pos (by simpa using goesOn)]

/-- A newline ends a line. -/
theorem lineOfBytes_succ_newline (skipped : Nat) (rest : List UInt8) :
    lineOfBytes (skipped + 1) (newline :: rest) = lineOfBytes skipped rest := by
  rw [lineOfBytes, List.dropWhile_cons_of_neg (by simp)]

/-- There are as many lines as newlines, and one more. -/
theorem lineOfBytes_eq_none_iff {skipped : Nat} {bytes : List UInt8} :
    lineOfBytes skipped bytes = none ↔ bytes.count newline < skipped := by
  induction bytes generalizing skipped with
  | nil => cases skipped <;> simp [lineOfBytes]
  | cons byte rest ih =>
      cases skipped with
      | zero => simp [lineOfBytes]
      | succ skipped =>
          by_cases isNewline : byte = newline
          · rw [isNewline, lineOfBytes_succ_newline, ih, List.count_cons_self]
            omega
          · rw [lineOfBytes_succ_cons isNewline, ih,
              List.count_cons_of_ne isNewline]

/-- What comes before a newline does not count for the bytes since the last one. -/
theorem rtakeWhile_append_newline (before after : List UInt8) :
    (before ++ newline :: after).rtakeWhile (· ≠ newline) =
      after.rtakeWhile (· ≠ newline) := by
  induction after using List.reverseRecOn with
  | nil => exact List.rtakeWhile_concat_neg _ _ _ (by simp)
  | append_singleton rest last ih =>
      rw [← List.cons_append, ← List.append_assoc]
      by_cases isNewline : last = newline
      · rw [List.rtakeWhile_concat_neg _ _ _ (by simpa using isNewline),
          List.rtakeWhile_concat_neg _ _ _ (by simpa using isNewline)]
      · rw [List.rtakeWhile_concat_pos _ _ _ (by simpa using isNewline),
          List.rtakeWhile_concat_pos _ _ _ (by simpa using isNewline), ih]

theorem rtakeWhile_of_not_mem {bytes : List UInt8} (absent : newline ∉ bytes) :
    bytes.rtakeWhile (· ≠ newline) = bytes := by
  rw [List.rtakeWhile_eq_self_iff]
  intro byte member
  exact decide_eq_true fun isNewline => absent (isNewline ▸ member)

/-- The line of an offset is what stands around it between two newlines. -/
theorem lineOfBytes_count_take (bytes : List UInt8) (offset : Nat) :
    lineOfBytes ((bytes.take offset).count newline) bytes =
      some ((bytes.take offset).rtakeWhile (· ≠ newline) ++
        (bytes.drop offset).takeWhile (· ≠ newline)) := by
  induction bytes generalizing offset with
  | nil => simp [lineOfBytes, List.rtakeWhile_nil]
  | cons byte rest ih =>
      cases offset with
      | zero => simp [lineOfBytes, List.rtakeWhile_nil]
      | succ offset =>
          rw [List.take_succ_cons, List.drop_succ_cons]
          by_cases isNewline : byte = newline
          · rw [isNewline, List.count_cons_self, lineOfBytes_succ_newline, ih]
            have cut := rtakeWhile_append_newline [] (rest.take offset)
            rw [List.nil_append] at cut
            rw [cut]
          · rw [List.count_cons_of_ne isNewline]
            by_cases broken : newline ∈ rest.take offset
            · obtain ⟨before, after, split⟩ := List.append_of_mem broken
              obtain ⟨earlier, count⟩ :=
                Nat.exists_eq_succ_of_ne_zero (Nat.ne_of_gt (List.count_pos_iff.mpr broken))
              rw [count, lineOfBytes_succ_cons isNewline, ← Nat.succ_eq_add_one, ← count,
                ih, split, ← List.cons_append, rtakeWhile_append_newline,
                rtakeWhile_append_newline]
            · have whole : newline ∉ byte :: rest.take offset := by
                rw [List.mem_cons, not_or]
                exact ⟨Ne.symm isNewline, broken⟩
              have known := ih offset
              rw [List.count_eq_zero_of_not_mem broken, rtakeWhile_of_not_mem broken] at known
              rw [List.count_eq_zero_of_not_mem broken, lineOfBytes_zero_cons isNewline, known,
                rtakeWhile_of_not_mem whole]
              rfl

theorem sinceBreak_length_le (text : String) (offset : Nat) :
    (sinceBreak text offset).length ≤ offset :=
  Nat.le_trans (List.rtakeWhile_suffix _ _).length_le (List.length_take_le _ _)

/-- From the start of its line on, the bytes around an offset follow each other. -/
theorem takeWhile_drop_sinceBreak
    {text : String}
    {offset : Nat}
    (inside : offset ≤ text.utf8ByteSize) :
    ((bytes text).drop (offset - (sinceBreak text offset).length)).takeWhile (· ≠ newline) =
      sinceBreak text offset ++ ((bytes text).drop offset).takeWhile (· ≠ newline) := by
  obtain ⟨earlier, split⟩ := List.rtakeWhile_suffix (· ≠ newline) ((bytes text).take offset)
  change earlier ++ sinceBreak text offset = _ at split
  have whole : bytes text = earlier ++ (sinceBreak text offset ++ (bytes text).drop offset) := by
    rw [← List.append_assoc, split, List.take_append_drop]
  have start : offset - (sinceBreak text offset).length = earlier.length := by
    have lengths := congrArg List.length split
    rw [List.length_append, List.length_take_of_le (by rwa [length_bytes])] at lengths
    omega
  rw [start]
  conv_lhs => rw [whole, List.drop_left]
  exact List.takeWhile_append_of_pos fun byte member =>
    List.mem_rtakeWhile_imp (p := (· ≠ newline)) member

/-- The line of an offset, by the bytes around it. -/
theorem exists_line?_breaksBefore (text : String) (offset : Nat) :
    ∃ line, line? text (breaksBefore text offset + 1) = some line ∧
      bytes line = (sinceBreak text offset ++
        ((bytes text).drop offset).takeWhile (· ≠ newline)).rdropWhile (· = carriageReturn) := by
  have found := lineOfBytes_count_take (bytes text) offset
  rw [bytes_eq_encode, ← map_encode_lineAfter, Option.map_eq_some_iff] at found
  obtain ⟨line, isLine, encoded⟩ := found
  refine ⟨String.ofList (dropTrailing (· = '\r') line), ?_, ?_⟩
  · rw [line?, breaksBefore, bytes_eq_encode, isLine, Option.map_some]
  · have same : carriageReturn.toNat = '\r'.toNat := rfl
    rw [bytes_ofList, encode_dropTrailing same (by decide), encoded, sinceBreak,
      bytes_eq_encode]

/-- Lines are counted from one on, and there is one more of them than newlines. -/
theorem line?_eq_none_iff {text : String} {number : Nat} :
    line? text number = none ↔
      number = 0 ∨ (bytes text).count newline + 1 < number := by
  cases number with
  | zero => simp [line?]
  | succ skipped =>
      rw [line?, Option.map_eq_none_iff, ← Option.map_eq_none_iff (f := encode),
        map_encode_lineAfter, ← bytes_eq_encode, lineOfBytes_eq_none_iff]
      omega

end Text

/-! ## Places by bytes -/

namespace LineIndex

open Text (newline encode)

/-- The offsets that directly follow a newline, for bytes that start at `offset`. -/
def startsInBytes (offset : Nat) : List UInt8 -> List Nat
  | [] => []
  | byte :: rest =>
      if byte = newline then
        (offset + 1) :: startsInBytes (offset + 1) rest
      else
        startsInBytes (offset + 1) rest

/-- No line starts in bytes without a newline. -/
theorem startsInBytes_append
    {part : List UInt8}
    (absent : newline ∉ part)
    (offset : Nat)
    (rest : List UInt8) :
    startsInBytes offset (part ++ rest) = startsInBytes (offset + part.length) rest := by
  induction part generalizing offset with
  | nil => rfl
  | cons byte part ih =>
      rw [List.mem_cons, not_or] at absent
      rw [List.cons_append, startsInBytes, if_neg (Ne.symm absent.1),
        ih absent.2, List.length_cons, Nat.add_assoc, Nat.add_comm 1]

/-- Lines start where the bytes say so. -/
theorem startsAfter_eq (offset : Nat) (text : List Char) :
    startsAfter offset text = startsInBytes offset (encode text) := by
  have same : newline.toNat = '\n'.toNat := rfl
  have ascii : newline.toNat < 128 := by decide
  induction text generalizing offset with
  | nil => rfl
  | cons character rest ih =>
      rw [startsAfter, Text.encode_cons, ih]
      split
      next isNewline =>
        rw [isNewline, Text.utf8EncodeChar_mark same ascii, List.singleton_append, startsInBytes,
          if_pos rfl]
        rfl
      next goesOn =>
        have absent : newline ∉ String.utf8EncodeChar character :=
          (Text.mem_utf8EncodeChar_iff same ascii).not.mpr goesOn
        rw [startsInBytes_append absent, String.length_utf8EncodeChar]

theorem lt_of_mem_startsInBytes
    {offset next : Nat}
    {bytes : List UInt8}
    (member : next ∈ startsInBytes offset bytes) :
    offset < next := by
  induction bytes generalizing offset with
  | nil => cases member
  | cons byte rest ih =>
      rw [startsInBytes] at member
      split at member
      next =>
        rcases List.mem_cons.mp member with rfl | later
        · exact Nat.lt_succ_self offset
        · exact Nat.lt_of_succ_lt (ih later)
      next => exact Nat.lt_of_succ_lt (ih member)

/-- The starts of the lines are in ascending order. -/
theorem pairwise_startsInBytes (offset : Nat) (bytes : List UInt8) :
    (startsInBytes offset bytes).Pairwise (· < ·) := by
  induction bytes generalizing offset with
  | nil => exact .nil
  | cons byte rest ih =>
      rw [startsInBytes]
      split
      next =>
        exact .cons (fun next member => lt_of_mem_startsInBytes member)
          (ih (offset + 1))
      next => exact ih (offset + 1)

/-- The place of an offset in bytes, of which some were passed since a line started. -/
theorem placeFrom_startsInBytes
    {passed : List UInt8}
    (absent : newline ∉ passed)
    (bytes : List UInt8)
    {offset : Nat}
    (inside : offset ≤ bytes.length)
    (line start : Nat) :
    placeFrom (start + passed.length + offset) line start
        (startsInBytes (start + passed.length) bytes) =
      (line + (bytes.take offset).count newline,
        ((passed ++ bytes.take offset).rtakeWhile (· ≠ newline)).length + 1) := by
  induction bytes generalizing passed offset line start with
  | nil =>
      obtain rfl : offset = 0 := Nat.le_zero.mp inside
      rw [List.take_nil, List.append_nil, Text.rtakeWhile_of_not_mem absent]
      simp [startsInBytes, placeFrom]
  | cons byte rest ih =>
      cases offset with
      | zero =>
          -- Every later line starts behind the offset.
          rw [List.take_zero, List.append_nil, Text.rtakeWhile_of_not_mem absent]
          cases later : startsInBytes (start + passed.length) (byte :: rest) with
          | nil => simp [placeFrom]
          | cons next others =>
              have beyond : start + passed.length < next :=
                lt_of_mem_startsInBytes (by rw [later]; exact List.mem_cons_self)
              rw [placeFrom, if_neg (by omega)]
              simp
      | succ offset =>
          have shorter : offset ≤ rest.length := Nat.le_of_succ_le_succ inside
          rw [List.take_succ_cons, startsInBytes]
          split
          next isNewline =>
            have step := ih (List.not_mem_nil (a := newline)) shorter (line + 1)
              (start + passed.length + 1)
            simp only [List.length_nil, Nat.add_zero, List.nil_append] at step
            rw [placeFrom, if_pos (by omega), isNewline, Text.rtakeWhile_append_newline,
              List.count_cons_self, Nat.add_comm offset 1, ← Nat.add_assoc, step]
            simp only [Prod.mk.injEq, and_true]
            omega
          next goesOn =>
            have longer : newline ∉ passed ++ [byte] := by
              rw [List.mem_append, List.mem_singleton, not_or]
              exact ⟨absent, Ne.symm goesOn⟩
            have step := ih longer shorter line start
            rw [List.length_append, List.length_singleton, ← Nat.add_assoc, List.append_assoc,
              List.singleton_append] at step
            rw [List.count_cons_of_ne goesOn, ← step, Nat.add_assoc _ 1 offset,
              Nat.add_comm 1 offset]

/-- What a search for an offset among ascending starts may answer: the line that starts
there, or the first line that starts behind it. -/
inductive Answers (starts : List Nat) (offset : Nat) : Except Nat Nat -> Prop
  | found
      {line : Nat}
      (present : starts[line]? = some offset) :
      Answers starts offset (.ok line)
  | missing
      {next : Nat}
      (inside : next ≤ starts.length)
      (before : ∀ line start, line < next -> starts[line]? = some start -> start < offset)
      (behind : ∀ line start, next ≤ line -> starts[line]? = some start -> offset < start) :
      Answers starts offset (.error next)

/-- The line that an answer tells. -/
def lineOf : Except Nat Nat -> Nat
  | .ok line => line
  | .error next => next - 1

/-- The line of an offset is the last one that starts at or before it. -/
theorem exists_last_placeFrom
    {offset start : Nat}
    {starts : List Nat}
    (ascending : (start :: starts).Pairwise (· < ·))
    (started : start ≤ offset)
    (line : Nat) :
    ∃ last first,
      placeFrom offset line start starts = (line + last, offset - first + 1) ∧
        (start :: starts)[last]? = some first ∧ first ≤ offset ∧
        ∀ later next, last < later -> (start :: starts)[later]? = some next -> offset < next := by
  induction starts generalizing line start with
  | nil =>
      refine ⟨0, start, rfl, rfl, started, fun later next after present => ?_⟩
      rw [List.getElem?_eq_none after] at present
      cases present
  | cons second starts ih =>
      rw [placeFrom]
      split
      next secondStarted =>
        obtain ⟨last, first, place, present, before, behind⟩ :=
          ih ascending.of_cons secondStarted (line + 1)
        refine ⟨last + 1, first, ?_, present, before, fun later next after found => ?_⟩
        · rw [place, Nat.add_assoc, Nat.add_comm 1]
        · obtain ⟨place, rfl⟩ := Nat.exists_eq_succ_of_ne_zero (Nat.ne_zero_of_lt after)
          exact behind place next (Nat.lt_of_succ_lt_succ after) found
      next secondLater =>
        refine ⟨0, start, rfl, rfl, started, fun later next after found => ?_⟩
        obtain ⟨place, rfl⟩ := Nat.exists_eq_succ_of_ne_zero (Nat.ne_zero_of_lt after)
        -- All that follows the second start is not before it.
        have member : next ∈ second :: starts := List.mem_of_getElem? found
        rcases List.mem_cons.mp member with rfl | inRest
        · exact Nat.lt_of_not_le secondLater
        · exact Nat.lt_trans (Nat.lt_of_not_le secondLater)
            (List.rel_of_pairwise_cons ascending.of_cons inRest)

/-- A search in ascending starts answers with the one line whose start is the last one at
or before the offset. -/
theorem Answers.lineOf_eq
    {starts : List Nat}
    {offset last first : Nat}
    {answer : Except Nat Nat}
    (answers : Answers starts offset answer)
    (ascending : starts.Pairwise (· < ·))
    (present : starts[last]? = some first)
    (before : first ≤ offset)
    (behind : ∀ later next, last < later -> starts[later]? = some next -> offset < next) :
    lineOf answer = last := by
  cases answers with
  | @found line hit =>
      rw [lineOf]
      rcases Nat.lt_trichotomy line last with earlier | same | later
      · obtain ⟨_, hitValue⟩ := List.getElem?_eq_some_iff.mp hit
        obtain ⟨_, firstValue⟩ := List.getElem?_eq_some_iff.mp present
        have less := List.pairwise_iff_getElem.mp ascending line last ‹_› ‹_› earlier
        omega
      · exact same
      · exact absurd (behind line offset later hit) (Nat.lt_irrefl offset)
  | @missing next inside hitBefore hitBehind =>
      rw [lineOf]
      have reached : last < next := by
        by_contra beyond
        have := hitBehind last first (Nat.le_of_not_lt beyond) present
        omega
      have stopped : ¬ last + 1 < next := by
        intro beyond
        have exists_next :=
          List.getElem?_eq_getElem (l := starts) (Nat.lt_of_lt_of_le beyond inside)
        have early := hitBefore _ _ beyond exists_next
        have late := behind _ _ (Nat.lt_succ_self last) exists_next
        omega
      omega

end LineIndex

namespace Source

variable (source : Source)

/-- The starts of the lines of a source. -/
theorem starts_eq :
    source.lines.starts = 0 :: LineIndex.startsInBytes 0 (Text.bytes source.text) := by
  rw [source.lines_eq, LineIndex.ofText, LineIndex.startsAfter_eq, Text.bytes_eq_encode]

/-- The place of an offset, by the newlines before it and the bytes since the last one. -/
theorem place_eq
    {offset : Nat}
    (inside : offset ≤ source.text.utf8ByteSize) :
    source.place offset =
      { line := Text.breaksBefore source.text offset + 1
        column := (Text.sinceBreak source.text offset).length + 1
        file := source.file } := by
  rw [← Text.length_bytes] at inside
  have placed := LineIndex.placeFrom_startsInBytes (List.not_mem_nil (a := Text.newline))
    (Text.bytes source.text) inside 1 0
  simp only [List.length_nil, Nat.add_zero, Nat.zero_add, List.nil_append] at placed
  rw [place, LineIndex.place, source.starts_eq, LineIndex.placeFrom, if_pos (Nat.zero_le offset),
    placed, Nat.add_comm 1]
  rfl

/-- The starts of the lines ascend. -/
theorem pairwise_starts : source.lines.starts.Pairwise (· < ·) := by
  rw [source.starts_eq]
  exact .cons (fun _ member => LineIndex.lt_of_mem_startsInBytes member)
    (LineIndex.pairwise_startsInBytes 0 _)

/-- The location is that of the offset: the line and the column count newlines and bytes,
a search among the starts of the lines leads to that line, and the line itself is what
stands around the offset. -/
structure PlacesAt (offset : Nat) (location : Location) : Prop where
  file : location.file = source.file
  line : location.line = Text.breaksBefore source.text offset + 1
  column : location.column = (Text.sinceBreak source.text offset).length + 1
  line_lt : location.line < wordSize
  column_lt : location.column < wordSize
  searched : ∃ answer, LineIndex.Answers source.lines.starts offset answer
  answers : ∀ answer, LineIndex.Answers source.lines.starts offset answer ->
    location.line = LineIndex.lineOf answer + 1 ∧
      source.lines.starts[LineIndex.lineOf answer]? = some (offset - (location.column - 1))
  shown : ∃ text, Text.line? source.text location.line = some text ∧
    Text.bytes text =
      (((Text.bytes source.text).drop (offset - (location.column - 1))).takeWhile
        (· ≠ Text.newline)).rdropWhile (· = Text.carriageReturn)

/-- The last line that starts at or before an offset is the one that its place names. -/
theorem exists_last_start (offset : Nat) :
    ∃ last first,
      (source.place offset).line = last + 1 ∧
        (source.place offset).column = offset - first + 1 ∧
        source.lines.starts[last]? = some first ∧ first ≤ offset ∧
        ∀ later next, last < later -> source.lines.starts[later]? = some next ->
          offset < next := by
  have ascending := source.pairwise_starts
  rw [source.starts_eq] at ascending ⊢
  obtain ⟨last, first, placed, present, before, behind⟩ :=
    LineIndex.exists_last_placeFrom ascending (Nat.zero_le offset) 1
  refine ⟨last, first, ?_, ?_, present, before, behind⟩
  all_goals
    rw [place, LineIndex.place, source.starts_eq, LineIndex.placeFrom,
      if_pos (Nat.zero_le offset), placed]
  exact Nat.add_comm 1 last

/-- Every offset in a text that is short enough has its location. -/
theorem placesAt_place
    (short : source.text.utf8ByteSize + 1 < wordSize)
    {offset : Nat}
    (inside : offset ≤ source.text.utf8ByteSize) :
    source.PlacesAt offset (source.place offset) := by
  have ascending := source.pairwise_starts
  obtain ⟨last, first, lineIs, columnIs, present, before, behind⟩ :=
    source.exists_last_start offset
  have since := Text.sinceBreak_length_le source.text offset
  have breaks : Text.breaksBefore source.text offset ≤ offset :=
    Nat.le_trans List.count_le_length (List.length_take_le _ _)
  have start : offset - ((source.place offset).column - 1) = first := by omega
  have placed := source.place_eq inside
  constructor
  case file => rw [placed]
  case line => rw [placed]
  case column => rw [placed]
  case line_lt =>
    rw [placed]
    exact Nat.lt_of_le_of_lt (Nat.succ_le_succ (Nat.le_trans breaks inside)) short
  case column_lt =>
    rw [placed]
    exact Nat.lt_of_le_of_lt (Nat.succ_le_succ (Nat.le_trans since inside)) short
  case searched =>
    -- A search misses the offset behind the start of its line, unless a line starts there.
    by_cases here : first = offset
    · exact ⟨.ok last, .found (here ▸ present)⟩
    · have lastInside := (List.getElem?_eq_some_iff.mp present).1
      refine ⟨.error (last + 1), .missing lastInside (fun line start early found => ?_) behind⟩
      obtain ⟨_, rfl⟩ := List.getElem?_eq_some_iff.mp present
      obtain ⟨_, rfl⟩ := List.getElem?_eq_some_iff.mp found
      rcases Nat.lt_or_eq_of_le (Nat.le_of_lt_succ early) with earlier | rfl
      · have less := List.pairwise_iff_getElem.mp ascending line last ‹_› ‹_› earlier
        omega
      · omega
  case answers =>
    intro answer answers
    rw [answers.lineOf_eq ascending present before behind, start]
    exact ⟨lineIs, present⟩
  case shown =>
    obtain ⟨text, found, shown⟩ := Text.exists_line?_breaksBefore source.text offset
    rw [placed]
    refine ⟨text, found, ?_⟩
    rw [shown, Nat.add_sub_cancel, Text.takeWhile_drop_sinceBreak inside]

/-- The places of offsets and the lines of a text agree. -/
theorem places_agree_with_lines
    (short : source.text.utf8ByteSize + 1 < wordSize) :
    (∀ offset, offset ≤ source.text.utf8ByteSize ->
        ∃ location, source.locate offset = .ok location ∧ source.PlacesAt offset location) ∧
      (∀ first second earlier later,
        first < second -> second ≤ source.text.utf8ByteSize ->
          source.locate first = .ok earlier -> source.locate second = .ok later ->
            earlier.Before later) ∧
      ∀ number, Text.line? source.text number = none ↔
        number = 0 ∨ (Text.bytes source.text).count Text.newline + 1 < number := by
  have located : ∀ offset, offset ≤ source.text.utf8ByteSize ->
      source.locate offset = .ok (source.place offset) := fun offset inside =>
    locate_eq_ok (source.placesAt_place short inside).column_lt
  refine ⟨fun offset inside => ?_, ?_, fun number => Text.line?_eq_none_iff⟩
  · exact ⟨_, located offset inside, source.placesAt_place short inside⟩
  · intro first second earlier later before inside firstLocated secondLocated
    rw [located first (Nat.le_of_lt (Nat.lt_of_lt_of_le before inside))] at firstLocated
    rw [located second inside] at secondLocated
    cases firstLocated
    cases secondLocated
    exact source.place_before before

/-- Returns before a newline, an empty line, and a character of two bytes. -/
def uneven : Source :=
  .ofText "a\r\r\n\n\u00e9b" none

theorem places_agree_with_lines_uneven :
    uneven.text.utf8ByteSize + 1 < wordSize ∧
      (∃ location, uneven.locate 6 = .ok location ∧ uneven.PlacesAt 6 location ∧
        location.line = 3 ∧ location.column = 2) ∧
      Text.line? uneven.text 4 = none := by
  have short : uneven.text.utf8ByteSize + 1 < wordSize := by decide
  obtain ⟨placed, -, missing⟩ := places_agree_with_lines uneven short
  obtain ⟨location, located, placesAt⟩ := placed 6 (by decide)
  refine ⟨short, ⟨location, located, placesAt, ?_, ?_⟩, (missing 4).mpr (.inr (by decide))⟩
  · rw [placesAt.line]
    decide
  · rw [placesAt.column]
    decide

end Source
end Frontend
