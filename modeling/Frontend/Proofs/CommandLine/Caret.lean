import Frontend.CommandLine.Run
import Frontend.Proofs.Except
import Frontend.Proofs.Source.Place
import Mathlib

/-!
# Carets

A diagnostic is shown with a line of the text and a caret under it. The column of the
diagnostic counts bytes, and so does the caret, but a line is looked at by characters.
The caret stands under the character that the diagnostic is about just if every
character that is shown before it is encoded in one byte, and there are not too many of
them. Otherwise it stands further to the right, by the bytes that are too many.
-/

namespace Frontend

/-! ## Bytes and characters -/

namespace Token

theorem length_le_byteLength (text : List Char) : text.length ≤ byteLength text := by
  induction text with
  | nil => exact Nat.le_refl 0
  | cons character rest ih =>
      have positive := character.utf8Size_pos
      rw [byteLength_cons, List.length_cons]
      omega

/-- A text has as many bytes as characters just if each of them takes one byte. -/
theorem byteLength_eq_length_iff (text : List Char) :
    byteLength text = text.length ↔ ∀ character ∈ text, character.utf8Size = 1 := by
  induction text with
  | nil => simp
  | cons character rest ih =>
      have positive := character.utf8Size_pos
      have enough := length_le_byteLength rest
      rw [List.forall_mem_cons, ← ih, byteLength_cons, List.length_cons]
      omega

/-- The bytes of a text beyond one for each character. -/
def surplus (text : List Char) : Nat :=
  byteLength text - text.length

end Token

namespace Diagnostic

open Token

theorem byteLength_indent (line : List Char) :
    byteLength (line.takeWhile isIndent) = (line.takeWhile isIndent).length := by
  rw [byteLength_eq_length_iff]
  intro character member
  have isIndented := List.mem_takeWhile_imp member
  rw [isIndent, Bool.or_eq_true, beq_iff_eq, beq_iff_eq] at isIndented
  rcases isIndented with rfl | rfl <;> rfl

/-! ## Excerpts -/

/-- The part of the line that is shown has the character at the location, with these
characters before and after it. -/
structure ShowsAt
    (location : Location)
    (line : String)
    (before : List Char)
    (character : Char)
    (after : List Char) : Prop where
  shown : Text.dropTrailing Text.isBlank (line.toList.dropWhile isIndent) =
    before ++ character :: after
  column : location.column = byteLength (line.toList.takeWhile isIndent ++ before) + 1

/-- What stands before the bar under the number of the line. -/
def gutter (location : Location) : String :=
  alignRight ((toString location.line).length + 2) ' ' "|"

/-- What stands before the text of the line. -/
def margin (location : Location) : String :=
  toString location.line ++ " | "

/-- The place of the caret in a line, counted in characters. -/
def caretColumn? (line : String) : Option Nat :=
  line.toList.idxOf? '^'

/-- In the line of the caret, what stands before the dashes is as wide as the margin. -/
theorem caretColumn?_caretLine (location : Location) (dashes : Nat) :
    caretColumn? (gutter location ++ " " ++ alignRight (dashes + 1) '-' "^") =
      some ((margin location).length + dashes) := by
  let front := List.replicate ((toString location.line).length + 1) ' ' ++ ['|', ' '] ++
    List.replicate dashes '-'
  have line : (gutter location ++ " " ++ alignRight (dashes + 1) '-' "^").toList =
      front ++ ['^'] := by
    have bar : "|".length = 1 := rfl
    have caret : "^".length = 1 := rfl
    simp [gutter, alignRight, front, bar, caret]
  have absent : List.findIdx? (· == '^') front = none := by
    simp [front, List.findIdx?_eq_none_iff]
  have width : front.length = (margin location).length + dashes := by
    have bar : " | ".length = 3 := rfl
    simp only [front, margin, List.length_append, List.length_replicate, String.length_append, bar,
      List.length_cons, List.length_nil]
  rw [caretColumn?, line, List.idxOf?, List.findIdx?_append, absent, ← width]
  simp

/-- The line with the caret, after characters that are shown before it. -/
def caretLine? (location : Location) (before : List Char) : Option String :=
  (caret? (byteLength before + 1)).map (gutter location ++ " " ++ ·)

/-- The place of the caret, if one can be drawn. -/
theorem caretColumn?_caretLine?
    (location : Location)
    (before : List Char) :
    (caretLine? location before).bind caretColumn? =
      if byteLength before < lastCaretColumn then
        some ((margin location).length + before.length + surplus before)
      else none := by
  have enough := length_le_byteLength before
  unfold caretLine? caret?
  split
  next drawn =>
    rw [Option.map_some, Option.bind_some, caretColumn?_caretLine, if_pos (by omega), surplus]
    congr 1
    omega
  next wide =>
    rw [if_neg (by omega)]
    rfl

/-- The caret stands under the character just if what is shown before it is as long in
bytes as in characters, and short enough. -/
theorem caretColumn?_caretLine?_eq_iff
    (location : Location)
    (before : List Char) :
    (caretLine? location before).bind caretColumn? =
        some ((margin location).length + before.length) ↔
      (∀ character ∈ before, character.utf8Size = 1) ∧ before.length < lastCaretColumn := by
  have enough := length_le_byteLength before
  rw [caretColumn?_caretLine?, ← byteLength_eq_length_iff]
  split
  next drawn =>
    rw [Option.some.injEq, surplus]
    omega
  next wide =>
    simp only [reduceCtorEq, false_iff]
    omega

theorem getElem?_margin
    (location : Location)
    (before after : List Char)
    (character : Char) :
    (margin location ++ String.ofList (before ++ character :: after)).toList[
      (margin location).length + before.length]? = some character := by
  rw [String.toList_append, String.toList_ofList, ← String.length_toList,
    List.getElem?_append_right (Nat.le_add_right _ _)]
  simp

/-- The lines of a display, and whether they are all there. -/
theorem display_eq
    {diagnostic : Diagnostic}
    {text line : String}
    {before after : List Char}
    {character : Char}
    (found : Text.line? text diagnostic.location.line = some line)
    (shows : ShowsAt diagnostic.location line before character after)
    (path : String) :
    diagnostic.display text path =
      { lines := [diagnostic.heading,
          s!"-> {path}:{diagnostic.location.line}:{diagnostic.location.column}",
          gutter diagnostic.location,
          margin diagnostic.location ++ String.ofList (before ++ character :: after)] ++
            (caretLine? diagnostic.location before).toList
        complete := (caretLine? diagnostic.location before).isSome } := by
  have column :
      max 1 (diagnostic.location.column - (line.toList.takeWhile isIndent).length) =
        byteLength before + 1 := by
    rw [shows.column, byteLength_append, byteLength_indent]
    omega
  simp only [display, found, excerpt, shows.shown, column, caretLine?]
  cases caret? (byteLength before + 1) <;> rfl

/-! ## Displays -/

namespace Display

theorem lines_append (first second : Display) :
    (first.append second).lines =
      first.lines ++ if first.complete then second.lines else [] := by
  unfold append
  split <;> simp

/-- What comes after displays that are complete is shown after all their lines. -/
theorem lines_foldr_append
    {displays : List Display}
    (whole : ∀ display ∈ displays, display.complete = true)
    (last : Display) :
    (displays.foldr append last).lines = displays.flatMap lines ++ last.lines := by
  induction displays with
  | nil => rfl
  | cons display displays ih =>
      rw [List.forall_mem_cons] at whole
      rw [List.foldr_cons, lines_append, if_pos whole.1, ih whole.2,
        List.flatMap_cons, List.append_assoc]

end Display

end Diagnostic

namespace CommandLine

open Diagnostic Token

/-- The errors of a run are the display of the report. -/
theorem errors_of_runOnText
    {options : Options}
    {text : String}
    {outcome : Outcome}
    {analysis : Option Analysis}
    {report : Report}
    (analyzed : (Source.ofText text (some (fileName options.path))).analyze
      (.empty options.maxErrors) = .ok (analysis, report))
    (ran : runOnText options text = .ok outcome) :
    outcome.errors = (displayAll report text options.path).lines := by
  obtain ⟨⟨_, _⟩, again, ran⟩ := exists_of_bind_eq_ok ran
  rw [analyzed] at again
  cases again
  cases analysis with
  | none =>
      cases ran
      rfl
  | some analysis =>
      obtain ⟨output, -, ran⟩ := exists_of_bind_eq_ok ran
      cases ran
      rfl

/-- The lines that show a diagnostic stand after those of the earlier ones. -/
theorem exists_lines_displayAll
    {report : Report}
    {earlier later : List Diagnostic}
    {diagnostic : Diagnostic}
    (reported : report.shown = earlier ++ diagnostic :: later)
    {text path : String}
    (undisturbed : ∀ other ∈ earlier, (other.display text path).complete = true) :
    ∃ rest, (displayAll report text path).lines =
      earlier.flatMap (fun other => (other.display text path).lines) ++
        (diagnostic.display text path).lines ++
        if (diagnostic.display text path).complete then rest else [] := by
  have whole : ∀ display ∈ earlier.map (·.display text path), display.complete = true := by
    simpa using undisturbed
  simp only [displayAll, reported, List.map_append, List.map_cons, List.foldr_append,
    List.foldr_cons]
  rw [Display.lines_foldr_append whole, Display.lines_append, List.flatMap_map,
    ← List.append_assoc]
  exact ⟨_, rfl⟩

section Run

variable
  {options : Options}
  {text line : String}
  {outcome : Outcome}
  {analysis : Option Analysis}
  {report : Report}
  {earlier later : List Diagnostic}
  {diagnostic : Diagnostic}
  {before after : List Char}
  {character : Char}
  (analyzed : (Source.ofText text (some (fileName options.path))).analyze
    (.empty options.maxErrors) = .ok (analysis, report))
  (ran : runOnText options text = .ok outcome)
  (reported : report.shown = earlier ++ diagnostic :: later)
  (undisturbed : ∀ other ∈ earlier, (other.display text options.path).complete = true)
  (found : Text.line? text diagnostic.location.line = some line)
  (shows : ShowsAt diagnostic.location line before character after)

include analyzed ran reported undisturbed found shows

/-- The lines of a run that show a diagnostic. A display that breaks off is the last
one. -/
theorem exists_lines_of_runOnText :
    ∃ below,
      outcome.errors =
          earlier.flatMap (fun other => (other.display text options.path).lines) ++
            [diagnostic.heading,
              s!"-> {options.path}:{diagnostic.location.line}:{diagnostic.location.column}",
              gutter diagnostic.location,
              margin diagnostic.location ++ String.ofList (before ++ character :: after)] ++
            below ∧
        below.head? = caretLine? diagnostic.location before := by
  obtain ⟨rest, lines⟩ := exists_lines_displayAll reported undisturbed
  rw [display_eq found shows] at lines
  let caretLine? := Diagnostic.caretLine? diagnostic.location before
  refine ⟨caretLine?.toList ++ if caretLine?.isSome then rest else [], ?_, ?_⟩
  · rw [errors_of_runOnText analyzed ran, lines]
    simp only [List.append_assoc]
    rfl
  · change _ = caretLine?
    cases caretLine? <;> rfl

/-- For every diagnostic that a run shows, if the character at its location is part of
the line that is shown, then the caret stands under that character just if all
characters before it take one byte each, and they are few enough for a caret to be
drawn. In any case the caret is further to the right by the surplus bytes of what stands
before the character. -/
theorem caret_is_under_character_iff :
    ∃ shown below,
      outcome.errors =
          earlier.flatMap (fun other => (other.display text options.path).lines) ++
            [diagnostic.heading,
              s!"-> {options.path}:{diagnostic.location.line}:{diagnostic.location.column}",
              gutter diagnostic.location, shown] ++ below ∧
        shown = margin diagnostic.location ++ String.ofList (before ++ character :: after) ∧
        shown.toList[(margin diagnostic.location).length + before.length]? = some character ∧
        below.head?.bind caretColumn? =
          (if byteLength before < lastCaretColumn then
            some ((margin diagnostic.location).length + before.length + surplus before)
          else none) ∧
        (below.head?.bind caretColumn? =
            some ((margin diagnostic.location).length + before.length) ↔
          (∀ character ∈ before, character.utf8Size = 1) ∧ before.length < lastCaretColumn) := by
  obtain ⟨below, errors, next⟩ :=
    exists_lines_of_runOnText analyzed ran reported undisturbed found shows
  rw [← caretColumn?_caretLine?, ← caretColumn?_caretLine?_eq_iff diagnostic.location before,
    ← next]
  exact ⟨_, below, errors, rfl, getElem?_margin _ _ _ _, rfl, Iff.rfl⟩

end Run

/-! ## Runs on texts with a character that no rule applies to -/

theorem run_of_scan_eq_error
    {text : String}
    {unrecognised : Token.Unrecognised}
    (failed : Token.scan false 0 text.toList = .error unrecognised)
    (options : Options) :
    let source := Source.ofText text (some (fileName options.path))
    (∃ outcome, runOnText options text = .ok outcome) ∧
      source.analyze (.empty options.maxErrors) =
        .ok (none, (Report.empty options.maxErrors).push
          ⟨.unrecognised (String.singleton unrecognised.character),
            source.place unrecognised.offset⟩) := by
  intro source
  have analyzed : source.analyze (.empty options.maxErrors) =
      .ok (none, (Report.empty options.maxErrors).push
        ⟨.unrecognised (String.singleton unrecognised.character),
          source.place unrecognised.offset⟩) := by
    have scanned : Token.scan false 0 source.text.toList = .error unrecognised := failed
    rw [Source.analyze, Source.tree, Source.stream, Source.tokens, scanned]
    rfl
  refine ⟨?_, analyzed⟩
  rw [runOnText, analyzed]
  exact ⟨_, rfl⟩

/-- Options that name a file and nothing else. -/
def plainOptions : Options where
  path := "t.lang"
  maxErrors := Report.defaultLimit
  dumpTree := false
  dumpNames := false
  dumpTypes := false
  verbosity := 0

/-- A line with tabs, blanks at its end and a carriage return. -/
def indented : String := "\n \t1+@ \r\n"

theorem caret_is_under_character_iff_indented :
    ∃ outcome, runOnText plainOptions indented = .ok outcome ∧
      outcome.errors[3]?.bind (·.toList[6]?) = some '@' ∧
      outcome.errors[4]?.bind caretColumn? = some 6 := by
  have scanned : Token.scan false 0 indented.toList = .error ⟨'@', 5⟩ := by cbv
  have place : ∀ file, (Source.ofText indented (some file)).place 5 = ⟨2, 5, file⟩ := by
    intro file
    cbv
  have found : Text.line? indented 2 = some " \t1+@ " := by cbv
  have shows : ∀ file, ShowsAt ⟨2, 5, file⟩ " \t1+@ " ['1', '+'] '@' [] := by
    intro file
    exact ⟨by cbv, by cbv⟩
  obtain ⟨⟨outcome, ran⟩, analyzed⟩ := run_of_scan_eq_error scanned plainOptions
  rw [place] at analyzed
  obtain ⟨shown, below, errors, -, present, -, aligned⟩ :=
    caret_is_under_character_iff analyzed ran (List.nil_append _).symm (by simp) found (shows _)
  refine ⟨outcome, ran, ?_, ?_⟩
  · rw [errors]
    exact present
  · rw [errors]
    change below[0]?.bind caretColumn? = _
    rw [← List.head?_eq_getElem?]
    exact aligned.mpr ⟨(byteLength_eq_length_iff _).mp rfl, by decide⟩

/-- The text before the character that no rule applies to has a letter of two bytes. -/
def accented : String := "\"é\"@"

/-- The caret does not stand under the character, but one column further on. -/
theorem caret_misses_character_accented :
    ∃ outcome, runOnText plainOptions accented = .ok outcome ∧
      outcome.errors[3]?.bind (·.toList[7]?) = some '@' ∧
      outcome.errors[4]?.bind caretColumn? = some 8 := by
  have scanned : Token.scan false 0 accented.toList = .error ⟨'@', 4⟩ := by cbv
  have place : ∀ file, (Source.ofText accented (some file)).place 4 = ⟨1, 5, file⟩ := by
    intro file
    cbv
  have found : Text.line? accented 1 = some accented := by cbv
  have shows : ∀ file, ShowsAt ⟨1, 5, file⟩ accented ['"', 'é', '"'] '@' [] := by
    intro file
    exact ⟨by cbv, by cbv⟩
  obtain ⟨⟨outcome, ran⟩, analyzed⟩ := run_of_scan_eq_error scanned plainOptions
  rw [place] at analyzed
  obtain ⟨below, errors, next⟩ :=
    exists_lines_of_runOnText analyzed ran (List.nil_append _).symm (by simp) found (shows _)
  refine ⟨outcome, ran, ?_, ?_⟩
  · rw [errors]
    exact getElem?_margin ⟨1, 5, fileName plainOptions.path⟩ ['"', 'é', '"'] [] '@'
  · rw [errors]
    change below[0]?.bind caretColumn? = _
    rw [← List.head?_eq_getElem?, next, caretColumn?_caretLine?]
    decide

end CommandLine
end Frontend
