import Frontend.Text.Quoted
import Mathlib.Data.List.TakeWhile
import Mathlib.Data.Nat.Digits.Defs

/-!
# Nested lists as text

A nested list is written in parentheses, with its name first and a blank before each of
its items. Items are words, quoted texts and lists again. The text determines the nested
list: where an item ends can be told from the text, and quoted text can be read back.
-/

namespace Frontend

/-! ## Reading quoted text -/

namespace Text

/-- The digits of hexadecimal numbers. -/
def hexDigits : List Char :=
  ['0', '1', '2', '3', '4', '5', '6', '7', '8', '9', 'a', 'b', 'c', 'd', 'e', 'f']

/-- The number that hexadecimal digits stand for. -/
def hexValue (digits : List Char) : Nat :=
  digits.foldl (fun value digit => value * 16 + hexDigits.idxOf digit) 0

theorem idxOf_digitChar {digit : Nat} (small : digit < 16) :
    hexDigits.idxOf digit.digitChar = digit := by
  have all : ∀ digit < 16, hexDigits.idxOf (Nat.digitChar digit) = digit := by decide
  exact all digit small

/-- A number is read back from its digits. -/
theorem hexValue_toDigits (number : Nat) : hexValue (Nat.toDigits 16 number) = number := by
  induction number using Nat.strong_induction_on with
  | _ number ih =>
      by_cases small : number < 16
      · rw [Nat.toDigits_of_lt_base small]
        simp [hexValue, idxOf_digitChar small]
      · have large : 16 ≤ number := Nat.le_of_not_lt small
        have front := ih (number / 16) (by omega)
        rw [hexValue] at front
        rw [Nat.toDigits_of_base_le (by decide) large, hexValue, List.foldl_append, front]
        simp only [List.foldl_cons, List.foldl_nil]
        rw [idxOf_digitChar (Nat.mod_lt number (by decide)), Nat.mul_comm]
        exact Nat.div_add_mod number 16

/-- No digit closes a brace. -/
theorem brace_notMem_toDigits (number : Nat) : '\x7d' ∉ Nat.toDigits 16 number := by
  have never : ∀ digit < 16, Nat.digitChar digit ≠ '\x7d' := by decide
  induction number using Nat.strong_induction_on with
  | _ number ih =>
      by_cases small : number < 16
      · rw [Nat.toDigits_of_lt_base small, List.mem_singleton]
        exact (never number small).symm
      · rw [Nat.toDigits_of_base_le (by decide) (Nat.le_of_not_lt small), List.mem_append,
          List.mem_singleton]
        rintro (front | last)
        · exact ih (number / 16) (by omega) front
        · exact never _ (Nat.mod_lt number (by decide)) last.symm

/-- The first character of what is left of a quoted text, and what is left after it. -/
def readQuoted? : List Char -> Option (Char × List Char)
  | '\\' :: 'u' :: rest =>
      let digits := rest.tail.takeWhile (· ≠ '\x7d')
      some (Char.ofNat (hexValue digits), rest.tail.drop (digits.length + 1))
  | '\\' :: 'n' :: rest => some ('\n', rest)
  | '\\' :: 'r' :: rest => some ('\r', rest)
  | '\\' :: 't' :: rest => some ('\t', rest)
  | '\\' :: '0' :: rest => some ('\x00', rest)
  | '\\' :: character :: rest => some (character, rest)
  | character :: rest => some (character, rest)
  | [] => none

theorem readQuoted?_codePointEscape (character : Char) (rest : List Char) :
    readQuoted? (codePointEscape character ++ rest) = some (character, rest) := by
  have digits : (Nat.toDigits 16 character.toNat ++ '\x7d' :: rest).takeWhile (· ≠ '\x7d') =
      Nat.toDigits 16 character.toNat := by
    have all : ∀ digit ∈ Nat.toDigits 16 character.toNat, decide (digit ≠ '\x7d') = true := by
      intro digit member
      rw [decide_eq_true_iff]
      rintro rfl
      exact brace_notMem_toDigits _ member
    rw [List.takeWhile_append_of_pos all, List.takeWhile_cons_of_neg (by simp), List.append_nil]
  have whole : codePointEscape character ++ rest =
      '\\' :: 'u' :: '\x7b' :: (Nat.toDigits 16 character.toNat ++ '\x7d' :: rest) := by
    simp [codePointEscape]
  rw [whole, readQuoted?]
  simp only [List.tail_cons, digits, hexValue_toDigits, Char.ofNat_toNat]
  simp [List.drop_append]

/-- A character is read back from its quoted form. -/
theorem readQuoted?_quotedChar (character : Char) (rest : List Char) :
    readQuoted? (quotedChar character ++ rest) = some (character, rest) := by
  unfold quotedChar
  split
  next => rfl
  next => rfl
  next => rfl
  next => rfl
  next => rfl
  next => rfl
  next _ notEscape _ _ _ _ =>
    split
    next => exact readQuoted?_codePointEscape character rest
    next =>
      unfold readQuoted?
      split <;> simp_all

/-- A quote inside of a quoted text does not come first in its form. -/
theorem head?_quotedChar_ne (character : Char) (rest : List Char) :
    (quotedChar character ++ rest).head? ≠ some '"' := by
  intro isQuote
  obtain ⟨after, whole⟩ := List.head?_eq_some_iff.mp isQuote
  have read := readQuoted?_quotedChar character rest
  rw [whole] at read
  obtain rfl : '"' = character := (Prod.mk.inj (Option.some.inj read)).1
  cases isQuote

/-- Quoted text ends where its closing quote stands, and can be read back. -/
theorem quoted_append_inj
    {first second : String}
    {rest other : List Char}
    (same : (quoted first).toList ++ rest = (quoted second).toList ++ other) :
    first = second ∧ rest = other := by
  have characters : ∀ first second : List Char,
      first.flatMap quotedChar ++ '"' :: rest = second.flatMap quotedChar ++ '"' :: other ->
        first = second ∧ rest = other := by
    intro first
    induction first with
    | nil =>
        intro second same
        cases second with
        | nil => exact ⟨rfl, (List.cons.inj same).2⟩
        | cons character second =>
            rw [List.flatMap_cons, List.append_assoc] at same
            exact absurd (congrArg List.head? same).symm (head?_quotedChar_ne character _)
    | cons character first ih =>
        intro second same
        rw [List.flatMap_cons, List.append_assoc] at same
        cases second with
        | nil => exact absurd (congrArg List.head? same) (head?_quotedChar_ne character _)
        | cons next second =>
            rw [List.flatMap_cons, List.append_assoc] at same
            have read := congrArg readQuoted? same
            rw [readQuoted?_quotedChar, readQuoted?_quotedChar, Option.some.injEq,
              Prod.mk.injEq] at read
            obtain ⟨rfl, later⟩ := read
            obtain ⟨rfl, sameRest⟩ := ih second later
            exact ⟨rfl, sameRest⟩
  have inner : first.toList.flatMap quotedChar ++ '"' :: rest =
      second.toList.flatMap quotedChar ++ '"' :: other := by
    simpa [quoted] using same
  obtain ⟨sameText, sameRest⟩ := characters _ _ inner
  exact ⟨String.toList_inj.mp sameText, sameRest⟩

end Text

/-! ## Nested lists -/

/-- A word, a quoted text, or a list with a name. -/
inductive Nested
  | word (text : List Char)
  | string (text : String)
  | list (name : List Char) (items : List Nested)

namespace Nested

/-- The character neither ends a word nor starts anything else. -/
def isPlain (character : Char) : Bool :=
  !(character == ' ' || character == '(' || character == ')' || character == '"')

/-- The text of a nested list. -/
def print : Nested -> List Char
  | .word text => text
  | .string text => (Text.quoted text).toList
  | .list name items => '(' :: name ++ (items.map fun item => ' ' :: print item).flatten ++ [')']

/-- Items with a blank before each of them. -/
def printItems (items : List Nested) : List Char :=
  (items.map fun item => ' ' :: print item).flatten

theorem print_word (text : List Char) : (word text).print = text := by
  rw [print]

theorem print_string (text : String) : (string text).print = (Text.quoted text).toList := by
  rw [print]

theorem print_list (name : List Char) (items : List Nested) :
    (list name items).print = '(' :: (name ++ (printItems items ++ [')'])) := by
  rw [print, printItems, List.cons_append, List.cons_append, List.append_assoc]

theorem head?_string (text : String) (rest : List Char) :
    ((string text).print ++ rest).head? = some '"' := by
  simp [print_string, Text.quoted]

theorem head?_list (name : List Char) (items : List Nested) (rest : List Char) :
    ((list name items).print ++ rest).head? = some '(' := by
  simp [print_list]

/-- A text that can stand as a word. -/
def IsWord (text : List Char) : Prop :=
  text ≠ [] ∧ ∀ character ∈ text, isPlain character = true

instance (text : List Char) : Decidable (IsWord text) :=
  decidable_of_iff (text.isEmpty = false ∧ text.all isPlain = true) (by simp [IsWord])

/-- The text goes on with something that no word has. -/
def EndsWord (rest : List Char) : Prop :=
  ∀ next ∈ rest.head?, isPlain next = false

theorem endsWord_nil : EndsWord [] := by
  intro next isNext
  cases isNext

/-- Words and names are words. -/
inductive Legible : Nested -> Prop
  | word
      {text : List Char}
      (isWord : IsWord text) :
      Legible (.word text)
  | string (text : String) : Legible (.string text)
  | list
      {name : List Char}
      {items : List Nested}
      (isWord : IsWord name)
      (legible : ∀ item ∈ items, Legible item) :
      Legible (.list name items)

/-- A word ends where a character stands that no word has. -/
theorem word_append_inj
    {first second rest other : List Char}
    (isWord : IsWord first)
    (otherIsWord : IsWord second)
    (ended : EndsWord rest)
    (otherEnded : EndsWord other)
    (same : first ++ rest = second ++ other) :
    first = second ∧ rest = other := by
  have takes : ∀ text rest : List Char, IsWord text -> EndsWord rest ->
      (text ++ rest).takeWhile isPlain = text := by
    intro text rest isWord ended
    rw [List.takeWhile_append_of_pos isWord.2]
    cases rest with
    | nil => rw [List.takeWhile_nil, List.append_nil]
    | cons next rest =>
        rw [List.takeWhile_cons_of_neg (by simp [ended next rfl]), List.append_nil]
  have sameWord : first = second := by
    rw [← takes first rest isWord ended, same, takes second other otherIsWord otherEnded]
  subst sameWord
  exact ⟨rfl, List.append_cancel_left same⟩

theorem endsWord_printItems (items : List Nested) (rest : List Char) :
    EndsWord (printItems items ++ ')' :: rest) := by
  intro next isNext
  cases items with
  | nil =>
      cases isNext
      rfl
  | cons item items =>
      cases isNext
      rfl

/-- A word starts with a plain character. -/
theorem IsWord.head?_ne
    {text : List Char}
    (isWord : IsWord text)
    {character : Char}
    (special : isPlain character = false)
    (rest : List Char) :
    ((word text).print ++ rest).head? ≠ some character := by
  obtain ⟨next, more, rfl⟩ := List.exists_cons_of_ne_nil isWord.1
  rw [print_word, List.cons_append, List.head?_cons]
  rintro ⟨⟩
  exact absurd (isWord.2 character List.mem_cons_self) (by simp [special])

/-- Items end where the list is closed, if each of them can be told. -/
theorem printItems_append_inj
    {items others : List Nested}
    {rest other : List Char}
    (told : ∀ item ∈ items, ∀ twin ∈ others, ∀ rest other : List Char,
      EndsWord rest -> EndsWord other ->
        item.print ++ rest = twin.print ++ other -> item = twin ∧ rest = other)
    (same : printItems items ++ ')' :: rest = printItems others ++ ')' :: other) :
    items = others ∧ rest = other := by
  induction items generalizing others with
  | nil =>
      cases others with
      | nil => exact ⟨rfl, (List.cons.inj same).2⟩
      | cons twin others => cases same
  | cons item items ih =>
      cases others with
      | nil => cases same
      | cons twin others =>
          have split : ∀ (item : Nested) (items : List Nested) (rest : List Char),
              printItems (item :: items) ++ ')' :: rest =
                ' ' :: (item.print ++ (printItems items ++ ')' :: rest)) := by
            intro item items rest
            simp [printItems]
          rw [split, split] at same
          obtain ⟨rfl, later⟩ := told item List.mem_cons_self twin List.mem_cons_self _ _
            (endsWord_printItems items rest) (endsWord_printItems others other)
            (List.cons.inj same).2
          have toldLater : ∀ item ∈ items, ∀ twin ∈ others, ∀ rest other : List Char,
              EndsWord rest -> EndsWord other ->
                item.print ++ rest = twin.print ++ other -> item = twin ∧ rest = other :=
            fun item member twin twinMember =>
              told item (List.mem_cons_of_mem _ member) twin (List.mem_cons_of_mem _ twinMember)
          obtain ⟨rfl, sameRest⟩ := ih toldLater later
          exact ⟨rfl, sameRest⟩

/-- The text of a nested list determines the list, and where it ends. -/
theorem print_append_inj
    {first second : Nested}
    (legible : first.Legible)
    (otherLegible : second.Legible)
    {rest other : List Char}
    (ended : EndsWord rest)
    (otherEnded : EndsWord other)
    (same : first.print ++ rest = second.print ++ other) :
    first = second ∧ rest = other := by
  -- The first character tells words, strings and lists apart.
  have heads := congrArg List.head? same
  induction legible generalizing second rest other with
  | @word text isWord =>
      cases otherLegible with
      | word otherIsWord =>
          rw [print_word, print_word] at same
          obtain ⟨rfl, sameRest⟩ := word_append_inj isWord otherIsWord ended otherEnded same
          exact ⟨rfl, sameRest⟩
      | string twin => exact absurd (heads.trans (head?_string _ _)) (isWord.head?_ne rfl _)
      | list => exact absurd (heads.trans (head?_list _ _ _)) (isWord.head?_ne rfl _)
  | string text =>
      cases otherLegible with
      | word otherIsWord =>
          exact absurd (heads.symm.trans (head?_string _ _)) (otherIsWord.head?_ne rfl _)
      | string twin =>
          rw [print_string, print_string] at same
          obtain ⟨rfl, sameRest⟩ := Text.quoted_append_inj same
          exact ⟨rfl, sameRest⟩
      | list =>
          rw [head?_string, head?_list] at heads
          exact absurd heads (by decide)
  | @list name items isWord _ itemsTold =>
      cases otherLegible with
      | word otherIsWord =>
          exact absurd (heads.symm.trans (head?_list _ _ _)) (otherIsWord.head?_ne rfl _)
      | string twin =>
          rw [head?_string, head?_list] at heads
          exact absurd heads (by decide)
      | @list otherName others otherIsWord othersLegible =>
          simp only [print_list, List.cons_append, List.append_assoc, List.nil_append] at same
          obtain ⟨rfl, sameItems⟩ := word_append_inj isWord otherIsWord
            (endsWord_printItems items rest) (endsWord_printItems others other)
            (List.cons.inj same).2
          obtain ⟨rfl, sameRest⟩ := printItems_append_inj
            (fun item member twin twinMember rest other ended otherEnded same =>
              itemsTold item member (othersLegible twin twinMember) ended otherEnded same
                (congrArg List.head? same)) sameItems
          exact ⟨rfl, sameRest⟩

end Nested
end Frontend
