import Frontend.Proofs.Except
import Frontend.Token.Scan

/-!
# What lexemes make

A word is an identifier or reserved, and no lexeme is the end of the file.
-/

namespace Frontend
namespace Token

/-- A word is an identifier or has the kind of a reserved word. -/
theorem Kind.ofWord_ne
    {kind : Kind}
    (notIdentifier : kind ≠ .identifier)
    (unreserved : ∀ entry ∈ Kind.reserved, entry.2 ≠ kind)
    (word : String) :
    Kind.ofWord word ≠ kind := by
  unfold Kind.ofWord
  cases found : Kind.reserved.lookup word with
  | none => exact notIdentifier.symm
  | some reserved =>
      obtain ⟨before, after, split, -⟩ := List.lookup_eq_some_iff.mp found
      exact unreserved (word, reserved) (by simp [split])

/-- What a class of characters leaves starts with a character outside. -/
theorem dropWhile_stops (isInside : Char -> Bool) (text : List Char) :
    ∀ next ∈ (text.dropWhile isInside).head?, isInside next = false := by
  intro next isHead
  have stops := List.head?_dropWhile_not isInside text
  rw [Option.mem_def.mp isHead] at stops
  exact stops

namespace Rule

/-- No lexeme is the end of the file. -/
theorem content?_ne_endOfFile
    {rule : Rule}
    (listed : rule ∈ all)
    {lexeme : List Char}
    {kind : Kind}
    {value : String}
    (found : rule.content? lexeme = some (kind, value)) :
    kind ≠ .endOfFile := by
  have proper : ∀ row ∈ symbols, row.kind ≠ .endOfFile := by
    decide
  cases rule with
  | word =>
      cases found
      exact Kind.ofWord_ne (by decide) (by decide) _
  | number =>
      cases found
      split <;> decide
  | string =>
      cases found
      decide
  | symbol row =>
      cases found
      exact proper row (mem_symbols listed)
  | newline => cases found
  | blanks => cases found
  | comment => cases found

end Rule

end Token
end Frontend
