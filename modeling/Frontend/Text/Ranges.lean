/-!
# Sets of characters by ranges

A property of characters is given as a list of ranges of code points, each by its first
code point and its length. A large set is given by the lengths of the runs that lie outside
and inside of it in turn, from the first code point on.
-/

namespace Frontend
namespace Text

/-- The character lies in one of the ranges. -/
def inRanges
    (ranges : List (Nat × Nat))
    (character : Char) : Bool :=
  ranges.any fun range =>
    range.1 ≤ character.toNat && character.toNat < range.1 + range.2

/-- The character lies in one of the runs inside. -/
def inRuns (runs : List Nat) (character : Char) : Bool :=
  within false runs character.toNat
where
  /-- Whether the code point lies inside, if the first run does so. -/
  within (inside : Bool) : List Nat -> Nat -> Bool
    | [], _ => false
    | length :: runs, code =>
        if code < length then inside else within (!inside) runs (code - length)

end Text
end Frontend
