/-
Sets of characters given by ranges of code points. The tables of character classes are written in this
form, and membership is the one operation on them.
-/

namespace AliasLang.Text

/-- Ranges of code points, both ends included. -/
abbrev CodeRanges := List (Nat × Nat)

namespace CodeRanges

/-- Whether the code point of `c` lies in one of the ranges. -/
def contains (ranges : CodeRanges) (c : Char) : Bool :=
  ranges.any fun r => r.1 ≤ c.toNat && c.toNat ≤ r.2

end CodeRanges
end AliasLang.Text
