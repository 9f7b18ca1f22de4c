/-
White space: the Unicode property White_Space.
-/
import AliasLang.Text.CodeRanges

namespace AliasLang.Text

/-- The characters with the property White_Space. -/
def blankRanges : CodeRanges :=
  [(0x9, 0xd), (0x20, 0x20), (0x85, 0x85), (0xa0, 0xa0), (0x1680, 0x1680), (0x2000, 0x200a),
   (0x2028, 0x2029), (0x202f, 0x202f), (0x205f, 0x205f), (0x3000, 0x3000)]

/-- The property White_Space. -/
def isBlank (c : Char) : Bool :=
  blankRanges.contains c

/-- The text without the white space at its two ends. -/
def trim (s : String) : String :=
  String.ofList (((s.toList.dropWhile isBlank).reverse.dropWhile isBlank).reverse)

end AliasLang.Text
