/-
Text as messages show it: between quotes, with everything that has no glyph of its own written as an escape.
-/
import AliasLang.Text.Hidden
import AliasLang.Text.Number

namespace AliasLang.Text

/-- A character by its code point: `\u{…}`. -/
def codeEscape (c : Char) : List Char :=
  "\\u\x7b".toList ++ hex 0 c.toNat ++ ['\x7d']

/-- How a character stands between quotes of the kind `quote`. -/
def showChar (quote c : Char) : List Char :=
  if c = '\x00' then ['\\', '0']
  else if c = '\t' then ['\\', 't']
  else if c = '\r' then ['\\', 'r']
  else if c = '\n' then ['\\', 'n']
  else if c = '\\' || c = quote then ['\\', c]
  else if isExtender c || !isPrintable c then codeEscape c
  else [c]

/-- A text between double quotes. -/
def shown (s : String) : String :=
  String.ofList ('"' :: (s.toList.flatMap (showChar '"') ++ ['"']))

/-- A character between single quotes. -/
def shownChar (c : Char) : String :=
  String.ofList ('\x27' :: (showChar '\x27' c ++ ['\x27']))

/-- A list of texts between brackets. -/
def shownList (texts : List String) : String :=
  "[" ++ ", ".intercalate (texts.map shown) ++ "]"

end AliasLang.Text
