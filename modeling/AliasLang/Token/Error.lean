/-
What the scanner can refuse, and where.
-/
import AliasLang.Json.Quoted
import AliasLang.Source.Span
import AliasLang.Text.Shown

namespace AliasLang.Token

open Source (Span Position)

/-- Why a source text has no tokens. -/
inductive LexCause where
  /-- A character other than printable ASCII, tab and line breaks. -/
  | foreignCharacter (c : Char)
  /-- A character that starts no token. -/
  | strayCharacter (c : Char)
  /-- A name that is too short or too long. -/
  | nameLength (name : String)
  | unterminatedString
  /-- A literal, quotes included, that breaks the rules of string literals. -/
  | badString (raw : String) (fault : Json.Quoted.Fault)
  | missingUser
  | missingBrace
  | unterminatedArgument
  /-- The text between the braces selects nothing. -/
  | badArgument (inner : String)
  | singleBacktick
  | unterminatedScript
  | bareBacktick
deriving DecidableEq, Repr

/-- The shortest name. -/
def minNameLength : Nat := 2

/-- The longest name. -/
def maxNameLength : Nat := 30

/-- The wording of a cause. -/
def LexCause.text : LexCause → String
  | .foreignCharacter c =>
    s!"invalid character U+{String.ofList ((Text.hex 4 c.toNat).map Char.toUpper)}"
      ++ " (only printable ASCII is allowed)"
  | .strayCharacter c => s!"unexpected character {Text.shownChar c}"
  | .nameLength name =>
    s!"identifier '{name}' must be between {minNameLength} and {maxNameLength} characters long"
  | .unterminatedString => "unterminated string literal"
  | .badString raw fault => s!"invalid string literal {raw}: {fault.text raw.toList}"
  | .missingUser => "empty user reference after '@'"
  | .missingBrace => "expected '\x7b' after '$'"
  | .unterminatedArgument => "unterminated argument literal"
  | .badArgument inner => "invalid argument literal $\x7b" ++ inner ++ "\x7d"
  | .singleBacktick => "a single backtick is not valid here, embedded scripts are fenced with ```"
  | .unterminatedScript => "unterminated embedded script"
  | .bareBacktick => "unescaped backtick inside embedded script (write \\`)"

/-- A cause and its place. -/
structure LexError where
  cause : LexCause
  span : Span
deriving DecidableEq, Repr

/-- The message, with its place in front. -/
def LexError.message (e : LexError) : String :=
  e.span.locate e.cause.text

/-- A cause found while reading a text from some position on: it concerns `covered` characters after the first
`skipped` ones. -/
structure Fault where
  cause : LexCause
  skipped : Nat := 0
  covered : Nat := 0
deriving DecidableEq, Repr

/-- The error for a fault in the text `cs` that starts at `p`. -/
def Fault.locate (f : Fault) (p : Position) (cs : List Char) : LexError :=
  let q := p.after (cs.take f.skipped)
  ⟨f.cause, Span.between q (q.after ((cs.drop f.skipped).take f.covered))⟩

end AliasLang.Token
