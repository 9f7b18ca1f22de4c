/-
Tokens of JavaScript, as far as a token-level minifier needs them: words, numbers, the three kinds of quoted
lexemes, and punctuators. No syntax tree is ever built, so what a token may do is decided by its text, by whether a
line break comes before it, and by the bracket it closes.
-/
import AliasLang.Source.Span
import AliasLang.Text.Numeric

namespace AliasLang.Script

open Source (Position)

/-- The kinds of lexemes. -/
inductive Kind where
  | word | number | string | template | regex | punctuator
deriving DecidableEq, Repr

/-- A lexeme with what the passes need to know about its surroundings. -/
structure Token where
  kind : Kind
  text : String
  /-- Where the lexeme starts. -/
  place : Position
  /-- A line break stands between this lexeme and the one before it. -/
  newlineBefore : Bool
  /-- The `)` that closes the head of `if`, `for`, `while` or `with`. -/
  controlClose : Bool
deriving DecidableEq, Repr

namespace Token

/-- The punctuator with this text. -/
def isPunct (t : Token) (text : String) : Bool :=
  t.kind = .punctuator && t.text = text

/-- The word with this text. -/
def isWord (t : Token) (text : String) : Bool :=
  t.kind = .word && t.text = text

/-- An opening bracket. -/
def isOpening (t : Token) : Bool :=
  t.isPunct "(" || t.isPunct "[" || t.isPunct "\x7b"

/-- A closing bracket. -/
def isClosing (t : Token) : Bool :=
  t.isPunct ")" || t.isPunct "]" || t.isPunct "\x7d"

/-- A semicolon put right after `t`. -/
def semicolonAfter (t : Token) : Token :=
  ⟨.punctuator, ";", t.place, false, false⟩

end Token

/-- A character that can start a word. -/
def isWordStart (c : Char) : Bool :=
  Text.isAlphabetic c || c = '_' || c = '$'

/-- A character that can go on in a word. -/
def isWordPart (c : Char) : Bool :=
  Text.isAlphanumeric c || c = '_' || c = '$'

/-! ## Tables -/

/-- Punctuators, longer ones before those that they start with. -/
def punctuators : List String :=
  [">>>=", "...", "===", "!==", "**=", "<<=", ">>=", ">>>", "&&=", "||=", "??=", "=>", "==", "!=", "<=", ">=",
   "&&", "||", "??", "?.", "++", "--", "+=", "-=", "*=", "/=", "%=", "&=", "|=", "^=", "**", "<<", ">>", "\x7b",
   "\x7d", "(", ")", "[", "]", ";", ",", "<", ">", "+", "-", "*", "/", "%", "&", "|", "^", "!", "~", "?", ":", "=",
   ".", "@", "#"]

/-- Words that are not names. -/
def keywords : List String :=
  ["await", "break", "case", "catch", "class", "const", "continue", "debugger", "default", "delete", "do", "else",
   "export", "extends", "false", "finally", "for", "function", "if", "import", "in", "instanceof", "let", "new",
   "null", "of", "return", "super", "switch", "this", "throw", "true", "try", "typeof", "undefined", "var", "void",
   "while", "with", "yield"]

/-- Keywords that can end a statement. -/
def terminalKeywords : List String :=
  ["this", "super", "true", "false", "null", "undefined", "return", "break", "continue", "debugger"]

/-- Words that go on with the statement before them when they start a line. -/
def continuingWords : List String := ["else", "catch", "finally", "in", "of", "instanceof"]

/-- Keywords whose `(` opens the head of a statement. -/
def controlKeywords : List String := ["if", "for", "while", "with"]

/-- Keywords after which a slash starts a regular expression. -/
def regexKeywords : List String :=
  ["return", "typeof", "instanceof", "in", "of", "new", "delete", "void", "throw", "case", "do", "else", "yield",
   "await"]

end AliasLang.Script
