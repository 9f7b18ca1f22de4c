/-
Lines of a text. A line ends with a line feed, and a carriage return right before that line feed belongs to the
line end. Text after the last line feed is a line of its own; a text that ends with a line feed has no further
line, and a carriage return at the very end of the text belongs to its line.
-/
import AliasLang.Text.Split

namespace AliasLang.Text

/-- The pieces of a text between line feeds. -/
def splitLines (cs : List Char) : List (List Char) := pieces '\n' cs

/-- A line without a carriage return at its end. -/
def dropReturn (line : List Char) : List Char :=
  if line.getLast? = some '\r' then line.dropLast else line

/-- The lines among the pieces of `splitLines`: each but the last was ended by a line feed. -/
def endedLines : List (List Char) → List (List Char)
  | [] => []
  | [last] => if last = [] then [] else [last]
  | line :: rest => dropReturn line :: endedLines rest

/-- The lines of a text. -/
def lines (s : String) : List String :=
  (endedLines (splitLines s.toList)).map String.ofList

/-- The line with number `n`, from one; empty when the text has no such line. Number zero is taken as one. -/
def lineAt (s : String) (n : Nat) : String :=
  (lines s).getD (n - 1) ""

end AliasLang.Text
