/-
JSON text over several lines, with two more spaces of indentation at each level. Only the characters that a string
literal cannot hold are escaped.
-/
import AliasLang.Json.Basic
import AliasLang.Text.Number

namespace AliasLang.Json

/-- How a character stands in a string literal. -/
def quotedChar (c : Char) : List Char :=
  if c = '"' then ['\\', '"']
  else if c = '\\' then ['\\', '\\']
  else if c = '\n' then ['\\', 'n']
  else if c = '\r' then ['\\', 'r']
  else if c = '\t' then ['\\', 't']
  else if c = '\x08' then ['\\', 'b']
  else if c = '\x0c' then ['\\', 'f']
  else if c.toNat < 0x20 then '\\' :: 'u' :: Text.hex 4 c.toNat
  else [c]

/-- A string literal. -/
def quoted (s : String) : String :=
  String.ofList ('"' :: (s.toList.flatMap quotedChar ++ ['"']))

/-- A line break and the indentation of a level. -/
def lineStart (level : Nat) : String :=
  String.ofList ('\n' :: List.replicate (2 * level) ' ')

mutual

/-- A value at some level of indentation. -/
def render (level : Nat) : Json → String
  | .null => "null"
  | .bool b => if b then "true" else "false"
  | .num n => toString n
  | .str s => quoted s
  | .arr [] => "[]"
  | .arr (j :: rest) =>
    "[" ++ lineStart (level + 1) ++ render (level + 1) j ++ renderItems (level + 1) rest ++ lineStart level ++ "]"
  | .obj [] => "\x7b\x7d"
  | .obj ((name, j) :: rest) =>
    "\x7b" ++ lineStart (level + 1) ++ quoted name ++ ": " ++ render (level + 1) j ++ renderMembers (level + 1) rest
      ++ lineStart level ++ "\x7d"

/-- The items after the first one. -/
def renderItems (level : Nat) : List Json → String
  | [] => ""
  | j :: rest => "," ++ lineStart level ++ render level j ++ renderItems level rest

/-- The members after the first one. -/
def renderMembers (level : Nat) : List (String × Json) → String
  | [] => ""
  | (name, j) :: rest => "," ++ lineStart level ++ quoted name ++ ": " ++ render level j ++ renderMembers level rest

end

/-- A value as text. -/
def pretty (j : Json) : String := render 0 j

end AliasLang.Json
