/-
Quoting of generated commands. A script command holds its code in a parameter `function:"…"`; keys in that code are
string literals, and a compiled body stands in it as a whole pipeline between single quotes. Each rule below
replaces single characters, so what one of them writes is not replaced again.
-/

namespace AliasLang.Command.Quoting

/-- Replaces each character of a text. -/
def substitute (f : Char → List Char) (s : String) : String :=
  String.ofList (s.toList.flatMap f)

/-- A character of a key inside a literal of a parameter. -/
def keyChar (c : Char) : List Char :=
  if c = '"' then ['\\', '\\', '"'] else [c]

/-- A key inside a literal of a parameter. -/
def key (s : String) : String := substitute keyChar s

/-- A character of code inside a parameter. Line breaks are left out. -/
def parameterChar (c : Char) : List Char :=
  if c = '\\' then ['\\', '\\']
  else if c = '"' then ['\\', '"']
  else if c = '\n' || c = '\r' then []
  else [c]

/-- Code inside a parameter. -/
def parameter (code : String) : String := substitute parameterChar code

/-- A character of a pipeline between single quotes inside a parameter. -/
def embeddedChar (c : Char) : List Char :=
  if c = '\x27' then ['\\', '\x27'] else parameterChar c

/-- A character that the name of an option can end with. -/
def isOptionChar (c : Char) : Bool :=
  c.isAlphanum || c = '_'

/-- Breaks each `name:` apart, so that no option is seen in a literal; `last` is the character before. -/
def neutralizeFrom (last : Option Char) : List Char → List Char
  | [] => []
  | c :: cs =>
    let written := if c = ':' && last.any isOptionChar then ['\x27', '+', '\x27', ':'] else [c]
    written ++ neutralizeFrom (some c) cs

/-- Breaks each `name:` apart. -/
def neutralize (s : String) : String :=
  String.ofList (neutralizeFrom none s.toList)

/-- A pipeline without the name of its command. -/
def withoutPipe (pipeline : List Char) : List Char :=
  let word := "pipe ".toList
  if word.isPrefixOf pipeline then pipeline.drop word.length else pipeline

/-- A pipeline as the inside of a literal between single quotes. -/
def embedded (pipeline : String) : String :=
  String.ofList (neutralizeFrom none ((withoutPipe pipeline.toList).flatMap embeddedChar))

/-- A character of a literal between double quotes that stays on one line. -/
def literalChar (c : Char) : List Char :=
  if c = '\\' then ['\\', '\\']
  else if c = '"' then ['\\', '"']
  else if c = '\n' then ['\\', 'n']
  else if c = '\r' then ['\\', 'r']
  else [c]

/-- The inside of a literal between double quotes that stays on one line. -/
def literal (s : String) : String := substitute literalChar s

end AliasLang.Command.Quoting
