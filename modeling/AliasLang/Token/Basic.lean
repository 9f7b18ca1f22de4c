/-
Tokens of alias source text: words that are keywords, marks, names, literals and fenced scripts, each with its
place.
-/
import AliasLang.Source.Span
import AliasLang.Text.Shown
import AliasLang.Token.Selector

namespace AliasLang.Token

open Source (Span)

/-- Words with a meaning of their own. -/
inductive Keyword where
  | alias_ | end_ | exec | pipe | get | set | local_ | temp | prefixed | js | say | call | import_ | compiled | entry
deriving DecidableEq, Repr

namespace Keyword

/-- How a keyword is written. -/
def text : Keyword → String
  | alias_ => "alias"
  | end_ => "end"
  | exec => "exec"
  | pipe => "pipe"
  | get => "get"
  | set => "set"
  | local_ => "local"
  | temp => "temp"
  | prefixed => "prefixed"
  | js => "js"
  | say => "say"
  | call => "call"
  | import_ => "import"
  | compiled => "compiled"
  | entry => "entry"

/-- All keywords. -/
def all : List Keyword :=
  [alias_, end_, exec, pipe, get, set, local_, temp, prefixed, js, say, call, import_, compiled, entry]

/-- The keyword that is written like this. -/
def ofText? (word : String) : Option Keyword :=
  all.find? fun k => k.text = word

end Keyword

/-- What a token is. -/
inductive Kind where
  | keyword (keyword : Keyword)
  /-- `->` -/
  | arrow
  /-- `|` -/
  | bar
  | identifier (name : String)
  /-- The value of a double-quoted literal. -/
  | string (value : String)
  /-- A user, without the `@`. -/
  | user (name : String)
  | argument (literal : ArgLiteral)
  /-- The text between the fences, as written. -/
  | script (raw : String)
  | endOfInput
deriving DecidableEq, Repr

/-- A kind of token as messages name it. -/
def Kind.text : Kind → String
  | .keyword k => s!"'{k.text}'"
  | .arrow => "'->'"
  | .bar => "'|'"
  | .identifier name => s!"identifier {name}"
  | .string value => s!"string {Text.shown value}"
  | .user name => s!"user @{name}"
  | .argument literal => s!"argument literal {literal.raw}"
  | .script _ => "embedded script"
  | .endOfInput => "end of input"

end AliasLang.Token

namespace AliasLang

/-- A token and the stretch of source that it was read from. -/
structure Token where
  kind : Token.Kind
  span : Source.Span
deriving DecidableEq, Repr

end AliasLang
