/-
Semicolons. Where a line break ends a statement, a semicolon takes its place; where a semicolon separates nothing,
it is dropped.
-/
import AliasLang.Script.Statement

namespace AliasLang.Script

/-- Puts a semicolon at each line break that ends a statement. -/
def insertSemicolons : List Token → List Token
  | [] => []
  | [t] => [t]
  | t :: u :: rest =>
    if u.newlineBefore && t.endsStatement && Token.startsStatement t u then
      t :: t.semicolonAfter :: insertSemicolons (u :: rest)
    else t :: insertSemicolons (u :: rest)

/-- Round and square brackets that are open after `t`, given how many were before. -/
def parenDepthAfter (depth : Nat) (t : Token) : Nat :=
  if t.isPunct "(" || t.isPunct "[" then depth + 1
  else if t.isPunct ")" || t.isPunct "]" then depth - 1
  else depth

/-- A semicolon between the kept token `last` and the token `next` that separates nothing: it is the first or the
last token, or stands before a closing brace, after an opening brace or after another semicolon, and it is not the
empty body of a statement. -/
def isRedundant (last next : Option Token) : Bool :=
  match last, next with
  | none, _ => true
  | some p, none => !p.isControlPosition
  | some p, some n => (n.isPunct "\x7d" || p.isPunct ";" || p.isPunct "\x7b") && !p.isControlPosition

/-- Drops the semicolons that separate nothing, given the last token kept and the number of open round and square
brackets. Semicolons inside those brackets stay. -/
def dropSemicolonsFrom (last : Option Token) (depth : Nat) : List Token → List Token
  | [] => []
  | t :: ts =>
    let depth := parenDepthAfter depth t
    if t.isPunct ";" && depth = 0 && isRedundant last ts.head? then dropSemicolonsFrom last depth ts
    else t :: dropSemicolonsFrom (some t) depth ts

/-- Drops the semicolons that separate nothing. -/
def dropSemicolons (ts : List Token) : List Token :=
  dropSemicolonsFrom none 0 ts

end AliasLang.Script
