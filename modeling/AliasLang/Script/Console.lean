/-
Console calls. A statement that is one call of a method of `console` is left out; where it is the body of a
statement head, an empty statement stays in its place.
-/
import AliasLang.Script.Statement

namespace AliasLang.Script

/-- The number of tokens of a call `console.x(…)` at the front of a list that is a statement by itself, given the
token before it: it stands where a statement starts, and the statement ends with it. -/
def consoleCallLength? (last : Option Token) : List Token → Option Nat
  | t :: dot :: method :: paren :: rest =>
    if t.isWord "console" && dot.isPunct "." && method.kind = .word && paren.isPunct "("
        && (isBlockPosition last t || last.any Token.isControlPosition) then
      match closingLength? 1 rest with
      | none => none
      | some n =>
        match (rest.drop n).head? with
        | none => some (n + 4)
        | some next =>
          if next.isPunct ";" || next.isPunct "\x7d" || next.newlineBefore then some (n + 4) else none
    else none
  | _ => none

/-- Leaves out console calls, given the last token kept. -/
def dropConsoleFrom (last : Option Token) (ts : List Token) : List Token :=
  match ts with
  | [] => []
  | t :: rest =>
    match consoleCallLength? last (t :: rest) with
    | none => t :: dropConsoleFrom (some t) rest
    | some n =>
      let after := rest.drop (n - 1)
      let hasSemicolon := after.head?.any (·.isPunct ";")
      if last.any Token.isControlPosition then
        if hasSemicolon then dropConsoleFrom last after
        else
          let semicolon := ((rest.take (n - 1)).getLast?.getD t).semicolonAfter
          semicolon :: dropConsoleFrom (some semicolon) after
      else if hasSemicolon then dropConsoleFrom last (after.drop 1)
      else dropConsoleFrom last after
termination_by ts.length
decreasing_by all_goals (simp only [List.length_cons, List.length_drop]; omega)

/-- Leaves out console calls. -/
def dropConsole (ts : List Token) : List Token :=
  dropConsoleFrom none ts

end AliasLang.Script
