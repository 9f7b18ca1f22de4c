/-
The minifier: scanning, the passes over tokens that the options ask for, and writing the tokens out again with a
space only where two lexemes would run together.
-/
import AliasLang.Script.Console
import AliasLang.Script.Diagnostic
import AliasLang.Script.Scan
import AliasLang.Script.Semicolons
import AliasLang.Script.Unused
import AliasLang.Text.Lines

namespace AliasLang.Script

/-- Two lexemes that would be read otherwise if nothing stood between them. -/
def needsSpace (last t : Token) : Bool :=
  match last.text.toList.getLast?, t.text.toList.head? with
  | some a, some b =>
    (isWordPart a && isWordPart b)
      || (last.kind = .regex && isWordPart b)
      || (a = '+' && b = '+')
      || (a = '-' && b = '-')
      || (last.kind = .number && b = '.')
      || (a = '/' && (b = '/' || b = '*'))
  | _, _ => false

/-- What is written between two tokens. -/
def separator (minifyWhitespace : Bool) (last t : Token) : String :=
  if !minifyWhitespace && t.newlineBefore then "\n" else if needsSpace last t then " " else ""

/-- Writes tokens out after the token `last`. -/
def renderFrom (minifyWhitespace : Bool) (last : Option Token) : List Token → String
  | [] => ""
  | t :: ts =>
    let before := match last with
      | none => ""
      | some p => separator minifyWhitespace p t
    before ++ t.text ++ renderFrom minifyWhitespace (some t) ts

/-- Writes tokens out. -/
def render (minifyWhitespace : Bool) (ts : List Token) : String :=
  renderFrom minifyWhitespace none ts

/-- The passes over tokens, in order. -/
def shorten (options : Options) (ts : List Token) : List Token :=
  let ts := if options.minifyWhitespace then insertSemicolons ts else ts
  let ts := if options.dropConsole then dropConsole ts else ts
  let ts := if options.treeShake then dropUnused ts else ts
  if options.minifySyntax then dropSemicolons ts else ts

/-- A remark at a place of a script. -/
def remark (script : String) (severity : Severity) (message : String) (place : Source.Position) : Diagnostic :=
  ⟨place.line + 1, place.column, Text.lineAt script (place.line + 1), message, severity⟩

/-- Warnings for each `eval` that is not a member of something, given the token before. -/
def evalWarnings (script : String) (last : Option Token) : List Token → List Diagnostic
  | [] => []
  | t :: ts =>
    let rest := evalWarnings script (some t) ts
    if t.isWord "eval" && !last.any (fun p => p.isPunct "." || p.isPunct "?.") then
      remark script .warning "eval is not available to alias scripts" t.place :: rest
    else rest

/-- Minifies a script. A script that cannot be scanned gives no code and one error. -/
def minify (options : Options) (script : String) : Output :=
  match tokenize script with
  | .error e => ⟨"", [remark script .error e.cause.text e.place]⟩
  | .ok ts => ⟨render options.minifyWhitespace (shorten options ts), evalWarnings script none ts⟩

end AliasLang.Script
