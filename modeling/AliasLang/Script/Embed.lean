/-
Scripts inside a source text. In front of a script go three helper functions that know the alias's key prefix, one on
a line each, and then the imported script. Positions in the whole are mapped back to the source: those in front of
the script to the script's opening fence, and those in the script to the character they come from, where each
backtick was written with a backslash before it.
-/
import AliasLang.Command.Quoting
import AliasLang.Program.Basic
import AliasLang.Script.Diagnostic
import AliasLang.Text.Lines

namespace AliasLang.Script

open Source (Span)
open Program (Fenced)

/-- The width of a fence. -/
def fenceWidth : Nat := 3

/-- The number of lines of the preamble. -/
def preambleLines : Nat := 3

/-- The helper functions for a key prefix. -/
def preamble (keyPrefix : String) : String :=
  let p := "\"" ++ Command.Quoting.literal keyPrefix ++ "\""
  "function getLocal(key)\x7breturn customData.get(" ++ p ++ "+key)\x7d\n"
    ++ "function setLocal(key,value)\x7breturn customData.set(" ++ p ++ "+key,value)\x7d\n"
    ++ "function getLocalPrefix()\x7breturn " ++ p ++ "\x7d\n"

/-- A text that ends with a line break. -/
def terminated (text : String) : String :=
  if text.toList.getLast? = some '\n' then text else text ++ "\n"

/-- The number of line breaks in a text. -/
def lineBreaks (text : String) : Nat := text.toList.count '\n'

/-- The number of bytes of a text. -/
def byteLength : List Char → Nat
  | [] => 0
  | c :: cs => c.utf8Size + byteLength cs

/-- The number of bytes of lines with the line feeds after them. -/
def linesLength : List (List Char) → Nat
  | [] => 0
  | line :: rest => byteLength line + 1 + linesLength rest

/-- The place in the source of line `line` (from one) and column `column` (from zero) of a script with `injected` lines
in front. -/
def remap (script : Fenced) (injected line column : Nat) : Span :=
  if line ≤ injected then script.span
  else
    let n := line - injected
    let text := (Text.lineAt script.unescaped n).toList
    let shift := column + (text.take column).count '`'
    let before := linesLength ((Text.splitLines script.raw.toList).take (n - 1))
    let offset := script.span.start + fenceWidth + before + shift
    if n = 1 then ⟨offset, offset, script.span.line, script.span.column + fenceWidth + shift⟩
    else ⟨offset, offset, script.span.line + n - 1, shift + 1⟩

end AliasLang.Script
