/-
Where statements begin and end, as far as neighbouring tokens tell. The passes over tokens use these tests to decide
where a semicolon belongs and which stretches are whole statements.
-/
import AliasLang.Script.Token

namespace AliasLang.Script

namespace Token

/-- A statement can end with this token. -/
def endsStatement (t : Token) : Bool :=
  match t.kind with
  | .word => !keywords.contains t.text || terminalKeywords.contains t.text
  | .number | .string | .template | .regex => true
  | .punctuator =>
    if t.text = ")" then !t.controlClose else ["]", "\x7d", "++", "--"].contains t.text

/-- A statement can start with this token after the token `last`, given that a line break stands between them. -/
def startsStatement (last t : Token) : Bool :=
  match t.kind with
  | .word => !continuingWords.contains t.text && !(t.text = "while" && last.isPunct "\x7d")
  | .number | .string => true
  | .punctuator => ["++", "--", "!", "~"].contains t.text
  | .template | .regex => false

/-- What follows this token is the body of `if (…)`, `else`, `do` and the like, so it cannot be left out. -/
def isControlPosition (t : Token) : Bool :=
  (t.kind = .punctuator && t.controlClose) || t.isWord "else" || t.isWord "do"

end Token

/-- A statement of a block starts with `t` after `last`. -/
def isBlockPosition (last : Option Token) (t : Token) : Bool :=
  match last with
  | none => true
  | some p =>
    p.isPunct ";" || p.isPunct "\x7b" || p.isPunct "\x7d"
      || (t.newlineBefore && p.endsStatement && !p.isControlPosition)

/-- How many tokens there are up to and with the bracket that closes the innermost of `depth` open brackets and all
brackets around it. -/
def closingLength? (depth : Nat) : List Token → Option Nat
  | [] => none
  | t :: ts =>
    if t.isOpening then (closingLength? (depth + 1) ts).map (· + 1)
    else if t.isClosing then
      if depth ≤ 1 then some 1 else (closingLength? (depth - 1) ts).map (· + 1)
    else (closingLength? depth ts).map (· + 1)

end AliasLang.Script
