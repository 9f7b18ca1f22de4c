/-
The inside of a JSON string literal. Reading stops at the closing quote; a fault tells how many characters had
been read when it was found. Characters beyond the basic plane are written as two units, a leading and a trailing
one, and neither may stand alone.
-/
import AliasLang.Text.Number

namespace AliasLang.Json.Quoted

/-- What can be wrong with a literal. -/
inductive Cause where
  /-- A control character stands in the literal as it is. -/
  | control
  /-- A backslash is followed by no escape, or `\u` by something other than four hexadecimal digits. -/
  | escape
  /-- The text ends inside the literal. -/
  | ended
  /-- A surrogate unit that is not the leading one of a pair. -/
  | lone
  /-- A leading unit is not followed by a further `\u`. -/
  | unpaired
deriving DecidableEq, Repr

/-- A cause, and the number of characters of the literal read when it was found. -/
structure Fault where
  cause : Cause
  read : Nat
deriving DecidableEq, Repr

/-- The message of a cause. -/
def Cause.text : Cause → String
  | .control => "control character (\\u0000-\\u001F) found while parsing a string"
  | .escape => "invalid escape"
  | .ended => "EOF while parsing a string"
  | .lone => "lone leading surrogate in hex escape"
  | .unpaired => "unexpected end of hex escape"

/-- The message of a fault in the literal `raw`, quotes included, with the line and column reached. A column counts
the characters read since the last line break, so it is zero just after one. -/
def Fault.text (raw : List Char) (f : Fault) : String :=
  let seen := raw.take f.read
  let line := seen.count '\n' + 1
  let column := (seen.reverse.takeWhile (· ≠ '\n')).length
  s!"{f.cause.text} at line {line} column {column}"

/-- A code unit that starts a pair. -/
def isLeading (n : Nat) : Bool := 0xd800 ≤ n && n ≤ 0xdbff

/-- A code unit that ends a pair. -/
def isTrailing (n : Nat) : Bool := 0xdc00 ≤ n && n ≤ 0xdfff

/-- The character of a pair of units. -/
def pairChar (leading trailing : Nat) : Char :=
  Char.ofNat ((leading - 0xd800) * 0x400 + (trailing - 0xdc00) + 0x10000)

/-- The value of four hexadecimal digits. -/
def unitValue? (a b c d : Char) : Option Nat := do
  let a ← Text.hexValue? a
  let b ← Text.hexValue? b
  let c ← Text.hexValue? c
  let d ← Text.hexValue? d
  return ((a * 16 + b) * 16 + c) * 16 + d

/-- The unit given by the first four characters. -/
def codeUnit (read : Nat) : List Char → Except Fault Nat
  | a :: b :: c :: d :: _ =>
    match unitValue? a b c d with
    | some n => .ok n
    | none => .error ⟨.escape, read + 4⟩
  | cs => .error ⟨.ended, read + cs.length⟩

/-- What the one-letter escapes stand for. -/
def letterEscape? : Char → Option Char
  | '"' => some '"'
  | '\\' => some '\\'
  | '/' => some '/'
  | 'b' => some '\x08'
  | 'f' => some '\x0c'
  | 'n' => some '\n'
  | 'r' => some '\r'
  | 't' => some '\t'
  | _ => none

/-- The unit after a leading one: `cs` is what follows the leading unit's digits. -/
def trailingUnit (read : Nat) : List Char → Except Fault Nat
  | [] => .error ⟨.ended, read⟩
  | ['\\'] => .error ⟨.ended, read + 1⟩
  | '\\' :: 'u' :: cs => do
    let n ← codeUnit (read + 2) cs
    if isTrailing n then .ok n else .error ⟨.lone, read + 6⟩
  | '\\' :: _ :: _ => .error ⟨.unpaired, read + 2⟩
  | _ :: _ => .error ⟨.unpaired, read + 1⟩

/-- The character that an escape stands for, and the length of the escape after its backslash. -/
def escaped (read : Nat) : List Char → Except Fault (Char × Nat)
  | [] => .error ⟨.ended, read⟩
  | c :: cs =>
    if c = 'u' then do
      let n ← codeUnit (read + 1) cs
      if isTrailing n then .error ⟨.lone, read + 5⟩
      else if isLeading n then do
        let m ← trailingUnit (read + 5) (cs.drop 4)
        .ok (pairChar n m, 11)
      else .ok (Char.ofNat n, 5)
    else match letterEscape? c with
      | some d => .ok (d, 1)
      | none => .error ⟨.escape, read + 1⟩

/-- Reads up to the closing quote: the value of the literal, and the text after the quote. The opening quote and
whatever else came before have `read` characters. -/
def decode (read : Nat) : List Char → Except Fault (List Char × List Char)
  | [] => .error ⟨.ended, read⟩
  | c :: cs =>
    if c = '"' then .ok ([], cs)
    else if c = '\\' then
      match escaped (read + 1) cs with
      | .error f => .error f
      | .ok (d, n) =>
        match decode (read + 1 + n) (cs.drop n) with
        | .error f => .error f
        | .ok (value, rest) => .ok (d :: value, rest)
    else if c.toNat < 0x20 then .error ⟨.control, read + 1⟩
    else
      match decode (read + 1) cs with
      | .error f => .error f
      | .ok (value, rest) => .ok (c :: value, rest)
termination_by cs => cs.length
decreasing_by all_goals (simp only [List.length_cons, List.length_drop]; omega)

end AliasLang.Json.Quoted
