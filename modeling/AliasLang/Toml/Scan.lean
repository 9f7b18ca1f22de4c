/-
The small parts of a TOML text: blanks, comments, line ends, strings, keys, numbers and times. Each function takes its
part from the front of a text and answers with the text after it.
-/
import AliasLang.Text.Number

namespace AliasLang.Toml

/-- Takes something from the front of a text: its value and the text after it. -/
abbrev Scan (α : Type) := List Char → Option (α × List Char)

/-! ## Blanks, comments and line ends -/

/-- A blank within a line. -/
def isBlank (c : Char) : Bool := c = ' ' || c = '\t'

/-- A character that may stand in a comment or a string: no control character but the tab. -/
def isText (c : Char) : Bool := c = '\t' || (c.toNat ≥ 0x20 && c.toNat ≠ 0x7f)

/-- The text after its leading blanks. -/
def skipBlanks (cs : List Char) : List Char := cs.dropWhile isBlank

/-- The text after a line break. -/
def lineBreak? : List Char → Option (List Char)
  | '\n' :: rest => some rest
  | '\r' :: '\n' :: rest => some rest
  | _ => none

/-- The text after a comment, if there is one. -/
def skipComment : List Char → List Char
  | '#' :: rest => rest.dropWhile isText
  | cs => cs

/-- The text after blanks, a comment, and the end of the line or of the text. -/
def lineEnd? (cs : List Char) : Option (List Char) :=
  match skipComment (skipBlanks cs) with
  | [] => some []
  | rest => lineBreak? rest

/-- The text after blanks and line breaks. -/
def skipLines : List Char → List Char
  | ' ' :: rest => skipLines rest
  | '\t' :: rest => skipLines rest
  | '\n' :: rest => skipLines rest
  | '\r' :: '\n' :: rest => skipLines rest
  | cs => cs

/-- The text after blanks, line breaks and comments. -/
def skipGaps (cs : List Char) : List Char :=
  match skipLines cs with
  | '#' :: rest => if (rest.dropWhile isText).length < cs.length then skipGaps (rest.dropWhile isText) else rest
  | rest => rest
termination_by cs.length

/-! ## Strings -/

/-- The value of hexadecimal digits. -/
def hexNumber? (digits : List Char) : Option Nat :=
  digits.foldlM (fun n c => (Text.hexValue? c).map (16 * n + ·)) 0

/-- The character with the given number of hexadecimal digits in front. -/
def hexChar? (width : Nat) (cs : List Char) : Option Char := do
  if cs.length < width then none
  let n ← hexNumber? (cs.take width)
  if n.isValidChar then some (Char.ofNat n) else none

/-- The character that an escape stands for, and the length of the escape after its backslash. -/
def escape? : List Char → Option (Char × Nat)
  | 'b' :: _ => some ('\x08', 1)
  | 't' :: _ => some ('\t', 1)
  | 'n' :: _ => some ('\n', 1)
  | 'f' :: _ => some ('\x0c', 1)
  | 'r' :: _ => some ('\r', 1)
  | '"' :: _ => some ('"', 1)
  | '\\' :: _ => some ('\\', 1)
  | 'u' :: rest => (hexChar? 4 rest).map (·, 5)
  | 'U' :: rest => (hexChar? 8 rest).map (·, 9)
  | _ => none

/-- Puts a character before what was scanned. -/
def before (c : Char) : Option (List Char × List Char) → Option (List Char × List Char)
  | some (value, rest) => some (c :: value, rest)
  | none => none

/-- A string on one line with escapes, after its opening quote. -/
def basicString (cs : List Char) : Option (List Char × List Char) :=
  match cs with
  | [] => none
  | c :: rest =>
    if c = '"' then some ([], rest)
    else if c = '\\' then
      match escape? rest with
      | none => none
      | some (d, n) => before d (basicString (rest.drop n))
    else if isText c then before c (basicString rest)
    else none
termination_by cs.length
decreasing_by all_goals (simp only [List.length_cons, List.length_drop]; omega)

/-- A string on one line without escapes, after its opening quote. -/
def literalString : Scan (List Char)
  | [] => none
  | c :: rest =>
    if c = '\x27' then some ([], rest)
    else if isText c then before c (literalString rest)
    else none

/-- The quotes at the front of a string over several lines. Three of them end it, and up to two before these belong to
it; one or two by themselves belong to it, too. The answer is the quotes that belong to it, and whether it ends. -/
def quotes? (quote : Char) (cs : List Char) : Option (List Char × Bool) :=
  let count := (cs.takeWhile (· = quote)).length
  if count < 3 then some (List.replicate count quote, false)
  else if count ≤ 5 then some (List.replicate (count - 3) quote, true)
  else none

/-- A string over several lines, after its opening quotes; `quote` is the quote around it, and a string with
`escapes` has those. -/
def longString (quote : Char) (escapes : Bool) (cs : List Char) : Option (List Char × List Char) :=
  match cs with
  | [] => none
  | c :: rest =>
    if c = quote then
      match quotes? quote cs with
      | none => none
      | some (value, true) => some (value, cs.drop (value.length + 3))
      | some (value, false) => (longString quote escapes (rest.drop (value.length - 1))).map fun (v, r) => (value ++ v, r)
    else if escapes && c = '\\' then
      match lineBreak? (skipBlanks rest) with
      | some next => if (skipLines next).length ≤ rest.length then longString quote escapes (skipLines next) else none
      | none =>
        match escape? rest with
        | none => none
        | some (d, n) => before d (longString quote escapes (rest.drop n))
    else if isText c then before c (longString quote escapes rest)
    else if c = '\n' then before '\n' (longString quote escapes rest)
    else if c = '\r' && rest.head? = some '\n' then before '\n' (longString quote escapes (rest.drop 1))
    else none
termination_by cs.length
decreasing_by all_goals (simp only [List.length_cons, List.length_drop]; omega)

/-- The text after a line break, if there is one in front. -/
def skipBreak (cs : List Char) : List Char := (lineBreak? cs).getD cs

/-- A string of any form. -/
def string? : Scan String
  | '"' :: '"' :: '"' :: rest => (longString '"' true (skipBreak rest)).map fun (v, r) => (String.ofList v, r)
  | '"' :: rest => (basicString rest).map fun (v, r) => (String.ofList v, r)
  | '\x27' :: '\x27' :: '\x27' :: rest =>
    (longString '\x27' false (skipBreak rest)).map fun (v, r) => (String.ofList v, r)
  | '\x27' :: rest => (literalString rest).map fun (v, r) => (String.ofList v, r)
  | _ => none

/-! ## Keys -/

/-- A character of a key without quotes. -/
def isKeyChar (c : Char) : Bool := c.isAlphanum || c = '-' || c = '_'

/-- One part of a key. -/
def simpleKey? : Scan String
  | '"' :: rest => (basicString rest).map fun (v, r) => (String.ofList v, r)
  | '\x27' :: rest => (literalString rest).map fun (v, r) => (String.ofList v, r)
  | cs =>
    let name := cs.takeWhile isKeyChar
    if name.isEmpty then none else some (String.ofList name, cs.dropWhile isKeyChar)

/-- A key: one or more parts with dots between them, and blanks around each. -/
def key? (cs : List Char) : Option (List String × List Char) :=
  match simpleKey? (skipBlanks cs) with
  | none => none
  | some (name, after) =>
    match skipBlanks after with
    | '.' :: rest =>
      if rest.length < cs.length then (key? rest).map fun (names, r) => (name :: names, r) else none
    | rest => some ([name], rest)
termination_by cs.length

/-! ## Numbers -/

/-- Further digits, each right after a digit or after an underscore between two digits. -/
def moreDigits (isDigit : Char → Bool) : List Char → List Char × List Char
  | '_' :: c :: rest =>
    if isDigit c then
      let (digits, after) := moreDigits isDigit rest
      (c :: digits, after)
    else ([], '_' :: c :: rest)
  | c :: rest =>
    if isDigit c then
      let (digits, after) := moreDigits isDigit rest
      (c :: digits, after)
    else ([], c :: rest)
  | [] => ([], [])

/-- One or more digits, with underscores between them. -/
def digitRun? (isDigit : Char → Bool) : Scan (List Char)
  | c :: rest =>
    if isDigit c then
      let (digits, after) := moreDigits isDigit rest
      some (c :: digits, after)
    else none
  | [] => none

/-- A sign, if there is one; true for a minus. -/
def sign : List Char → Bool × List Char
  | '-' :: rest => (true, rest)
  | '+' :: rest => (false, rest)
  | cs => (false, cs)

/-- A decimal without leading zeros. -/
def plainDecimal? (cs : List Char) : Option (Nat × List Char) := do
  let (digits, rest) ← digitRun? Char.isDigit cs
  if digits.length > 1 && digits.head? = some '0' then none
  else return (← Text.decimal? digits, rest)

/-- A digit of the given base. -/
def isBaseDigit (base : Nat) (c : Char) : Bool := (Text.hexValue? c).any (· < base)

/-- A number in another base, after the letter of the base. -/
def basedNumber? (base : Nat) (cs : List Char) : Option (Int × List Char) := do
  let (digits, rest) ← digitRun? (isBaseDigit base) cs
  let n := digits.foldl (fun n c => base * n + (Text.hexValue? c).getD 0) 0
  if n ≤ Text.maxSigned then some (n, rest) else none

/-- An integer of 64 bits. -/
def integer? : Scan Int
  | '0' :: 'x' :: rest => basedNumber? 16 rest
  | '0' :: 'o' :: rest => basedNumber? 8 rest
  | '0' :: 'b' :: rest => basedNumber? 2 rest
  | cs => do
    let (negative, unsigned) := sign cs
    let (n, rest) ← plainDecimal? unsigned
    if negative then
      if n ≤ Text.maxSigned + 1 then some (-(n : Int), rest) else none
    else if n ≤ Text.maxSigned then some ((n : Int), rest) else none

/-- The digits of a fraction. -/
def fraction? : Scan (List Char)
  | '.' :: rest => digitRun? Char.isDigit rest
  | _ => none

/-- The value of an exponent. -/
def exponent? : Scan Int
  | [] => none
  | c :: rest =>
    if c = 'e' || c = 'E' then do
      let (negative, unsigned) := sign rest
      let (digits, after) ← digitRun? Char.isDigit unsigned
      return (if negative then -(Text.withDigits 0 digits : Int) else Text.withDigits 0 digits, after)
    else none

/-- What follows the integer part of a float: the digits of its fraction and its exponent, at least one of them. -/
def floatTail? (cs : List Char) : Option ((List Char × Int) × List Char) :=
  match fraction? cs with
  | none => (exponent? cs).map fun (power, rest) => (([], power), rest)
  | some (digits, after) =>
    match exponent? after with
    | none => some ((digits, 0), after)
    | some (power, rest) => some ((digits, power), rest)

/-- The text after a float. A positive number that is too great is refused; a negative one stands for infinity. -/
def float? (cs : List Char) : Option (List Char) :=
  let (negative, unsigned) := sign cs
  if "inf".toList.isPrefixOf unsigned || "nan".toList.isPrefixOf unsigned then some (unsigned.drop 3)
  else do
    let (whole, rest) ← plainDecimal? unsigned
    let ((digits, power), rest) ← floatTail? rest
    if !negative && Text.exceedsFloat (Text.withDigits whole digits) (power - digits.length) then none else some rest

/-! ## Times -/

/-- A number of exactly `width` digits from `least` to `most`. -/
def fixedNumber? (width least most : Nat) (cs : List Char) : Option (Nat × List Char) := do
  if cs.length < width then none
  let n ← Text.decimal? (cs.take width)
  if least ≤ n && n ≤ most then some (n, cs.drop width) else none

/-- The text after the given character. -/
def expect? (c : Char) : List Char → Option (List Char)
  | d :: rest => if c = d then some rest else none
  | [] => none

/-- The number of days of a month. -/
def daysIn (year month : Nat) : Nat :=
  if month = 2 then if (year % 4 = 0 && year % 100 ≠ 0) || year % 400 = 0 then 29 else 28
  else if month = 4 || month = 6 || month = 9 || month = 11 then 30
  else 31

/-- The text after a date. -/
def date? (cs : List Char) : Option (List Char) := do
  let (year, rest) ← fixedNumber? 4 0 9999 cs
  let (month, rest) ← fixedNumber? 2 1 12 (← expect? '-' rest)
  let (_, rest) ← fixedNumber? 2 1 (daysIn year month) (← expect? '-' rest)
  return rest

/-- The text after the time of a day. -/
def clock? (cs : List Char) : Option (List Char) := do
  let (_, rest) ← fixedNumber? 2 0 23 cs
  let (_, rest) ← fixedNumber? 2 0 59 (← expect? ':' rest)
  let (_, rest) ← fixedNumber? 2 0 60 (← expect? ':' rest)
  match rest with
  | '.' :: c :: after => if c.isDigit then return after.dropWhile Char.isDigit else none
  | ['.'] => none
  | _ => return rest

/-- The text after an offset from universal time. -/
def offset? : List Char → Option (List Char)
  | [] => none
  | c :: rest =>
    if c = 'Z' || c = 'z' then some rest
    else if c = '+' || c = '-' then do
      let (_, rest) ← fixedNumber? 2 0 23 rest
      let (_, rest) ← fixedNumber? 2 0 59 (← expect? ':' rest)
      return rest
    else none

/-- The text after a date, a time of a day, or both, the latter perhaps with an offset. -/
def time? (cs : List Char) : Option (List Char) :=
  match date? cs with
  | none => clock? cs
  | some [] => some []
  | some (c :: rest) =>
    if c = 'T' || c = 't' || c = ' ' then
      match clock? rest with
      | none => some (c :: rest)
      | some after => some ((offset? after).getD after)
    else some (c :: rest)

end AliasLang.Toml
