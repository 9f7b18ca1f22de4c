/-
The scanner for scripts. A script is a sequence of gaps and lexemes; a gap is white space and comments. Each
function below tells how long the thing at the front of a text is, so gaps and lexemes together make up the script.
Brackets are matched on the way.
-/
import AliasLang.Script.Token
import AliasLang.Text.Blank

namespace AliasLang.Script

open Source (Position)

/-- Why a script has no tokens. -/
inductive Cause where
  | unterminatedComment
  | unterminatedString
  | unterminatedTemplate
  | unterminatedRegex
  | strayCharacter (c : Char)
  | unclosed (bracket : Char)
  /-- A closing bracket while none is open. -/
  | unopened (bracket : Char)
  /-- A closing bracket while another kind of bracket is open since the given line. -/
  | mismatched (bracket opened : Char) (line : Nat)
deriving DecidableEq, Repr

/-- The wording of a cause. -/
def Cause.text : Cause → String
  | .unterminatedComment => "unterminated comment"
  | .unterminatedString => "unterminated string literal"
  | .unterminatedTemplate => "unterminated template literal"
  | .unterminatedRegex => "unterminated regular expression"
  | .strayCharacter c => s!"unexpected character '{c}'"
  | .unclosed b => s!"unclosed '{b}'"
  | .unopened b => s!"unexpected '{b}'"
  | .mismatched b o line => s!"unexpected '{b}', '{o}' from line {line} is still open"

/-- A cause, found after `skipped` characters of the text looked at. -/
structure Fault where
  cause : Cause
  skipped : Nat
deriving DecidableEq, Repr

/-- A cause and its place in the script. -/
structure Refusal where
  cause : Cause
  place : Position
deriving DecidableEq, Repr

/-- The refusal for a fault in the text `cs` that starts at `p`. -/
def Fault.locate (f : Fault) (p : Position) (cs : List Char) : Refusal :=
  ⟨f.cause, p.after (cs.take f.skipped)⟩

/-! ## Gaps -/

/-- What a gap is made of at some point. -/
inductive GapPart where
  | blank
  | lineComment
  /-- A comment between `/*` and `*/`, opened after so many characters of the gap. -/
  | blockComment (opened : Nat)

/-- The length of the gap at the front of a text, of which `read` characters came before. -/
def gapLength (read : Nat) : GapPart → List Char → Except Fault Nat
  | .blockComment opened, [] => .error ⟨.unterminatedComment, opened⟩
  | _, [] => .ok 0
  | part, c :: cs =>
    match part with
    | .blank =>
      if Text.isBlank c then (gapLength (read + 1) .blank cs).map (· + 1)
      else if c = '/' then
        match cs with
        | [] => .ok 0
        | d :: rest =>
          if d = '/' then (gapLength (read + 2) .lineComment rest).map (· + 2)
          else if d = '*' then (gapLength (read + 2) (.blockComment read) rest).map (· + 2)
          else .ok 0
      else .ok 0
    | .lineComment =>
      let part := if c = '\n' then .blank else .lineComment
      (gapLength (read + 1) part cs).map (· + 1)
    | .blockComment opened =>
      if c = '*' && cs.head? = some '/' then
        match cs with
        | [] => .error ⟨.unterminatedComment, opened⟩
        | _ :: rest => (gapLength (read + 2) .blank rest).map (· + 2)
      else (gapLength (read + 1) (.blockComment opened) cs).map (· + 1)

/-! ## Lexemes -/

/-- The length of a string literal after its opening quote, with its closing quote. A line break ends the text of
the literal unless a backslash precedes it. -/
def stringLength? (quote : Char) : List Char → Option Nat
  | [] => none
  | c :: cs =>
    if c = '\n' then none
    else if c = '\\' then
      match cs with
      | [] => none
      | _ :: rest => (stringLength? quote rest).map (· + 2)
    else if c = quote then some 1
    else (stringLength? quote cs).map (· + 1)

/-- Where a template literal has been read to. Starts are counted in characters from the start of the outermost
template. -/
inductive TemplatePart where
  /-- In the text of the template that starts at `start`. -/
  | text (start : Nat)
  /-- In a substitution of that template, inside `depth` braces. -/
  | code (start depth : Nat)
  /-- In a string literal, started at `opened`, of such a substitution. -/
  | string (quote : Char) (opened start depth : Nat)

/-- What is missing when the script ends here. -/
def TemplatePart.unterminated : TemplatePart → Fault
  | .text start => ⟨.unterminatedTemplate, start⟩
  | .code start _ => ⟨.unterminatedTemplate, start⟩
  | .string _ opened _ _ => ⟨.unterminatedString, opened⟩

/-- The length of a template literal from some part of it on, with its closing backtick. `outer` holds start and
brace depth of the substitutions around the current template, and `read` characters came before. -/
def templateLength (read : Nat) (part : TemplatePart) (outer : List (Nat × Nat)) : List Char → Except Fault Nat
  | [] => .error part.unterminated
  | c :: cs =>
    match part with
    | .text start =>
      if c = '\\' then
        match cs with
        | [] => .error part.unterminated
        | _ :: rest => (templateLength (read + 2) part outer rest).map (· + 2)
      else if c = '`' then
        match outer with
        | [] => .ok 1
        | (start, depth) :: outer => (templateLength (read + 1) (.code start depth) outer cs).map (· + 1)
      else if c = '$' && cs.head? = some '\x7b' then
        match cs with
        | [] => .error part.unterminated
        | _ :: rest => (templateLength (read + 2) (.code start 1) outer rest).map (· + 2)
      else (templateLength (read + 1) part outer cs).map (· + 1)
    | .code start depth =>
      if c = '\x7b' then (templateLength (read + 1) (.code start (depth + 1)) outer cs).map (· + 1)
      else if c = '\x7d' then
        let part := if depth ≤ 1 then .text start else .code start (depth - 1)
        (templateLength (read + 1) part outer cs).map (· + 1)
      else if c = '"' || c = '\x27' then
        (templateLength (read + 1) (.string c read start depth) outer cs).map (· + 1)
      else if c = '`' then
        (templateLength (read + 1) (.text read) ((start, depth) :: outer) cs).map (· + 1)
      else (templateLength (read + 1) part outer cs).map (· + 1)
    | .string quote _ start depth =>
      if c = '\n' then .error part.unterminated
      else if c = '\\' then
        match cs with
        | [] => .error part.unterminated
        | _ :: rest => (templateLength (read + 2) part outer rest).map (· + 2)
      else if c = quote then (templateLength (read + 1) (.code start depth) outer cs).map (· + 1)
      else (templateLength (read + 1) part outer cs).map (· + 1)

/-- The length of the rest of a number whose last character so far is `last`. A sign goes on with the number after
the exponent mark of a number that is not hexadecimal. -/
def numberLength (hexadecimal : Bool) (last : Char) : List Char → Nat
  | [] => 0
  | c :: cs =>
    if c.isAlphanum || c = '_' || c = '.' then numberLength hexadecimal c cs + 1
    else if (c = '+' || c = '-') && !hexadecimal && (last = 'e' || last = 'E') then
      numberLength hexadecimal c cs + 1
    else 0

/-- The length of a regular expression after its first slash, with its closing slash and flags. A slash inside
brackets does not close it. -/
def regexLength? (inClass : Bool) : List Char → Option Nat
  | [] => none
  | c :: cs =>
    if c = '\n' then none
    else if c = '\\' then
      match cs with
      | [] => none
      | d :: rest => if d = '\n' then none else (regexLength? inClass rest).map (· + 2)
    else if c = '[' then (regexLength? true cs).map (· + 1)
    else if c = ']' then (regexLength? false cs).map (· + 1)
    else if c = '/' && !inClass then some ((cs.takeWhile isWordPart).length + 1)
    else (regexLength? inClass cs).map (· + 1)

/-- Whether a slash after `last` starts a regular expression, and not a division. -/
def regexAllowed : Option Token → Bool
  | none => true
  | some t =>
    match t.kind with
    | .word => regexKeywords.contains t.text
    | .punctuator => !(["++", "--", ")", "]", "\x7d"].contains t.text)
    | _ => false

/-- A fault at the start of the lexeme when there is no length. -/
def orUnterminated (cause : Cause) : Option Nat → Except Fault Nat
  | some n => .ok n
  | none => .error ⟨cause, 0⟩

/-- The lexeme that starts with `c` and goes on in `cs`, after the token `last`: its kind, and how many characters of
`cs` belong to it. -/
def lexeme (last : Option Token) (c : Char) (cs : List Char) : Except Fault (Kind × Nat) :=
  if c = '"' || c = '\x27' then
    (orUnterminated .unterminatedString (stringLength? c cs)).map (Prod.mk .string)
  else if c = '`' then (templateLength 1 (.text 0) [] cs).map (Prod.mk .template)
  else if c.isDigit || (c = '.' && cs.head?.any Char.isDigit) then
    let hexadecimal := c = '0' && (cs.head? = some 'x' || cs.head? = some 'X')
    .ok (.number, numberLength hexadecimal c cs)
  else if isWordStart c then .ok (.word, (cs.takeWhile isWordPart).length)
  else if c = '/' && regexAllowed last then
    (orUnterminated .unterminatedRegex (regexLength? false cs)).map (Prod.mk .regex)
  else
    match punctuators.find? fun p => p.toList.isPrefixOf (c :: cs) with
    | some p => .ok (.punctuator, p.length - 1)
    | none => .error ⟨.strayCharacter c, 0⟩

/-! ## Brackets -/

/-- A bracket that has been opened. -/
structure Opened where
  bracket : Char
  place : Position
  /-- It opens the head of a statement. -/
  control : Bool
deriving DecidableEq, Repr

/-- The bracket that closes `c`. -/
def closerOf (c : Char) : Char :=
  if c = '(' then ')' else if c = '[' then ']' else '\x7d'

/-- Keeps track of the open brackets at a punctuator `text` at `p` after the token `last`. The first component tells
whether it closes the head of a statement. -/
def track (opened : List Opened) (last : Option Token) (p : Position) (text : String) :
    Except Cause (Bool × List Opened) :=
  match text.toList with
  | [c] =>
    if c = '(' || c = '[' || c = '\x7b' then
      let control := c = '(' && last.any fun t => t.kind = .word && controlKeywords.contains t.text
      .ok (false, ⟨c, p, control⟩ :: opened)
    else if c = ')' || c = ']' || c = '\x7d' then
      match opened with
      | [] => .error (.unopened c)
      | o :: rest =>
        if closerOf o.bracket = c then .ok (o.control, rest)
        else .error (.mismatched c o.bracket (o.place.line + 1))
    else .ok (false, opened)
  | _ => .ok (false, opened)

/-! ## Tokens -/

/-- The tokens of a text that starts at `p`, after the token `last` and inside the brackets `opened`. -/
def tokensFrom (last : Option Token) (opened : List Opened) (p : Position) (cs : List Char) :
    Except Refusal (List Token) :=
  match gapLength 0 .blank cs with
  | .error f => .error (f.locate p cs)
  | .ok gap =>
    let q := p.after (cs.take gap)
    match _h : cs.drop gap with
    | [] =>
      match opened with
      | [] => .ok []
      | o :: _ => .error ⟨.unclosed o.bracket, o.place⟩
    | c :: rest =>
      match lexeme last c rest with
      | .error f => .error (f.locate q (c :: rest))
      | .ok (kind, n) =>
        let text := String.ofList (c :: rest.take n)
        match if kind = .punctuator then track opened last q text else .ok (false, opened) with
        | .error cause => .error ⟨cause, q⟩
        | .ok (controlClose, opened) =>
          let token : Token := ⟨kind, text, q, (cs.take gap).contains '\n', controlClose⟩
          match tokensFrom (some token) opened (q.after (c :: rest.take n)) (rest.drop n) with
          | .error e => .error e
          | .ok tokens => .ok (token :: tokens)
termination_by cs.length
decreasing_by
  have : (cs.drop gap).length = rest.length + 1 := by rw [_h]; rfl
  simp only [List.length_drop] at this ⊢
  omega

/-- The tokens of a script. -/
def tokenize (script : String) : Except Refusal (List Token) :=
  tokensFrom none [] .start script.toList

end AliasLang.Script
