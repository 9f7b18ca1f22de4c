/-
The scanner. Every source text is a sequence of gaps and lexemes: a gap is white space and comments, and a lexeme
is what one token is written as. `lexeme` recognises the lexeme at the front of a text and tells how long it is;
`tokensFrom` walks over a text with it, so tokens and gaps together make up the text.
-/
import AliasLang.Token.Basic
import AliasLang.Token.Error

namespace AliasLang.Token

open Source (Span Position)

/-! ## Gaps -/

/-- The length of the white space and comments at the front of a text. A comment starts with `#` and runs to the
end of its line. -/
def gapLength (inComment : Bool) : List Char → Nat
  | [] => 0
  | c :: cs =>
    if c = '\n' then gapLength false cs + 1
    else if inComment || c = '#' then gapLength true cs + 1
    else if c = ' ' || c = '\t' || c = '\r' then gapLength false cs + 1
    else 0

/-! ## Lexemes -/

/-- A character of names: ASCII letters and digits, underscore and dash. -/
def isNameChar (c : Char) : Bool :=
  c.isAlphanum || c = '_' || c = '-'

/-- The length of the run of name characters at the front of a text. The run ends before an arrow. -/
def nameLength : List Char → Nat
  | [] => 0
  | c :: cs =>
    if isNameChar c && !(c = '-' && cs.head? = some '>') then nameLength cs + 1 else 0

/-- The length of a string literal after its opening quote, with the closing quote: the first one that no unpaired
backslash precedes. -/
def stringLength? : List Char → Option Nat
  | [] => none
  | c :: cs =>
    if c = '"' then some 1
    else if c = '\\' then
      match cs with
      | [] => none
      | _ :: rest => (stringLength? rest).map (· + 2)
    else (stringLength? cs).map (· + 1)

/-- The length of a script up to its closing fence. `read` characters of the lexeme come before. -/
def scriptLength (read : Nat) : List Char → Except Fault Nat
  | [] => .error ⟨.unterminatedScript, 0, 0⟩
  | c :: cs =>
    if c = '\\' then
      match cs with
      | [] => .error ⟨.unterminatedScript, 0, 0⟩
      | _ :: rest => (scriptLength (read + 2) rest).map (· + 2)
    else if c = '`' then
      if ['`', '`'].isPrefixOf cs then .ok 0 else .error ⟨.bareBacktick, read, 0⟩
    else (scriptLength (read + 1) cs).map (· + 1)

/-- A character that may stand between the braces of an argument literal. -/
def isArgumentChar (c : Char) : Bool :=
  c.isAlphanum || c = '+' || c = '-' || c = '.'

/-- A word: a keyword, or a name of proper length. -/
def word (name : String) : Except Fault Kind :=
  match Keyword.ofText? name with
  | some k => .ok (.keyword k)
  | none =>
    if name.length < minNameLength || maxNameLength < name.length then
      .error ⟨.nameLength name, 0, name.length⟩
    else .ok (.identifier name)

/-- The string literal whose opening quote is followed by `cs`. -/
def stringLexeme (cs : List Char) : Except Fault (Kind × Nat) :=
  match stringLength? cs with
  | none => .error ⟨.unterminatedString, 0, 0⟩
  | some n =>
    match Json.Quoted.decode 1 (cs.take n) with
    | .ok (value, _) => .ok (.string (String.ofList value), n)
    | .error fault => .error ⟨.badString (String.ofList ('"' :: cs.take n)) fault, 0, 0⟩

/-- The user whose `@` is followed by `cs`. -/
def userLexeme (cs : List Char) : Except Fault (Kind × Nat) :=
  let n := nameLength cs
  if n = 0 then .error ⟨.missingUser, 0, 0⟩ else .ok (.user (String.ofList (cs.take n)), n)

/-- The argument literal whose `$` is followed by `cs`. -/
def argumentLexeme (cs : List Char) : Except Fault (Kind × Nat) :=
  if cs.head? ≠ some '\x7b' then .error ⟨.missingBrace, 0, 0⟩
  else
    let inner := (cs.drop 1).takeWhile isArgumentChar
    if ((cs.drop 1).drop inner.length).head? ≠ some '\x7d' then .error ⟨.unterminatedArgument, 0, 0⟩
    else
      let text := String.ofList inner
      match Selector.read? text with
      | some s => .ok (.argument ⟨s, "$\x7b" ++ text ++ "\x7d"⟩, inner.length + 2)
      | none => .error ⟨.badArgument text, 0, 0⟩

/-- The script whose first backtick is followed by `cs`. -/
def scriptLexeme (cs : List Char) : Except Fault (Kind × Nat) :=
  if ['`', '`'].isPrefixOf cs then
    match scriptLength 3 (cs.drop 2) with
    | .ok n => .ok (.script (String.ofList ((cs.drop 2).take n)), n + 5)
    | .error f => .error f
  else .error ⟨.singleBacktick, 0, 0⟩

/-- The lexeme that starts with `c` and goes on in `cs`: what it is, and how many characters of `cs` belong to it. -/
def lexeme (c : Char) (cs : List Char) : Except Fault (Kind × Nat) :=
  if c = '|' then .ok (.bar, 0)
  else if c = '-' && cs.head? = some '>' then .ok (.arrow, 1)
  else if c = '"' then stringLexeme cs
  else if c = '@' then userLexeme cs
  else if c = '$' then argumentLexeme cs
  else if c = '`' then scriptLexeme cs
  else if isNameChar c then
    let n := nameLength cs
    match word (String.ofList (c :: cs.take n)) with
    | .ok kind => .ok (kind, n)
    | .error f => .error f
  else .error ⟨.strayCharacter c, 0, 0⟩

/-! ## Tokens -/

/-- The tokens of a text that starts at `p`. The last one marks the end of input. -/
def tokensFrom (p : Position) (cs : List Char) : Except LexError (List Token) :=
  let gap := gapLength false cs
  let p := p.after (cs.take gap)
  match _h : cs.drop gap with
  | [] => .ok [⟨.endOfInput, Span.point p⟩]
  | c :: rest =>
    match lexeme c rest with
    | .error f => .error (f.locate p (c :: rest))
    | .ok (kind, n) =>
      let q := p.after (c :: rest.take n)
      match tokensFrom q (rest.drop n) with
      | .error e => .error e
      | .ok tokens => .ok (⟨kind, Span.between p q⟩ :: tokens)
termination_by cs.length
decreasing_by
  have : (cs.drop gap).length = rest.length + 1 := by rw [_h]; rfl
  simp only [List.length_drop] at this ⊢
  omega

/-- A character that source text may hold: printable ASCII, tab and the line breaks. -/
def isSourceChar (c : Char) : Bool :=
  c = '\n' || c = '\t' || c = '\r' || (' ' ≤ c && c ≤ '~')

/-- The tokens of a source text. A foreign character anywhere is reported before anything else. -/
def tokenize (source : String) : Except LexError (List Token) :=
  let cs := source.toList
  match cs.findIdx? (!isSourceChar ·) with
  | some i => .error (Fault.locate ⟨.foreignCharacter (cs.getD i ' '), i, 1⟩ .start cs)
  | none => tokensFrom .start cs

end AliasLang.Token
