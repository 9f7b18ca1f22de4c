/-
Reading TOML texts: values, then lines, then the table that the lines make up.
-/
import AliasLang.Toml.Basic
import AliasLang.Toml.Scan

namespace AliasLang.Toml

/-! ## Values -/

/-- How deep arrays and tables between brackets and braces may nest. -/
def maxNesting : Nat := 79

/-- The items of an array, after its opening bracket or a comma. -/
def arrayItems (item : Scan Value) (cs : List Char) : Option (List Value × List Char) :=
  match skipGaps cs with
  | ']' :: rest => some ([], rest)
  | start =>
    match item start with
    | none => none
    | some (v, after) =>
      match skipGaps after with
      | ']' :: rest => some ([v], rest)
      | ',' :: rest =>
        if rest.length < cs.length then (arrayItems item rest).map fun (vs, r) => (v :: vs, r) else none
      | _ => none
termination_by cs.length

/-- A key, an equals sign and a value. -/
def pair? (item : Scan Value) (cs : List Char) : Option ((List String × Value) × List Char) := do
  let (names, rest) ← key? cs
  let (v, rest) ← item (skipBlanks (← expect? '=' rest))
  return ((names, v), rest)

/-- Adds a pair whose key has one or more parts. -/
def addNames (ms : Members) (names : List String) (value : Value) : Option Members := do
  ms.addPair names.dropLast (← names.getLast?) value

/-- The pairs of a table that has some, after its opening brace or a comma; `ms` are those before. -/
def bracedPairs (item : Scan Value) (ms : Members) (cs : List Char) : Option (Members × List Char) :=
  match pair? item cs with
  | none => none
  | some ((names, v), after) =>
    match addNames ms names v with
    | none => none
    | some ms =>
      match skipBlanks after with
      | '\x7d' :: rest => some (ms, rest)
      | ',' :: rest => if rest.length < cs.length then bracedPairs item ms rest else none
      | _ => none
termination_by cs.length

/-- A number or a time. -/
def number? (cs : List Char) : Option (Value × List Char) :=
  match time? cs, float? cs, integer? cs with
  | some rest, _, _ => some (.time, rest)
  | none, some rest, _ => some (.float, rest)
  | none, none, some (n, rest) => some (.integer n, rest)
  | none, none, none => none

/-- A word in front of a text. -/
def word? (word : String) (value : Value) (cs : List Char) : Option (Value × List Char) :=
  if word.toList.isPrefixOf cs then some (value, cs.drop word.length) else none

/-- A value, with `room` levels of nesting left. -/
def value? : Nat → Scan Value
  | _, [] => none
  | room, c :: rest =>
    if c = '"' || c = '\x27' then (string? (c :: rest)).map fun (s, r) => (.string s, r)
    else if c = '[' then
      match room with
      | 0 => none
      | room + 1 => (arrayItems (value? room) rest).map fun (vs, r) => (.array vs, r)
    else if c = '\x7b' then
      match room with
      | 0 => none
      | room + 1 =>
        match skipBlanks rest with
        | '\x7d' :: after => some (.table .braced [], after)
        | _ => (bracedPairs (value? room) [] rest).map fun (ms, r) => (.table .braced ms, r)
    else if c = 't' then word? "true" (.boolean true) (c :: rest)
    else if c = 'f' then word? "false" (.boolean false) (c :: rest)
    else number? (c :: rest)

/-! ## Lines -/

/-- What a line says. -/
inductive Line where
  | header (names : List String)
  | tableHeader (names : List String)
  | pair (names : List String) (value : Value)

/-- A header or a pair, and the text after its line. -/
def line? : Scan Line
  | '[' :: '[' :: rest => do
    let (names, rest) ← key? rest
    let rest ← lineEnd? (← expect? ']' (← expect? ']' rest))
    return (.tableHeader names, rest)
  | '[' :: rest => do
    let (names, rest) ← key? rest
    return (.header names, ← lineEnd? (← expect? ']' rest))
  | cs => do
    let ((names, v), rest) ← pair? (value? maxNesting) cs
    return (.pair names v, ← lineEnd? rest)

/-- The lines of a text that say something. -/
def lines? (cs : List Char) : Option (List Line) :=
  match skipBlanks cs with
  | [] => some []
  | start =>
    match lineEnd? start with
    | some rest => if rest.length < cs.length then lines? rest else none
    | none =>
      match line? start with
      | none => none
      | some (l, rest) => if rest.length < cs.length then (lines? rest).map (l :: ·) else none
termination_by cs.length

/-! ## Tables -/

/-- A table under construction, and the header that the next pairs stand under. -/
structure Draft where
  members : Members
  header : List String

/-- Adds a line. -/
def Draft.add? (d : Draft) : Line → Option Draft
  | .header names => do return ⟨← d.members.addHeader names.dropLast (← names.getLast?), names⟩
  | .tableHeader names => do return ⟨← d.members.addTable names.dropLast (← names.getLast?), names⟩
  | .pair names v => do return ⟨← d.members.addBelow d.header names.dropLast (← names.getLast?) v, d.header⟩

/-- The text after a byte order mark, if there is one in front. -/
def skipMark : List Char → List Char
  | '\ufeff' :: rest => rest
  | cs => cs

/-- The table that a text describes. -/
def ofText? (text : String) : Option Members := do
  let draft ← (← lines? (skipMark text.toList)).foldlM Draft.add? ⟨[], []⟩
  return draft.members

end AliasLang.Toml
