/-
The canonical layout of a program: one declaration per paragraph, one action per line, and nested bodies indented by
two more spaces. Literals are written in printable ASCII, with every other character as one or two `\u` escapes.
-/
import AliasLang.Program.Basic
import AliasLang.Program.Source

namespace AliasLang.Program

/-! ## Literals -/

/-- The UTF-16 code units of a character. -/
def codeUnits (c : Char) : List Nat :=
  let n := c.toNat
  if n < 0x10000 then [n] else [0xd800 + (n - 0x10000) / 0x400, 0xdc00 + (n - 0x10000) % 0x400]

/-- How a character is written inside a string literal. -/
def literalChar (c : Char) : List Char :=
  if c = '"' then ['\\', '"']
  else if c = '\\' then ['\\', '\\']
  else if c = '\n' then ['\\', 'n']
  else if c = '\r' then ['\\', 'r']
  else if c = '\t' then ['\\', 't']
  else if ' ' ≤ c && c ≤ '~' then [c]
  else (codeUnits c).flatMap fun n => '\\' :: 'u' :: Text.hex 4 n

/-- A string literal. -/
def literal (s : String) : String :=
  "\"" ++ String.ofList (s.toList.flatMap literalChar) ++ "\""

/-! ## Actions -/

/-- A simple action. -/
def Simple.layout : Simple → String
  | .script a =>
    let imported := match a.imported with
      | some i => "import " ++ literal i.id ++ " "
      | none => ""
    "js " ++ imported ++ "```" ++ a.script.raw ++ "```"
  | .commands l => l.word.text ++ " " ++ " | ".intercalate (l.commands.map literal)
  | .say (some text) _ => "say " ++ literal text
  | .say none _ => "say"
  | .call c =>
    match c.user with
    | some user => s!"call @{user} {c.target}"
    | none => s!"call {c.target}"

/-- A retrieval. -/
def Retrieve.layout : Retrieve → String
  | .key k isLocal _ => "get " ++ (if isLocal then "local " else "") ++ literal k
  | .argument a _ => a.raw

/-- A step of a chain. -/
def Step.layout : Step → String
  | .store s =>
    "set " ++ (if s.isTemp then "temp " else "") ++ (if s.isLocal then "local " else "") ++ literal s.key
  | .action a => a.layout

/-- The links of a chain, each after its arrow. -/
def chainLayout (links : List Link) : String :=
  String.join (links.map fun l => " -> " ++ l.step.layout)

/-- An action that runs something, without the line it stands on. -/
def Execute.layout (e : Execute) : String :=
  let retrieve := match e.retrieve with
    | some r => r.layout ++ " -> "
    | none => ""
  retrieve ++ e.action.layout ++ chainLayout e.chain

/-- The spaces in front of a line. -/
def indentation (level : Nat) : String :=
  String.ofList (List.replicate (2 * level) ' ')

mutual

/-- An action on lines of its own. -/
def Action.layout (level : Nat) : Action → String
  | .execute e => indentation level ++ e.layout ++ "\n"
  | .compiled actions _ chain _ =>
    indentation level ++ "get compiled\n" ++ actionsLayout (level + 1) actions
      ++ indentation level ++ "end" ++ chainLayout chain ++ "\n"

/-- Actions, one after the other. -/
def actionsLayout (level : Nat) : List Action → String
  | [] => ""
  | a :: rest => a.layout level ++ actionsLayout level rest

end

/-! ## Declarations -/

/-- A declaration. -/
def Declaration.layout : Declaration → String
  | .entry e => s!"entry {e.name}\n"
  | .define a =>
    let keyPrefix := match a.keyPrefix with
      | some p => " prefixed " ++ literal p
      | none => ""
    "alias " ++ a.name ++ keyPrefix ++ "\n" ++ actionsLayout 1 a.body.actions ++ "end\n"

/-- A program in canonical layout. -/
def layout (p : Program) : String :=
  "\n".intercalate (p.declarations.map Declaration.layout)

/-- Source text in canonical layout. -/
def format (source : String) : Except Error String :=
  (parse source).map layout

end AliasLang.Program
