/-
Settings of the compiler, and how they are read from names and from records.
-/
import AliasLang.Json.Basic
import AliasLang.Text.Shown

namespace AliasLang

/-- The verb of the command that defines an alias. -/
inductive Verb where
  /-- Fails when the alias exists. -/
  | add
  /-- Replaces the alias when it exists. -/
  | addedit
deriving DecidableEq, Repr

namespace Verb

/-- How a verb is written. -/
def text : Verb → String
  | .add => "add"
  | .addedit => "addedit"

/-- The verbs by their names. -/
def names : List (String × Verb) := [("add", .add), ("addedit", .addedit)]

/-- The verb with this name, or a message. -/
def ofText (s : String) : Except String Verb :=
  match names.lookup s with
  | some v => .ok v
  | none => .error s!"unknown alias verb '{s}', expected add or addedit"

end Verb

/-- How the marker between the commands of a pipeline is found. -/
inductive DelimiterMode where
  /-- Always a bare bar. -/
  | fixed
  /-- A bare bar, or the least number that no command uses. -/
  | numbered
  /-- Eight letters and digits, drawn at random. -/
  | randomized
deriving DecidableEq, Repr

namespace DelimiterMode

/-- How a mode is written. -/
def text : DelimiterMode → String
  | .fixed => "fixed"
  | .numbered => "numbered"
  | .randomized => "randomized"

/-- The modes by their names. -/
def names : List (String × DelimiterMode) :=
  [("fixed", .fixed), ("numbered", .numbered), ("randomized", .randomized)]

/-- The mode with this name, or a message. -/
def ofText (s : String) : Except String DelimiterMode :=
  match names.lookup s with
  | some m => .ok m
  | none => .error s!"unknown delimiter mode '{s}', expected fixed, numbered or randomized"

end DelimiterMode

/-- What a user can set. -/
structure Settings where
  verb : Verb := .addedit
  delimiter : DelimiterMode := .numbered
  /-- Generated script commands report their errors. -/
  errorInfo : Bool := true
  minifyScript : Bool := true
deriving DecidableEq, Repr

namespace Settings

/-- Why a record holds no settings. -/
inductive Fault where
  | unknownField (name : String)
  | unknownVariant (name : String) (known : List String)
  | invalidType (found : Json) (expected : String)
  /-- A choice given by an object that has not exactly one member. -/
  | notOneMember
  /-- An array with more items than there are settings. -/
  | tooManyItems (count : Nat)

/-- What a value is, as messages name it. -/
def kindText : Json → String
  | .null => "null"
  | .bool b => s!"boolean `{b}`"
  | .num n => s!"integer `{n}`"
  | .str s => s!"string {Text.shown s}"
  | .arr _ => "sequence"
  | .obj _ => "map"

/-- Names between backticks: two joined by `or`, more as a list. -/
def choicesText (names : List String) : String :=
  let quoted := names.map fun n => s!"`{n}`"
  match quoted with
  | [a, b] => s!"{a} or {b}"
  | _ => "one of " ++ ", ".intercalate quoted

/-- The settings by their names, in order. -/
def fieldNames : List String := ["verb", "delimiter", "error_info", "minify_script"]

/-- The wording of a fault. -/
def Fault.text : Fault → String
  | .unknownField name => s!"unknown field `{name}`, expected {choicesText fieldNames}"
  | .unknownVariant name known => s!"unknown variant `{name}`, expected {choicesText known}"
  | .invalidType found expected => s!"invalid type: {kindText found}, expected {expected}"
  | .notOneMember => "invalid value: map, expected map with a single key"
  | .tooManyItems count => s!"invalid length {count}, expected fewer elements in array"

/-- One of the named choices. -/
def namedChoice {α : Type} (names : List (String × α)) (name : String) : Except Fault α :=
  match names.lookup name with
  | some a => .ok a
  | none => .error (.unknownVariant name (names.map Prod.fst))

/-- Reads a choice: its name, or an object with that one member and no value. -/
def readChoice {α : Type} (names : List (String × α)) : Json → Except Fault α
  | .str name => namedChoice names name
  | .obj [(name, value)] => do
    let a ← namedChoice names name
    match value with
    | .null => .ok a
    | other => .error (.invalidType other "unit")
  | .obj _ => .error .notOneMember
  | other => .error (.invalidType other "string or map")

/-- Reads a truth value. -/
def readFlag : Json → Except Fault Bool
  | .bool b => .ok b
  | other => .error (.invalidType other "a boolean")

/-- Reads one setting into those read so far. -/
def readField (settings : Settings) (name : String) (value : Json) : Except Fault Settings :=
  match name with
  | "verb" => (readChoice Verb.names value).map fun v => { settings with verb := v }
  | "delimiter" => (readChoice DelimiterMode.names value).map fun m => { settings with delimiter := m }
  | "error_info" => (readFlag value).map fun b => { settings with errorInfo := b }
  | "minify_script" => (readFlag value).map fun b => { settings with minifyScript := b }
  | _ => .error (.unknownField name)

/-- Reads settings from a record, member by member; what is not given has its default. An array gives the settings
in order. -/
def ofRecord : Json → Except Fault Settings
  | .obj members => members.foldlM (fun settings (name, value) => readField settings name value) {}
  | .arr items => do
    let settings ← (fieldNames.zip items).foldlM (fun settings (name, value) => readField settings name value) {}
    if items.length ≤ fieldNames.length then .ok settings else .error (.tooManyItems items.length)
  | other => .error (.invalidType other "struct CompilerSettings")

end Settings
end AliasLang
