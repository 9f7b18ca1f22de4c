/-
The configuration of the command-line tool: what a TOML text can set, with defaults for everything. An unknown name, a
value of the wrong type, or any fault in the text makes the whole configuration invalid.
-/
import AliasLang.Files
import AliasLang.Settings
import AliasLang.Text.Blank
import AliasLang.Toml.Document

namespace AliasLang.Tool

/-- How log lines are written. -/
inductive LogFormat where
  | text | json
deriving DecidableEq, Repr

/-- The formats by their names. -/
def LogFormat.names : List (String × LogFormat) := [("text", .text), ("json", .json)]

/-- How a format is written. -/
def LogFormat.name : LogFormat → String
  | .text => "text"
  | .json => "json"

/-- Where gists come from. -/
structure GistConfig where
  cacheDir : String := "./.gistcache/"
  baseUrl : String := "https://api.github.com/gists/"
  /-- In milliseconds. -/
  timeout : Nat := 10000
  /-- Gists are taken from the cache only. -/
  offline : Bool := false
deriving DecidableEq, Repr

/-- What can be configured. -/
structure Config where
  settings : Settings := {}
  gist : GistConfig := {}
  log : LogFormat := .text
deriving DecidableEq, Repr

/-- Why there is no valid configuration. -/
inductive ConfigError where
  | unreadable (error : FileError)
  | malformed
  | invalidValue (field reason : String)
deriving DecidableEq, Repr

/-- The message of an error. -/
def ConfigError.message : ConfigError → String
  | .unreadable e => s!"Failed to read config file: {e.message}"
  | .malformed => "Failed to parse config TOML: no valid configuration"
  | .invalidValue field reason => s!"Invalid config value for {field}: {reason}"

namespace Config

open Toml (Value Members)

/-! ## Reading -/

/-- A text. -/
def text? : Value → Option String
  | .string s => some s
  | _ => none

/-- A truth value. -/
def flag? : Value → Option Bool
  | .boolean b => some b
  | _ => none

/-- A number that is not negative. -/
def count? : Value → Option Nat
  | .integer n => if 0 ≤ n then some n.toNat else none
  | _ => none

/-- A value without content. -/
def isVoid : Value → Bool
  | .table _ [] | .array [] | .tables [] => true
  | _ => false

/-- One of some named choices: its name, or a table with that one key and nothing under it. -/
def choice? {α : Type} (names : List (String × α)) : Value → Option α
  | .string s => names.lookup s
  | .table _ [(name, v)] => if isVoid v then names.lookup name else none
  | _ => none

/-- Reads each given field of a record into `init`. A table gives the fields by name. An array gives them in order, and
what comes after the last field does not count. -/
def record? {α : Type} (names : List String) (field? : α → String → Value → Option α) (init : α) : Value → Option α
  | .table _ members => members.foldlM (fun a (name, v) => field? a name v) init
  | .array items => (names.zip items).foldlM (fun a (name, v) => field? a name v) init
  | .tables items =>
    (names.zip (items.map (Value.table .headed))).foldlM (fun a (name, v) => field? a name v) init
  | _ => none

/-- A setting of the compiler. -/
def settingsField? (s : Settings) (name : String) (v : Value) : Option Settings :=
  match name with
  | "verb" => (choice? Verb.names v).map fun x => { s with verb := x }
  | "delimiter" => (choice? DelimiterMode.names v).map fun x => { s with delimiter := x }
  | "error_info" => (flag? v).map fun x => { s with errorInfo := x }
  | "minify_script" => (flag? v).map fun x => { s with minifyScript := x }
  | _ => none

/-- The fields of the gist table, in order. -/
def gistFields : List String := ["cache_dir", "base_url", "request_timeout_ms", "offline"]

/-- A field of the gist table. -/
def gistField? (g : GistConfig) (name : String) (v : Value) : Option GistConfig :=
  match name with
  | "cache_dir" => (text? v).map fun x => { g with cacheDir := x }
  | "base_url" => (text? v).map fun x => { g with baseUrl := x }
  | "request_timeout_ms" => (count? v).map fun x => { g with timeout := x }
  | "offline" => (flag? v).map fun x => { g with offline := x }
  | _ => none

/-- The field of the log table. -/
def logField? (_ : LogFormat) (name : String) (v : Value) : Option LogFormat :=
  match name with
  | "format" => choice? LogFormat.names v
  | _ => none

/-- A table of the configuration. -/
def field? (c : Config) (name : String) (v : Value) : Option Config :=
  match name with
  | "compiler" => (record? Settings.fieldNames settingsField? {} v).map fun x => { c with settings := x }
  | "gist" => (record? gistFields gistField? {} v).map fun x => { c with gist := x }
  | "log" => (record? ["format"] logField? .text v).map fun x => { c with log := x }
  | _ => none

/-- The configuration in a TOML text. -/
def ofText? (text : String) : Option Config := do
  (← Toml.ofText? text).foldlM (fun c (name, v) => field? c name v) {}

/-! ## Checking -/

/-- Refuses values that cannot be used. -/
def validate (c : Config) : Except ConfigError Unit :=
  if c.gist.cacheDir = "" then .error (.invalidValue "gist.cache_dir" "must not be empty")
  else if Text.trim c.gist.baseUrl = "" then .error (.invalidValue "gist.base_url" "must not be empty")
  else if c.gist.timeout = 0 then .error (.invalidValue "gist.request_timeout_ms" "must be > 0")
  else .ok ()

/-- The configuration in the file at a path, or the default one without a path. -/
def load (read : String → Except FileError String) (path : Option String) : Except ConfigError Config := do
  let config ← match path with
    | none => .ok {}
    | some path =>
      match read path with
      | .error e => .error (.unreadable e)
      | .ok text => (ofText? text).elim (.error .malformed) .ok
  config.validate
  return config

end Config
end AliasLang.Tool
