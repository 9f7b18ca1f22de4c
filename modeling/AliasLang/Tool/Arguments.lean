/-
The arguments of the command-line tool. Options take a value, attached or as the next argument; switches take none; one
argument that is neither names the input. A value that is not attached is only looked at when the next argument is
known to be in order, so an unknown argument right after it is reported first.
-/
import AliasLang.Tool.Config

namespace AliasLang.Tool

/-- What the tool writes. -/
inductive Emit where
  | command | ast | format
deriving DecidableEq, Repr

/-- The choices by their names. -/
def Emit.names : List (String × Emit) := [("command", .command), ("ast", .ast), ("format", .format)]

/-- How a choice is written. -/
def Emit.name : Emit → String
  | .command => "command"
  | .ast => "ast"
  | .format => "format"

/-- What is wrong with the arguments. -/
inductive UsageError where
  | missingInput
  /-- An unknown flag, or a second input. -/
  | unknown
  /-- A value that is no verb or no delimiter mode. -/
  | invalidSetting
  /-- A value that is missing, empty or not among the choices. -/
  | invalidValue
  /-- A flag that was given before. -/
  | repeated
  /-- A value for a switch. -/
  | unneededValue
deriving DecidableEq, Repr

/-- The message of an error. -/
def UsageError.message : UsageError → String
  | .missingInput => "error: the input file is missing"
  | .unknown => "error: there is an unknown argument"
  | .invalidSetting => "error: there is no such verb or delimiter mode"
  | .invalidValue => "error: a value is missing, empty or not among the choices"
  | .repeated => "error: a flag is given twice"
  | .unneededValue => "error: a value is given to a switch"

/-- Why the arguments do not lead to a run. -/
inductive Halt where
  | usage (error : UsageError)
  | version
  | help
deriving DecidableEq, Repr

/-- The arguments of a run. -/
structure Arguments where
  input : String
  config : Option String
  output : Option String
  all : Bool
  emit : Emit
  delimiter : Option DelimiterMode
  verb : Option Verb
  noMinify : Bool
  noErrorInfo : Bool
  offline : Bool
  cacheDir : Option String
deriving DecidableEq, Repr

namespace Arguments

/-- Flags without a value. -/
inductive Switch where
  | all | noMinify | noErrorInfo | offline
deriving DecidableEq, Repr

/-- What takes a value: the options, and the input. -/
inductive Slot where
  | input | config | output | emit | delimiter | verb | cacheDir
deriving DecidableEq, Repr

/-- What a flag is. -/
inductive Flag where
  | switch (switch : Switch)
  | option (slot : Slot)
  /-- Ends the run at once. -/
  | halt (halt : Halt)
deriving DecidableEq, Repr

/-- The flags after two hyphens. -/
def longFlags : List (String × Flag) :=
  [("config", .option .config), ("all", .switch .all), ("output", .option .output), ("emit", .option .emit),
   ("delimiter", .option .delimiter), ("verb", .option .verb), ("no-minify", .switch .noMinify),
   ("no-error-info", .switch .noErrorInfo), ("offline", .switch .offline), ("cache-dir", .option .cacheDir),
   ("help", .halt .help), ("version", .halt .version)]

/-- The flags after one hyphen. -/
def shortFlags : List (Char × Flag) :=
  [('c', .option .config), ('o', .option .output), ('h', .halt .help), ('V', .halt .version)]

/-- What has been given so far. -/
structure Draft where
  values : List (Slot × String) := []
  switches : List Switch := []
  /-- An option or input that is not noted yet, with its value if that has come. -/
  pending : Option (Slot × Option String) := none
  /-- Two hyphens have come: the rest are inputs. -/
  onlyInputs : Bool := false

/-- An answer, or the reason to stop. -/
abbrev Step (α : Type) := Except Halt α

/-- Checks the value for a slot. -/
def checkValue (slot : Slot) (value : String) : Step Unit :=
  match slot with
  | .input | .config | .output | .cacheDir => if value = "" then .error (.usage .invalidValue) else .ok ()
  | .emit => if (Emit.names.lookup value).isSome then .ok () else .error (.usage .invalidValue)
  | .delimiter => if (DelimiterMode.names.lookup value).isSome then .ok () else .error (.usage .invalidSetting)
  | .verb => if (Verb.names.lookup value).isSome then .ok () else .error (.usage .invalidSetting)

namespace Draft

/-- Whether a slot has its value. -/
def has (d : Draft) (slot : Slot) : Bool := (d.values.lookup slot).isSome

/-- Notes the value for a slot. -/
def note (d : Draft) (slot : Slot) (value : String) : Step Draft := do
  if d.has slot then .error (.usage .repeated)
  checkValue slot value
  return { d with values := d.values ++ [(slot, value)] }

/-- Notes what is pending. -/
def settle (d : Draft) : Step Draft :=
  match d.pending with
  | none => .ok d
  | some (_, none) => .error (.usage .invalidValue)
  | some (slot, some value) => { d with pending := none }.note slot value

/-- An input. -/
def addInput (d : Draft) (text : String) : Step Draft :=
  if d.has .input || d.pending.any (·.1 = .input) then .error (.usage .unknown)
  else do return { ← d.settle with pending := some (.input, some text) }

/-- A flag, with the value attached to it if there is one. -/
def addFlag (d : Draft) (attached : Option String) : Flag → Step Draft
  | .option slot => do
    let d ← d.settle
    match attached with
    | some value => d.note slot value
    | none => return { d with pending := some (slot, none) }
  | .switch s => do
    if attached.isSome then .error (.usage .unneededValue)
    let d ← d.settle
    if d.switches.contains s then .error (.usage .repeated)
    return { d with switches := d.switches ++ [s] }
  | .halt h => do
    if attached.isSome then .error (.usage .unneededValue)
    let _ ← d.settle
    .error h

/-- A flag after two hyphens. -/
def addLong (d : Draft) (body : List Char) : Step Draft :=
  let (name, attached) := match Text.splitOnce? ['='] body with
    | some (name, value) => (name, some (String.ofList value))
    | none => (body, none)
  match longFlags.lookup (String.ofList name) with
  | some flag => d.addFlag attached flag
  | none => .error (.usage .unknown)

/-- A flag after one hyphen. What follows its letter is its value, and may start with an equals sign. A letter that takes
no value ends the run, so that nothing after it counts. -/
def addShort (d : Draft) (letter : Char) (rest : List Char) : Step Draft :=
  match shortFlags.lookup letter with
  | none => .error (.usage .unknown)
  | some (.option slot) =>
    let value := if rest.head? = some '=' then rest.tail else rest
    d.addFlag (if rest.isEmpty then none else some (String.ofList value)) (.option slot)
  | some flag => d.addFlag none flag

/-- The next argument. -/
def add (d : Draft) (argument : String) : Step Draft :=
  if d.onlyInputs then d.addInput argument
  else match argument.toList with
    | ['-', '-'] => .ok { d with onlyInputs := true }
    | '-' :: '-' :: body => d.addLong body
    | '-' :: letter :: rest => d.addShort letter rest
    | _ =>
      match d.pending with
      | some (slot, none) => .ok { d with pending := some (slot, some argument) }
      | _ => d.addInput argument

/-- The arguments of a run. The path of the configuration can also come from the environment. -/
def finish (d : Draft) (environment : Option String) : Step Arguments := do
  let d ← d.settle
  let d ← match environment with
    | some path => if d.has .config then .ok d else d.note .config path
    | none => .ok d
  match d.values.lookup .input with
  | none => .error (.usage .missingInput)
  | some input =>
    return {
      input
      config := d.values.lookup .config
      output := d.values.lookup .output
      all := d.switches.contains .all
      emit := ((d.values.lookup .emit).bind fun name => Emit.names.lookup name).getD .command
      delimiter := (d.values.lookup .delimiter).bind fun name => DelimiterMode.names.lookup name
      verb := (d.values.lookup .verb).bind fun name => Verb.names.lookup name
      noMinify := d.switches.contains .noMinify
      noErrorInfo := d.switches.contains .noErrorInfo
      offline := d.switches.contains .offline
      cacheDir := d.values.lookup .cacheDir }

end Draft

/-- The arguments of a run, from the words on the command line and the path in the environment. -/
def ofWords (environment : Option String) (words : List String) : Step Arguments := do
  (← words.foldlM Draft.add {}).finish environment

/-- Puts what the arguments say over a configuration. -/
def apply (a : Arguments) (c : Config) : Config where
  settings := {
    verb := a.verb.getD c.settings.verb
    delimiter := a.delimiter.getD c.settings.delimiter
    errorInfo := c.settings.errorInfo && !a.noErrorInfo
    minifyScript := c.settings.minifyScript && !a.noMinify }
  gist := { c.gist with
    cacheDir := a.cacheDir.getD c.gist.cacheDir
    offline := c.gist.offline || a.offline }
  log := c.log

end Arguments
end AliasLang.Tool
