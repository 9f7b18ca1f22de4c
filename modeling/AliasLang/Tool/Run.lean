/-
A run of the command-line tool. Everything up to the result is computed from the arguments and the files that can be
read; the only thing that a run changes is the output file, at its very end.
-/
import AliasLang.Command.Program
import AliasLang.Gist.Cache
import AliasLang.Json.Printer
import AliasLang.Program.Layout
import AliasLang.Program.Record
import AliasLang.Program.Scripts
import AliasLang.Tool.Arguments

namespace AliasLang.Tool

/-- The name and version of the tool. -/
def versionText : String := "adlc 0.3.0"

/-- How the tool is used. -/
def usageText : String := "Usage: adlc [OPTIONS] <INPUT>"

/-- Why a run fails. -/
inductive Failure where
  | config (error : ConfigError)
  | unreadable (path : String) (error : FileError)
  /-- An error in the source, which was read from this path. -/
  | source (path : String) (error : Error)
  | unwritable (error : FileError)

/-- The message of a failure. -/
def Failure.message : Failure → String
  | .config e => e.message
  | .unreadable path e => s!"{path}: {e.message}"
  | .source path e => s!"{path}:{e.message}"
  | .unwritable e => s!"IO error: {e.message}"

/-- The result of a run, before it is written. -/
structure Emitted where
  text : String
  warnings : List Command.Warning

/-- What a run needs from outside: texts by their paths, downloaded gists, and drawn markers. -/
structure Surroundings where
  read : String → Except FileError String
  download : Gist.Id → Except Gist.FetchError String
  draw : Nat → String

/-- The answer when nothing can be downloaded. -/
def noDownload (id : Gist.Id) : Except Gist.FetchError String :=
  .error (.remote s!"error fetching gist {id.text}: downloads are not available")

/-- The configuration of a run. It is checked before and after the arguments are put over it. -/
def configure (read : String → Except FileError String) (args : Arguments) : Except Failure Config := do
  let loaded ← (Config.load read args.config).mapError Failure.config
  let config := args.apply loaded
  config.validate.mapError Failure.config
  return config

/-- Fetching and transforming scripts in a run. -/
def collaborators (s : Surroundings) (config : Config) : Command.Collaborators where
  fetch := Gist.fetch s.read s.download config.gist.cacheDir config.gist.offline
  transform := Command.minifier
  draw := s.draw

/-- The compiled aliases of a source. -/
def compileText (s : Surroundings) (args : Arguments) (config : Config) (source : String) :
    Except Error (List Command.CompiledAlias) := do
  let program ← Program.parse source
  let co := collaborators s config
  if args.all then (Command.run (Command.compileAll co config.settings program)).1
  else return [← (Command.run (Command.compileEntry co config.settings program)).1]

/-- What is emitted for a source. -/
def emit (s : Surroundings) (args : Arguments) (config : Config) (source : String) : Except Error Emitted :=
  match args.emit with
  | .ast => do return ⟨(← Program.parse source).toRecord.pretty, []⟩
  | .format => do return ⟨← Program.format source, []⟩
  | .command => do
    let aliases ← compileText s args config source
    return ⟨"\n".intercalate (aliases.map (·.command)), aliases.flatMap (·.warnings)⟩

/-- Everything up to the result of a run. -/
def prepare (s : Surroundings) (args : Arguments) : Except Failure Emitted := do
  let config ← configure s.read args
  let source ← (s.read args.input).mapError (Failure.unreadable args.input)
  (emit s args config source).mapError (Failure.source args.input)

/-- The paths that a run reads, as far as what can be read already tells: the configuration, then the source, then the
cached gists that it imports. -/
def inputPaths (read : String → Except FileError String) (args : Arguments) : List String :=
  args.config.toList ++
    match configure read args with
    | .error _ => []
    | .ok config => args.input ::
      match (read args.input).toOption.bind fun source => (Program.parse source).toOption with
      | none => []
      | some program => program.imports.map fun i => Gist.joinPath config.gist.cacheDir i.id

/-- What a run shows. -/
structure Outcome where
  exit : Nat
  stdout : String
  stderr : String
deriving DecidableEq, Repr

/-- A text as a line of its own. -/
def asLine (text : String) : String := text ++ "\n"

/-- What is shown when there is no run. -/
def Halt.outcome : Halt → Outcome
  | .usage e => ⟨2, "", asLine e.message ++ asLine usageText⟩
  | .version => ⟨0, asLine versionText, ""⟩
  | .help => ⟨0, asLine usageText, ""⟩

/-- The warnings of a run, each with the path of the source. -/
def warningLines (args : Arguments) (e : Emitted) : String :=
  String.join (e.warnings.map fun w => asLine s!"{args.input}:{w.text}")

/-! ## Reading and writing -/

/-- Where a run reads and writes: the files of the system, or some that are given. -/
structure System (m : Type → Type) where
  read : String → m (Except FileError String)
  write : String → String → m (Except FileError Unit)

/-- What was read, by the paths. -/
abbrev Known := List (String × Except FileError String)

/-- Looks a path up among those read before. -/
def lookUp (known : Known) (path : String) : Except FileError String :=
  (known.lookup path).getD (.error .notFound)

section
variable {m : Type → Type} [Monad m] (system : System m)

/-- Reads what a run needs as far as that is known. -/
def readInputs (args : Arguments) (known : Known) : m Known := do
  let missing := (inputPaths (lookUp known) args).filter fun path => (known.lookup path).isNone
  let contents ← missing.mapM fun path => do return (path, ← system.read path)
  return known ++ contents

/-- Ends a run: shows its result, or writes it where the arguments say. -/
def deliver (args : Arguments) : Except Failure Emitted → m Outcome
  | .error failure => return ⟨1, "", asLine failure.message⟩
  | .ok e => do
    let warnings := warningLines args e
    match args.output with
    | none => return ⟨0, asLine e.text, warnings⟩
    | some path =>
      match ← system.write path (asLine e.text) with
      | .ok _ => return ⟨0, "", warnings⟩
      | .error error => return ⟨1, "", warnings ++ asLine (Failure.unwritable error).message⟩

/-- A run. What it reads becomes known in three rounds: the configuration, the source, and what the source imports. -/
def run (draw : Nat → String) (args : Arguments) : m Outcome := do
  let known ← readInputs system args (← readInputs system args (← readInputs system args []))
  deliver system args (prepare ⟨lookUp known, noDownload, draw⟩ args)

/-- A run from the words on the command line and the path of the configuration in the environment. -/
def runWords (draw : Nat → String) (environment : Option String) (words : List String) : m Outcome :=
  match Arguments.ofWords environment words with
  | .error halt => return halt.outcome
  | .ok args => run system draw args

end

/-! ## Runs over given files -/

/-- Some files as the place where a run reads and writes. -/
def filesSystem (home : List String) : System (StateM (Files home)) where
  read path := return (← get).readText path
  write path text := do
    match (← get).write path text.toUTF8 with
    | .ok after =>
      set after
      return .ok ()
    | .error error => return .error error

/-- A run over some files: what it shows, and the files after it. -/
def invoke {home : List String} (files : Files home) (draw : Nat → String) (environment : Option String)
    (words : List String) : Outcome × Files home :=
  (runWords (filesSystem home) draw environment words).run files

end AliasLang.Tool
