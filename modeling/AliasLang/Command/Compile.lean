/-
The compiler. Each part of a program compiles to a fragment; a body joins the fragments of its actions, and the body
of an alias also deletes the temporary keys that are left over at its end. A nested body becomes a pipeline that
stands as a literal in a script command.

Fetching and transforming scripts and drawing markers is done by collaborators. What was asked of them is kept in a
trace, also when the compilation fails.
-/
import AliasLang.Command.Fragment
import AliasLang.Command.Pipeline
import AliasLang.Command.Quoting
import AliasLang.Command.Scope
import AliasLang.Error
import AliasLang.Script.Embed

namespace AliasLang.Command

open Program

/-! ## Collaborators -/

/-- What the compiler calls on. -/
structure Collaborators where
  /-- The script with this id. -/
  fetch : Gist.Id → Except Gist.FetchError String
  /-- The transformed script, or why there is none. -/
  transform : Script.Options → String → Except String Script.Output
  /-- The marker drawn when so many were drawn before. -/
  draw : Nat → String

/-- What has been asked of the collaborators, in order. -/
structure Trace where
  fetched : List Gist.Id := []
  transformed : List (String × Script.Options) := []
  drawn : Nat := 0

/-- A compilation: an error or a result, and the trace in both cases. -/
abbrev Compile (α : Type) := ExceptT Error (StateM Trace) α

/-- Fetches a script. -/
def fetch (co : Collaborators) (id : Gist.Id) : Compile (Except Gist.FetchError String) := do
  modify fun t => { t with fetched := t.fetched ++ [id] }
  return co.fetch id

/-- Transforms a script. -/
def transform (co : Collaborators) (options : Script.Options) (script : String) :
    Compile (Except String Script.Output) := do
  modify fun t => { t with transformed := t.transformed ++ [(script, options)] }
  return co.transform options script

/-- Draws a marker. -/
def draw (co : Collaborators) : Compile String := do
  let t ← get
  set { t with drawn := t.drawn + 1 }
  return co.draw t.drawn

/-- The text for some commands; a marker is drawn if one is needed. -/
def assembled (co : Collaborators) (scope : Scope) (commands : List String) : Compile String := do
  match pipelined? scope.forcePipe commands with
  | none => return commands.headD ""
  | some piped =>
    let drawn ← if scope.delimiter = .randomized then draw co else pure ""
    return pipeline (markerText scope.delimiter drawn piped) piped

/-! ## Script commands -/

/-- A command that runs the given code. -/
def scriptCommand (scope : Scope) (code : String) : String :=
  "js " ++ (if scope.errorInfo then "errorInfo:true " else "") ++ "function:\"" ++ code ++ "\""

/-- A key as a literal inside a parameter. -/
def keyLiteral (key : String) : String :=
  "\\\"" ++ Quoting.key key ++ "\\\""

/-- Reads a key. -/
def retrieveCommand (scope : Scope) (key : String) : String :=
  scriptCommand scope ("customData.get(" ++ keyLiteral key ++ ")")

/-- Stores the arguments under a key. -/
def storeCommand (scope : Scope) (key : String) : String :=
  scriptCommand scope ("customData.set(" ++ keyLiteral key ++ ", args.join(' '))")

/-- Gives the text of a pipeline. -/
def literalCommand (scope : Scope) (embedded : String) : String :=
  scriptCommand scope (" '" ++ embedded ++ "' ")

/-- Stores the text of a pipeline under a key. -/
def storeLiteralCommand (scope : Scope) (key embedded : String) : String :=
  scriptCommand scope (" customData.set(" ++ keyLiteral key ++ ",'" ++ embedded ++ "') ")

/-- Deletes keys, and hands the arguments on. -/
def dischargeCommand (scope : Scope) (keys : List String) : String :=
  let deletions := keys.map fun key => "customData.set(" ++ keyLiteral key ++ ",undefined);"
  scriptCommand scope (String.join deletions ++ "(args||[]).join(' ')")

/-! ## Scripts -/

/-- The imported script of an action, ended by a line break; empty if it imports none. -/
def importedText (co : Collaborators) (a : ScriptAction) : Compile String := do
  match a.imported with
  | none => return ""
  | some i =>
    match Gist.Id.ofText i.id with
    | .error fault => throw (.semantic (.invalidImportId i.id fault.reason i.span))
    | .ok id =>
      match ← fetch co id with
      | .error e => throw (.collaborator (.fetch i.id e a.span))
      | .ok content => return Script.terminated content

/-- The place in the source of a remark on a script. -/
def remarkSpan (a : ScriptAction) (injected : Nat) (d : Script.Diagnostic) : Source.Span :=
  Script.remap a.script injected d.line d.column

/-- A script action. The first error among the remarks stops the compilation; the others become warnings. -/
def compileScript (co : Collaborators) (scope : Scope) (a : ScriptAction) : Compile Fragment := do
  let imported ← importedText co a
  let script := Script.preamble scope.keyPrefix ++ imported ++ a.script.unescaped
  let injected := Script.preambleLines + Script.lineBreaks imported
  match ← transform co (Script.Options.forEmbedding scope.minifyScript) script with
  | .error reason => throw (.collaborator (.transformFailed reason a.span))
  | .ok output =>
    match output.diagnostics.find? (·.isError) with
    | some d => throw (.collaborator (.script d.message (remarkSpan a injected d)))
    | none =>
      let warnings := output.diagnostics.map fun d => ⟨d.message, remarkSpan a injected d⟩
      let code := "(()=>\x7b" ++ output.code ++ "\x7d)();"
      return ⟨[scriptCommand scope (Quoting.parameter code)], .empty, warnings⟩

/-! ## Actions -/

/-- A simple action. Saying nothing gives no command. -/
def compileSimple (co : Collaborators) (scope : Scope) : Simple → Compile Fragment
  | .script a => compileScript co scope a
  | .commands l => return .ofCommands l.commands
  | .say (some text) _ => return .command ("abb say " ++ text)
  | .say none _ => return .empty
  | .call c =>
    match c.user with
    | some user => return .command s!"alias try @{user} {c.target}"
    | none => return .command s!"$ {c.target}"

/-- A retrieval. -/
def compileRetrieve (scope : Scope) : Retrieve → Compile Fragment
  | .key key isLocal _ => return .command (retrieveCommand scope (scope.resolveKey key isLocal))
  | .argument literal span =>
    if scope.disallowArguments then throw (.semantic (.argumentNotAllowed literal.raw span))
    else return .command ("abb say " ++ literal.raw)

/-- Notes the key of a store if it is temporary. -/
def register (scope : Scope) (store : Store) (f : Fragment) : Fragment :=
  if store.isTemp then f.addKey (scope.resolveKey store.key store.isLocal) else f

/-- A step of a chain. -/
def compileStep (co : Collaborators) (scope : Scope) : Step → Compile Fragment
  | .store s =>
    return (register scope s .empty).push (storeCommand scope (scope.resolveKey s.key s.isLocal))
  | .action a => compileSimple co scope a

/-- The links of a chain. -/
def compileChain (co : Collaborators) (scope : Scope) : List Link → Compile Fragment
  | [] => return .empty
  | l :: rest => do
    let first ← compileStep co scope l.step
    return first ++ (← compileChain co scope rest)

/-- An action that runs something. -/
def compileExecute (co : Collaborators) (scope : Scope) (e : Execute) : Compile Fragment := do
  let retrieved ← match e.retrieve with
    | some r => compileRetrieve scope r
    | none => pure .empty
  let action ← compileSimple co scope e.action
  return retrieved ++ action ++ (← compileChain co scope e.chain)

/-- Deletes the temporary keys, unless they are to be handed on. -/
def discharge (scope : Scope) (f : Fragment) : Fragment :=
  if scope.keepTempKeys || f.tempKeys.isEmpty then f
  else ⟨f.commands ++ [dischargeCommand scope f.tempKeys.toList], .empty, f.warnings⟩

/-- A body, from the fragments of its actions. -/
def compileBody (scope : Scope) (span : Source.Span) (fragments : List Fragment) : Compile Fragment := do
  let joined := Fragment.joinAll fragments
  if joined.isEmpty then throw (.semantic (.noCommands span))
  return discharge scope joined

/-- The fragment of a compiled pipeline with the keys and warnings of the nested body, and the links that are still to
be compiled. A store right after the body stores the text of the pipeline. -/
def embedPipeline (scope : Scope) (inner : Fragment) (embedded : String) : List Link → Fragment × List Link
  | ⟨.store s, _⟩ :: rest =>
    let key := scope.resolveKey s.key s.isLocal
    ((register scope s ⟨[], inner.tempKeys, inner.warnings⟩).push (storeLiteralCommand scope key embedded), rest)
  | links => (⟨[literalCommand scope embedded], inner.tempKeys, inner.warnings⟩, links)

mutual

/-- An action. -/
def compileAction (co : Collaborators) (scope : Scope) : Action → Compile Fragment
  | .execute e => compileExecute co scope e
  | .compiled actions bodySpan chain _ => do
    if actions.isEmpty then throw (.semantic (.emptyBody bodySpan))
    let inner ← compileBody scope.nested bodySpan (← compileActions co scope.nested actions)
    let pipeline ← assembled co scope.nested inner.commands
    let (fragment, links) := embedPipeline scope inner (Quoting.embedded pipeline) chain
    return fragment ++ (← compileChain co scope links)

/-- The actions of a body, one by one. -/
def compileActions (co : Collaborators) (scope : Scope) : List Action → Compile (List Fragment)
  | [] => return []
  | a :: rest => do
    let first ← compileAction co scope a
    return first :: (← compileActions co scope rest)

end

/-- The body of an alias. -/
def compileRoot (co : Collaborators) (scope : Scope) (body : Body) : Compile Fragment := do
  if body.actions.isEmpty then throw (.semantic (.emptyBody body.span))
  compileBody scope body.span (← compileActions co scope body.actions)

/-! ## Aliases and programs -/

/-- A compiled alias. -/
structure CompiledAlias where
  name : String
  /-- The command that defines the alias. -/
  command : String
  warnings : List Warning
deriving DecidableEq, Repr

/-- Finishes an alias from the fragment of its body, in which no temporary key may be left. -/
def finishAlias (co : Collaborators) (settings : Settings) (scope : Scope) (name : String) (f : Fragment) :
    Compile CompiledAlias := do
  if !f.tempKeys.isEmpty then throw (.unclearedKeys name f.tempKeys.toList)
  let command ← assembled co scope f.commands
  return ⟨name, s!"$alias {settings.verb.text} {name} {command}", f.warnings⟩

/-- Compiles an alias. -/
def compileAlias (co : Collaborators) (settings : Settings) (a : Alias) : Compile CompiledAlias := do
  let scope := Scope.ofAlias a settings
  finishAlias co settings scope a.name (← compileRoot co scope a.body)

end AliasLang.Command
