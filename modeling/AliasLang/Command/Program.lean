/-
Compiling programs: the entry alias, or every alias in order.
-/
import AliasLang.Command.Compile
import AliasLang.Program.Entry
import AliasLang.Program.Source
import AliasLang.Script.Minify

namespace AliasLang.Command

open Program

/-- The result of a check of a program. -/
def checked {α : Type} : Except SemanticError α → Compile α
  | .ok a => return a
  | .error e => throw (.semantic e)

/-- Compiles the entry alias of a program. -/
def compileEntry (co : Collaborators) (settings : Settings) (p : Program) : Compile CompiledAlias := do
  compileAlias co settings (← checked p.selectEntry)

/-- Compiles every alias of a program in order, up to the first failure. -/
def compileAll (co : Collaborators) (settings : Settings) (p : Program) : Compile (List CompiledAlias) := do
  let _ ← checked p.check
  p.aliases.mapM (compileAlias co settings)

/-- The answer of a compilation, and the trace it leaves. -/
def run {α : Type} (c : Compile α) : Except Error α × Trace :=
  (ExceptT.run c).run {}

/-- The minifier of this library as the collaborator that transforms scripts. -/
def minifier (options : Script.Options) (script : String) : Except String Script.Output :=
  .ok (Script.minify options script)

/-- Collaborators that fetch nothing, and minify scripts. -/
def standalone (draw : Nat → String) : Collaborators :=
  ⟨Gist.importsDisabled, minifier, draw⟩

/-- The command for the entry alias of a source text, with default settings and without imports. No marker is drawn
with these settings. -/
def compileSource (source : String) : Except Error String := do
  let p ← Program.parse source
  let compiled ← (run (compileEntry (standalone fun _ => "") {} p)).1
  return compiled.command

end AliasLang.Command
