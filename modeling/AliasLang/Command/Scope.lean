/-
Scopes: what the compilation of a part depends on besides the part itself. The body of an alias has the scope of its
settings; the body of a nested block has a scope derived from the one around it.
-/
import AliasLang.Program.Basic
import AliasLang.Settings

namespace AliasLang.Command

/-- Options in force for a part of a program. -/
structure Scope where
  name : String
  /-- What is put before local keys. -/
  keyPrefix : String
  delimiter : DelimiterMode
  /-- A single command becomes a pipeline, too. -/
  forcePipe : Bool
  errorInfo : Bool
  /-- Argument literals are refused. -/
  disallowArguments : Bool
  minifyScript : Bool
  /-- Temporary keys are handed on and not deleted here. -/
  keepTempKeys : Bool
deriving DecidableEq, Repr

namespace Scope

/-- The scope of the body of an alias. -/
def ofAlias (a : Program.Alias) (settings : Settings) : Scope where
  name := a.name
  keyPrefix := a.keyPrefix.getD ""
  delimiter := settings.delimiter
  forcePipe := false
  errorInfo := settings.errorInfo
  disallowArguments := false
  minifyScript := settings.minifyScript
  keepTempKeys := false

/-- The scope of a nested body. A bare bar cannot stand inside a pipeline with bare bars, so below the fixed mode
markers are drawn. -/
def nested (s : Scope) : Scope :=
  { s with
    delimiter := if s.delimiter = .fixed then .randomized else s.delimiter
    forcePipe := true
    disallowArguments := true
    keepTempKeys := true }

/-- A key as the script commands know it. -/
def resolveKey (s : Scope) (key : String) (isLocal : Bool) : String :=
  if isLocal then s.keyPrefix ++ key else key

end Scope
end AliasLang.Command
