/-
Remarks on a script: what is wrong, how bad it is, and where, with the line it concerns. Lines count from one and
columns from zero.
-/

namespace AliasLang.Script

/-- How bad a remark is. -/
inductive Severity where
  | error | warning
deriving DecidableEq, Repr

/-- How a severity is written. -/
def Severity.text : Severity → String
  | .error => "error"
  | .warning => "warning"

/-- A remark on a script. -/
structure Diagnostic where
  line : Nat
  column : Nat
  lineText : String
  message : String
  severity : Severity
deriving DecidableEq, Repr

/-- An error, not a warning. -/
def Diagnostic.isError (d : Diagnostic) : Bool := d.severity = .error

/-- What a transformation of scripts is asked to do. -/
structure Options where
  dropConsole : Bool
  minifyWhitespace : Bool
  /-- Accepted for transformations that rename identifiers; the minifier of this library does not. -/
  minifyIdentifiers : Bool
  minifySyntax : Bool
  treeShake : Bool
deriving DecidableEq, Repr

/-- What the compiler asks for: only identifiers and syntax are left to the settings. -/
def Options.forEmbedding (minify : Bool) : Options :=
  ⟨true, true, minify, minify, true⟩

/-- The transformed code, and the remarks on the script that was given. -/
structure Output where
  code : String
  diagnostics : List Diagnostic
deriving DecidableEq, Repr

end AliasLang.Script
