/-
All errors of reading and compiling a source text, with their messages and places.
-/
import AliasLang.Gist.Id
import AliasLang.Program.ParseError
import AliasLang.Token.Error

namespace AliasLang

open Source (Span)

/-- Errors in a well-formed program that cannot be compiled. -/
inductive SemanticError where
  | duplicateAlias (name : String) (span : Span)
  | multipleEntrypoints (span : Span)
  | unknownEntrypoint (name : String) (span : Span)
  | missingEntrypoint (count : Nat) (span : Span)
  | emptyBody (span : Span)
  | noCommands (span : Span)
  | argumentNotAllowed (literal : String) (span : Span)
  | invalidImportId (id reason : String) (span : Span)
deriving DecidableEq, Repr

namespace SemanticError

/-- The place of the error. -/
def span : SemanticError → Span
  | .duplicateAlias _ span | .multipleEntrypoints span | .unknownEntrypoint _ span | .missingEntrypoint _ span
  | .emptyBody span | .noCommands span | .argumentNotAllowed _ span | .invalidImportId _ _ span => span

/-- The wording of the error. -/
def text : SemanticError → String
  | .duplicateAlias name _ => s!"duplicate alias definition: {name}"
  | .multipleEntrypoints _ => "only one entrypoint can be specified per file"
  | .unknownEntrypoint name _ => s!"entrypoint '{name}' does not name an alias in this file"
  | .missingEntrypoint count _ =>
    s!"entrypoint can only be omitted if there is exactly one alias (found {count})"
  | .emptyBody _ => "an alias must have at least one action"
  | .noCommands _ => "an alias must be equivalent to at least one command (it does nothing)"
  | .argumentNotAllowed literal _ => s!"argument literal {literal} is not allowed in this context"
  | .invalidImportId id reason _ => s!"invalid import id '{id}': {reason}"

end SemanticError

/-- Failures of what the compiler calls on: fetching a script, and transforming one. -/
inductive CollaboratorError where
  | fetch (id : String) (error : Gist.FetchError) (span : Span)
  /-- An error in a script, at its place in the source. -/
  | script (message : String) (span : Span)
  /-- The transformation did not answer. -/
  | transformFailed (reason : String) (span : Span)
deriving DecidableEq, Repr

namespace CollaboratorError

/-- The place of the error. -/
def span : CollaboratorError → Span
  | .fetch _ _ span | .script _ span | .transformFailed _ span => span

/-- The wording of the error. -/
def text : CollaboratorError → String
  | .fetch id error _ => s!"import '{id}': {error.message}"
  | .script message _ => s!"script error: {message}"
  | .transformFailed reason _ => s!"script transformer failed: {reason}"

end CollaboratorError

/-- Any error of reading or compiling a source text. -/
inductive Error where
  | lex (error : Token.LexError)
  | parse (error : Program.ParseError)
  | semantic (error : SemanticError)
  /-- Temporary keys were left over when an alias was finished. No source text should bring this about. -/
  | unclearedKeys (name : String) (keys : List String)
  | collaborator (error : CollaboratorError)
deriving DecidableEq, Repr

namespace Error

/-- The place of the error, if it has one. -/
def span : Error → Option Span
  | .lex e => some e.span
  | .parse e => some e.span
  | .semantic e => some e.span
  | .unclearedKeys _ _ => none
  | .collaborator e => some e.span

/-- A defect of the compiler, as opposed to an error in its input. -/
def isInternal : Error → Bool
  | .unclearedKeys _ _ => true
  | _ => false

/-- The message, with its place in front if it has one. -/
def message : Error → String
  | .lex e => e.message
  | .parse e => e.message
  | .semantic e => e.span.locate e.text
  | .unclearedKeys name keys =>
    s!"internal compiler defect: alias '{name}' left uncleared temp keys {Text.shownList keys}"
  | .collaborator e => e.span.locate e.text

end Error
end AliasLang
