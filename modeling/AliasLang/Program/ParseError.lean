/-
What the grammar can find missing: the part of the grammar that was being read, what it needed, and what stood there.
-/
import AliasLang.Token.Basic

namespace AliasLang.Program

open Source (Span)

/-- Parts of the grammar. -/
inductive Production where
  | declaration | definition | execute | retrieve | continued | simple | script | call | compiled
deriving DecidableEq, Repr

/-- The name of a part of the grammar. -/
def Production.text : Production → String
  | .declaration => "Declaration"
  | .definition => "Alias"
  | .execute => "ExecuteAction"
  | .retrieve => "RetrieveAction"
  | .continued => "ContinuedAction"
  | .simple => "ExecuteActionSimple"
  | .script => "JSExecAction"
  | .call => "CallAliasAction"
  | .compiled => "GetCompiledAction"

/-- How deep blocks of `get compiled` may nest. -/
def maxNesting : Nat := 64

/-- What the grammar needs. -/
inductive Expected where
  | declaration
  | actionOrEnd
  | simpleAction
  | name
  | string
  | script
  | token (kind : Token.Kind)
  /-- Nothing may follow a store. -/
  | endOfChain
  /-- Fewer blocks around this one. -/
  | lessNesting
deriving DecidableEq, Repr

/-- The wording of what is needed. -/
def Expected.text : Expected → String
  | .declaration => "'entry' or 'alias'"
  | .actionOrEnd => "an action or 'end'"
  | .simpleAction => "'js', 'exec', 'pipe', 'say' or 'call'"
  | .name => "identifier"
  | .string => "string"
  | .script => "an embedded script (```...```)"
  | .token kind => kind.text
  | .endOfChain => "end of chain after 'set'"
  | .lessNesting => s!"at most {maxNesting} nested 'get compiled' blocks"

/-- What stands there instead. -/
inductive Found where
  | token (kind : Token.Kind)
  | deeperNesting
deriving DecidableEq, Repr

/-- The wording of what stands there. -/
def Found.text : Found → String
  | .token kind => kind.text
  | .deeperNesting => "deeper nesting"

/-- The first need that is not met. -/
structure ParseError where
  production : Production
  expected : Expected
  found : Found
  span : Span
deriving DecidableEq, Repr

/-- The wording of an unmet need. -/
def unmet (production expected found : String) : String :=
  s!"in {production}: expected {expected}, found {found}"

/-- The message, with its place in front. -/
def ParseError.message (e : ParseError) : String :=
  e.span.locate (unmet e.production.text e.expected.text e.found.text)

end AliasLang.Program
