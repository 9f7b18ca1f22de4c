/-
Programs: entries and aliases, and the actions that an alias consists of. Every part carries the span it was read
from.

An action runs a simple action, optionally on a value retrieved before, and optionally hands the result on along a
chain; or it takes the compiled form of a nested body and hands that on. A chain is a list of links, so an action
without a continuation has the empty chain.
-/
import AliasLang.Token.Selector
import AliasLang.Source.Span

namespace AliasLang.Program

open Source (Span)
open Token (ArgLiteral)

/-- A script that is fetched by its id: `import "ID"`. -/
structure ImportRef where
  id : String
  span : Span
deriving DecidableEq, Repr

/-- A script between fences, as written. Its span starts at the opening fence. -/
structure Fenced where
  raw : String
  span : Span
deriving DecidableEq, Repr

/-- Turns each backslash and backtick into a plain backtick. -/
def unescapeBackticks : List Char → List Char
  | [] => []
  | c :: cs =>
    if c = '\\' && cs.head? = some '`' then
      match cs with
      | [] => ['\\']
      | _ :: rest => '`' :: unescapeBackticks rest
    else c :: unescapeBackticks cs

/-- The script that the text between the fences stands for. -/
def Fenced.unescaped (f : Fenced) : String :=
  String.ofList (unescapeBackticks f.raw.toList)

/-- `js [import "ID"] SCRIPT` -/
structure ScriptAction where
  imported : Option ImportRef
  script : Fenced
  span : Span
deriving DecidableEq, Repr

/-- The two words that start a list of commands. They mean the same. -/
inductive CommandWord where
  | exec | pipe
deriving DecidableEq, Repr

/-- How the word is written. -/
def CommandWord.text : CommandWord → String
  | .exec => "exec"
  | .pipe => "pipe"

/-- `exec "A" | "B"` or `pipe "A" | "B"` -/
structure CommandList where
  word : CommandWord
  commands : List String
  span : Span
deriving DecidableEq, Repr

/-- `call [@USER] NAME` -/
structure Call where
  user : Option String
  target : String
  span : Span
deriving DecidableEq, Repr

/-- One unit of work. -/
inductive Simple where
  | script (action : ScriptAction)
  | commands (list : CommandList)
  /-- `say ["TEXT"]` -/
  | say (literal : Option String) (span : Span)
  | call (call : Call)
deriving DecidableEq, Repr

/-- The span of a unit of work. -/
def Simple.span : Simple → Span
  | .script a => a.span
  | .commands l => l.span
  | .say _ span => span
  | .call c => c.span

/-- What is read before a unit of work runs. -/
inductive Retrieve where
  /-- `get [local] "KEY"` -/
  | key (key : String) (isLocal : Bool) (span : Span)
  /-- `${…}` -/
  | argument (literal : ArgLiteral) (span : Span)
deriving DecidableEq, Repr

/-- `set [temp] [local] "KEY"` -/
structure Store where
  key : String
  /-- The key is deleted again when the alias has run. -/
  isTemp : Bool
  /-- The key lies under the alias's key prefix. -/
  isLocal : Bool
  span : Span
deriving DecidableEq, Repr

/-- What a link of a chain does. -/
inductive Step where
  | store (store : Store)
  | action (action : Simple)
deriving DecidableEq, Repr

/-- One link of a chain. Its span goes on to the end of the chain. -/
structure Link where
  step : Step
  span : Span
deriving DecidableEq, Repr

/-- `[RETRIEVE ->] ACTION [-> CHAIN]` -/
structure Execute where
  retrieve : Option Retrieve
  action : Simple
  chain : List Link
  span : Span
deriving DecidableEq, Repr

/-- An action of a body. -/
inductive Action where
  | execute (execute : Execute)
  /-- `get compiled BODY end [-> CHAIN]`, the body by its actions and its span. -/
  | compiled (actions : List Action) (bodySpan : Span) (chain : List Link) (span : Span)

mutual

/-- Whether two actions are the same, down to the actions of their nested blocks. -/
def Action.decEq : (a b : Action) → Decidable (a = b)
  | .execute e, .execute e' => decidable_of_iff (e = e') (by rw [Action.execute.injEq])
  | .execute _, .compiled .. => .isFalse nofun
  | .compiled .., .execute _ => .isFalse nofun
  | .compiled as bodySpan chain span, .compiled as' bodySpan' chain' span' =>
    have := Action.decEqList as as'
    decidable_of_iff (as = as' ∧ bodySpan = bodySpan' ∧ chain = chain' ∧ span = span') (by rw [Action.compiled.injEq])

/-- Whether two lists of actions are the same. -/
def Action.decEqList : (as bs : List Action) → Decidable (as = bs)
  | [], [] => .isTrue rfl
  | [], _ :: _ => .isFalse nofun
  | _ :: _, [] => .isFalse nofun
  | a :: as, b :: bs =>
    have := Action.decEq a b
    have := Action.decEqList as bs
    decidable_of_iff (a = b ∧ as = bs) (by rw [List.cons.injEq])

end

instance : DecidableEq Action := Action.decEq

/-- The actions of an alias or of a nested block. -/
structure Body where
  actions : List Action
  span : Span
deriving DecidableEq

/-- `alias NAME [prefixed "PREFIX"] BODY end` -/
structure Alias where
  name : String
  /-- What is put before local keys. -/
  keyPrefix : Option String
  body : Body
  span : Span
deriving DecidableEq

/-- `entry NAME` -/
structure Entry where
  name : String
  span : Span
deriving DecidableEq, Repr

/-- A declaration of a file. -/
inductive Declaration where
  | entry (entry : Entry)
  | define (definition : Alias)
deriving DecidableEq

/-- The span of a declaration. -/
def Declaration.span : Declaration → Span
  | .entry e => e.span
  | .define a => a.span

end AliasLang.Program

namespace AliasLang

/-- The declarations of a file, in order. -/
structure Program where
  declarations : List Program.Declaration
deriving DecidableEq

namespace Program

/-- The aliases of a program, in order. -/
def aliases (p : Program) : List Alias :=
  p.declarations.filterMap fun
    | .define a => some a
    | .entry _ => none

/-- The entries of a program, in order. -/
def entries (p : Program) : List Entry :=
  p.declarations.filterMap fun
    | .entry e => some e
    | .define _ => none

end Program
end AliasLang
