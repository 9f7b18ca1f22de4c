/-
The parser as a walk along a list of tokens. A cursor is a position among the tokens, together with the number of blocks
that are open there. A walk reads the token at the cursor, moves the cursor, and counts blocks. It follows the
productions of the grammar as the parsers on streams do, but there the next token always exists and a loop ends because
a list gets shorter, and here neither goes without saying: a walk has no answer if it reads beyond the last token, or if
its calls nest deeper than it is allowed.
-/
import AliasLang.Program.Parse

namespace AliasLang.Program

open Source (Span)
open Token (Kind Keyword)

/-- A position among some tokens, and the number of blocks that are open there. -/
structure Cursor where
  tokens : List Token
  pos : Nat
  depth : Nat

namespace Cursor

/-- In front of all tokens. They get an end of input unless the last one is one. -/
def ofTokens (tokens : List Token) : Cursor :=
  if tokens.getLast?.map Token.kind = some .endOfInput then ⟨tokens, 0, 0⟩
  else ⟨tokens ++ [⟨.endOfInput, (tokens.getLast?.map Token.span).getD .origin⟩], 0, 0⟩

/-- The position of the first end of input. -/
def stop (c : Cursor) : Nat := c.tokens.findIdx (·.kind = .endOfInput)

end Cursor

/-- A walk gives a value or an error, and the cursor where it ends in both cases. -/
abbrev Walk (α : Type) := ExceptT ParseError (StateT Cursor Option) α

namespace Walk

/-- The answer of a walk and the cursor where it ends, if it does. -/
def runFrom {α : Type} (w : Walk α) (c : Cursor) : Option (Except ParseError α × Cursor) := (ExceptT.run w).run c

/-- Has no answer. -/
def stuck {α : Type} : Walk α := ExceptT.mk fun _ => none

/-- A walk inside of a block. The count of open blocks goes back before an error goes on. -/
def nested {α : Type} (w : Walk α) : Walk α := do
  modify fun c => { c with depth := c.depth + 1 }
  let answer ← ExceptT.lift w.run
  modify fun c => { c with depth := c.depth - 1 }
  liftExcept answer

/-! ## Single tokens -/

/-- The token at the cursor. -/
def current : Walk Token := ExceptT.mk fun c => c.tokens[c.pos]?.map fun t => (.ok t, c)

/-- The span of the token before the cursor, if there is one. -/
def previousSpan : Walk (Option Span) := ExceptT.mk fun c =>
  match c.pos with
  | 0 => some (.ok none, c)
  | i + 1 => c.tokens[i]?.map fun t => (.ok (some t.span), c)

/-- The kind of the token after the next one. -/
def secondKind : Walk (Option Kind) := do
  let c ← get
  return c.tokens[c.pos + 1]?.map Token.kind

/-- Moves by one token, but not beyond the end of input. -/
def advance : Walk Unit := do
  let t ← current
  if t.kind = .endOfInput then return ()
  else modify fun c => { c with pos := c.pos + 1 }

/-- Fails because of the token at the cursor. -/
def unmet {α : Type} (production : Production) (expected : Expected) : Walk α := do
  let t ← current
  throw ⟨production, expected, .token t.kind, t.span⟩

/-- Takes the token at the cursor if `f` accepts its kind. -/
def accept {α : Type} (f : Kind → Option α) (production : Production) (expected : Expected) : Walk (α × Span) := do
  let t ← current
  match f t.kind with
  | none => unmet production expected
  | some a =>
    advance
    return (a, t.span)

/-- Takes the token at the cursor if `f` accepts its kind, and no token otherwise. -/
def acceptOptional {α : Type} (f : Kind → Option α) : Walk (Option (α × Span)) := do
  let t ← current
  match f t.kind with
  | none => return none
  | some a =>
    advance
    return some (a, t.span)

def acceptKind (kind : Kind) (production : Production) : Walk (Unit × Span) :=
  accept (exactly kind) production (.token kind)

def acceptFlag (keyword : Keyword) : Walk Bool := do
  let found ← acceptOptional (exactly (.keyword keyword))
  return found.isSome

def acceptString (production : Production) : Walk (String × Span) := accept stringValue? production .string

def acceptName (production : Production) : Walk (String × Span) := accept nameText? production .name

/-! ## Simple actions -/

def importRef (hasImport : Bool) : Walk (Option ImportRef) := do
  if hasImport then
    let (id, idSpan) ← acceptString .script
    return some ⟨id, idSpan⟩
  else return none

def scriptRest (span : Span) : Walk Simple := do
  let hasImport ← acceptFlag .import_
  let imported ← importRef hasImport
  let (raw, scriptSpan) ← accept scriptText? .script .script
  return .script ⟨imported, ⟨raw, scriptSpan⟩, span.join scriptSpan⟩

/-- The commands after bars. The calls may nest `calls` deep. -/
def bars : (calls : Nat) → Walk (List (String × Span))
  | 0 => stuck
  | calls + 1 => do
    match ← acceptOptional (exactly .bar) with
    | none => return []
    | some _ =>
      let command ← acceptString .simple
      let further ← bars calls
      return command :: further

def commandsRest (calls : Nat) (word : CommandWord) (span : Span) : Walk Simple := do
  let (first, firstSpan) ← acceptString .simple
  let further ← bars calls
  return .commands ⟨word, first :: further.map Prod.fst, span.join ((further.getLast?.map Prod.snd).getD firstSpan)⟩

def sayRest (span : Span) : Walk Simple := do
  let literal ← acceptOptional stringValue?
  return .say (literal.map Prod.fst) (span.join ((literal.map Prod.snd).getD span))

def callRest (span : Span) : Walk Simple := do
  let user ← acceptOptional userName?
  let (target, stop) ← acceptName .call
  return .call ⟨user.map Prod.fst, target, span.join stop⟩

def simple (calls : Nat) (production : Production) : Walk Simple := do
  let (word, span) ← accept simpleWord? production .simpleAction
  match word with
  | .script => scriptRest span
  | .commands word => commandsRest calls word span
  | .say => sayRest span
  | .call => callRest span

/-! ## Chains -/

def storeRest (span : Span) : Walk Link := do
  let isTemp ← acceptFlag .temp
  let isLocal ← acceptFlag .local_
  let (key, stop) ← acceptString .continued
  let t ← current
  if t.kind = .arrow then unmet .continued .endOfChain
  else
    let last ← previousSpan
    return ⟨.store ⟨key, isTemp, isLocal, span.join stop⟩, span.join (last.getD span)⟩

/-- A step of a chain, and the links after it, which `continuation` reads. -/
def continued (continuation : Walk (List Link)) (calls : Nat) : Walk (List Link) := do
  let t ← current
  if t.kind = .keyword .set then
    let _ ← acceptKind (.keyword .set) .continued
    let link ← storeRest t.span
    return [link]
  else
    let action ← simple calls .continued
    let last ← previousSpan
    let rest ← continuation
    return actionLink t.span (last.getD t.span) action rest :: rest

/-- The links after an action: none, or those after an arrow. -/
def continuation : (calls : Nat) → Walk (List Link)
  | 0 => stuck
  | calls + 1 => do
    match ← acceptOptional (exactly .arrow) with
    | none => return []
    | some _ => continued (continuation calls) (calls + 1)

/-! ## Actions and bodies -/

def arrowAfter (retrieve : Retrieve) : Walk (Option Retrieve) := do
  let _ ← acceptKind .arrow .execute
  return some retrieve

def retrieval : Walk (Option Retrieve) := do
  match ← acceptOptional argumentLiteral? with
  | some (literal, span) => arrowAfter (.argument literal span)
  | none =>
    match ← acceptOptional (exactly (.keyword .get)) with
    | none => return none
    | some (_, span) =>
      let isLocal ← acceptFlag .local_
      let (key, stop) ← acceptString .retrieve
      arrowAfter (.key key isLocal (span.join stop))

def execute (calls : Nat) : Walk Action := do
  let t ← current
  let retrieve ← retrieval
  let action ← simple calls .execute
  let links ← continuation calls
  return .execute ⟨retrieve, action, links, t.span.join (chainEnd action.span links)⟩

/-- The actions up to the next `end`, which is not taken, each read by `action`. -/
def actions (action : Walk Action) (production : Production) : (calls : Nat) → Walk (List Action)
  | 0 => stuck
  | calls + 1 => do
    let t ← current
    if t.kind = .keyword .end_ then return []
    else if !startsAction t.kind then unmet production .actionOrEnd
    else
      let first ← action
      let rest ← actions action production calls
      return first :: rest

def body (action : Walk Action) (production : Production) (calls : Nat) : Walk Body := do
  let t ← current
  let actions ← actions action production calls
  let last ← previousSpan
  return ⟨actions, t.span.join (if actions.isEmpty then t.span else last.getD t.span)⟩

def block (action : Walk Action) (calls : Nat) : Walk Action := do
  let (_, span) ← acceptKind (.keyword .get) .compiled
  let _ ← acceptKind (.keyword .compiled) .compiled
  let c ← get
  if maxNesting ≤ c.depth then throw ⟨.compiled, .lessNesting, .deeperNesting, span⟩
  else
    let body ← nested (body action .compiled calls)
    let (_, stop) ← acceptKind (.keyword .end_) .compiled
    let links ← continuation calls
    return .compiled body.actions body.span links (span.join (chainEnd stop links))

/-- An action. A block is told by its first two words. -/
def action : (calls : Nat) → Walk Action
  | 0 => stuck
  | calls + 1 => do
    let t ← current
    let second ← secondKind
    if t.kind = .keyword .get ∧ second = some (.keyword .compiled) then block (action calls) (calls + 1)
    else execute (calls + 1)

/-! ## Declarations -/

def prefixValue (isPrefixed : Bool) : Walk (Option String) := do
  if isPrefixed then
    let (value, _) ← acceptString .definition
    return some value
  else return none

def definition (calls : Nat) (span : Span) : Walk Declaration := do
  let (name, _) ← acceptName .definition
  let isPrefixed ← acceptFlag .prefixed
  let keyPrefix ← prefixValue isPrefixed
  let body ← body (action calls) .definition calls
  let (_, stop) ← acceptKind (.keyword .end_) .definition
  return .define ⟨name, keyPrefix, body, span.join stop⟩

def declaration (calls : Nat) : Walk Declaration := do
  let (isEntry, span) ← accept declarationWord? .declaration .declaration
  if isEntry then
    let (name, stop) ← acceptName .declaration
    return .entry ⟨name, span.join stop⟩
  else definition calls span

/-- All declarations up to the end of input. -/
def declarations : (calls : Nat) → Walk (List Declaration)
  | 0 => stuck
  | calls + 1 => do
    let t ← current
    if t.kind = .endOfInput then return []
    else
      let first ← declaration (calls + 1)
      let rest ← declarations calls
      return first :: rest

/-- The whole program. -/
def program (calls : Nat) : Walk Program := do
  return ⟨← declarations calls⟩

end Walk
end AliasLang.Program
