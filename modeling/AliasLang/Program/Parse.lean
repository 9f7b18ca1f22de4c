/-
The parser: recursive descent over tokens. A parser works on the tokens that are left and returns, with its value,
the tokens left after it and the fact that these are fewer (`Parsed`) or not more (`Reached`); this is what makes the
loops below end. Blocks of `get compiled` nest by recursion on the room that is left for nesting.
-/
import AliasLang.Program.Basic
import AliasLang.Program.ParseError

namespace AliasLang.Program

open Source (Span)
open Token (Kind Keyword)

/-! ## Streams of tokens -/

/-- The tokens that are left. -/
structure Stream where
  /-- The tokens before the end of input. -/
  pending : List Token
  /-- The span of the end of input. -/
  endSpan : Span
  /-- The span of the token taken last. -/
  last : Option Span

namespace Stream

/-- The stream of a list of tokens. The first end of input ends it; a list without one ends where its last token
stands. -/
def ofTokens (tokens : List Token) : Stream :=
  let pending := tokens.takeWhile (·.kind ≠ .endOfInput)
  let endSpan := match tokens.drop pending.length with
    | t :: _ => t.span
    | [] => (pending.getLast?.map (·.span)).getD .origin
  ⟨pending, endSpan, none⟩

/-- How many tokens are left. -/
def size (s : Stream) : Nat := s.pending.length

/-- The next token; at the end, the end of input. -/
def current (s : Stream) : Token :=
  s.pending.headD ⟨.endOfInput, s.endSpan⟩

/-- The span of the token taken last, or `span` if none was. -/
def lastSpan (s : Stream) (span : Span) : Span := s.last.getD span

/-- The error of finding the next token where something else was needed. -/
def unmet (s : Stream) (production : Production) (expected : Expected) : ParseError :=
  ⟨production, expected, .token s.current.kind, s.current.span⟩

end Stream

/-- A value read from a stream, and the stream after it, which has fewer tokens. -/
structure Parsed (α : Type) (s : Stream) where
  value : α
  rest : Stream
  shorter : rest.size < s.size

/-- A value read from a stream, perhaps without taking a token. -/
structure Reached (α : Type) (s : Stream) where
  value : α
  rest : Stream
  notLonger : rest.size ≤ s.size

/-- What a parser that takes at least one token answers. -/
abbrev Taking (α : Type) (s : Stream) := Except ParseError (Parsed α s)

/-- What a parser that may take no token answers. -/
abbrev Reading (α : Type) (s : Stream) := Except ParseError (Reached α s)

/-- Stops with a value. -/
def done {α : Type} (s : Stream) (value : α) : Reading α s :=
  .ok ⟨value, s, Nat.le_refl _⟩

/-- Goes on after at least one token was taken. -/
def Taking.andThen {α β : Type} {s : Stream} (r : Taking α s) (f : α → (t : Stream) → Reading β t) : Taking β s :=
  match r with
  | .error e => .error e
  | .ok ⟨a, t, h⟩ =>
    match f a t with
    | .error e => .error e
    | .ok ⟨b, u, h'⟩ => .ok ⟨b, u, Nat.lt_of_le_of_lt h' h⟩

/-- Goes on after a parser that may have taken no token. -/
def Reading.andThen {α β : Type} {s : Stream} (r : Reading α s) (f : α → (t : Stream) → Reading β t) : Reading β s :=
  match r with
  | .error e => .error e
  | .ok ⟨a, t, h⟩ =>
    match f a t with
    | .error e => .error e
    | .ok ⟨b, u, h'⟩ => .ok ⟨b, u, Nat.le_trans h' h⟩

/-- Forgets that a token was taken. -/
def Taking.toReading {α : Type} {s : Stream} (r : Taking α s) : Reading α s :=
  match r with
  | .error e => .error e
  | .ok ⟨a, t, h⟩ => .ok ⟨a, t, Nat.le_of_lt h⟩

/-! ## Single tokens -/

/-- Takes the next token if `f` accepts its kind. -/
def take {α : Type} (f : Kind → Option α) (production : Production) (expected : Expected) (s : Stream) :
    Taking (α × Span) s :=
  match h : s.pending with
  | [] => .error (s.unmet production expected)
  | t :: rest =>
    match f t.kind with
    | none => .error (s.unmet production expected)
    | some a => .ok ⟨(a, t.span), ⟨rest, s.endSpan, some t.span⟩, by simp [Stream.size, h]⟩

/-- Takes the next token if `f` accepts its kind, and no token otherwise. -/
def takeOptional {α : Type} (f : Kind → Option α) (s : Stream) : Reading (Option (α × Span)) s :=
  match h : s.pending with
  | [] => done s none
  | t :: rest =>
    match f t.kind with
    | none => done s none
    | some a => .ok ⟨some (a, t.span), ⟨rest, s.endSpan, some t.span⟩, by simp [Stream.size, h]⟩

/-- Accepts one kind of token. -/
def exactly (kind : Kind) (k : Kind) : Option Unit :=
  if k = kind then some () else none

/-- Takes a token of the given kind. -/
def takeKind (kind : Kind) (production : Production) (s : Stream) : Taking (Unit × Span) s :=
  take (exactly kind) production (.token kind) s

/-- Takes a token of the given kind if it is next, and tells whether it was. -/
def takeFlag (keyword : Keyword) (s : Stream) : Reading Bool s :=
  Reading.andThen (takeOptional (exactly (.keyword keyword)) s) fun found s => done s found.isSome

/-- The value of a string literal. -/
def stringValue? : Kind → Option String
  | .string value => some value
  | _ => none

/-- A name: an identifier, or a keyword in a place where only a name can stand. -/
def nameText? : Kind → Option String
  | .identifier name => some name
  | .keyword k => some k.text
  | _ => none

/-- The user of a user reference. -/
def userName? : Kind → Option String
  | .user name => some name
  | _ => none

/-- The text between the fences of a script. -/
def scriptText? : Kind → Option String
  | .script raw => some raw
  | _ => none

/-- Takes a string literal. -/
def takeString (production : Production) (s : Stream) : Taking (String × Span) s :=
  take stringValue? production .string s

/-- Takes a name. -/
def takeName (production : Production) (s : Stream) : Taking (String × Span) s :=
  take nameText? production .name s

/-! ## Simple actions -/

/-- The words that start a simple action. -/
inductive SimpleWord where
  | script | commands (word : CommandWord) | say | call

/-- The word that starts a simple action, if the token is one. -/
def simpleWord? : Kind → Option SimpleWord
  | .keyword .js => some .script
  | .keyword .exec => some (.commands .exec)
  | .keyword .pipe => some (.commands .pipe)
  | .keyword .say => some .say
  | .keyword .call => some .call
  | _ => none

/-- The rest of `js [import "ID"] SCRIPT`; `span` is that of the first word. -/
def scriptAction (span : Span) (s : Stream) : Reading Simple s :=
  Reading.andThen (takeFlag .import_ s) fun hasImport s =>
    Reading.andThen (importRef hasImport s) fun imported s =>
      Taking.toReading <| Taking.andThen (take scriptText? .script .script s) fun (raw, scriptSpan) s =>
        done s (.script ⟨imported, ⟨raw, scriptSpan⟩, span.join scriptSpan⟩)
where
  /-- The id after `import`. -/
  importRef (hasImport : Bool) (s : Stream) : Reading (Option ImportRef) s :=
    if hasImport then
      Taking.toReading <| Taking.andThen (takeString .script s) fun (id, idSpan) s => done s (some ⟨id, idSpan⟩)
    else done s none

/-- The commands after the first one, each with its span. -/
def furtherCommands (s : Stream) : Reading (List (String × Span)) s :=
  match takeOptional (exactly .bar) s with
  | .error e => .error e
  | .ok ⟨none, t, h⟩ => .ok ⟨[], t, h⟩
  | .ok ⟨some _, t, h⟩ =>
    match takeString .simple t with
    | .error e => .error e
    | .ok ⟨command, u, h'⟩ =>
      match furtherCommands u with
      | .error e => .error e
      | .ok ⟨commands, v, h''⟩ => .ok ⟨command :: commands, v, by omega⟩
termination_by s.size
decreasing_by omega

/-- The rest of a list of commands. -/
def commandList (word : CommandWord) (span : Span) (s : Stream) : Reading Simple s :=
  Taking.toReading <| Taking.andThen (takeString .simple s) fun (first, firstSpan) s =>
    Reading.andThen (furtherCommands s) fun further s =>
      let stop := (further.getLast?.map Prod.snd).getD firstSpan
      done s (.commands ⟨word, first :: further.map Prod.fst, span.join stop⟩)

/-- The rest of `say ["TEXT"]`. -/
def sayAction (span : Span) (s : Stream) : Reading Simple s :=
  Reading.andThen (takeOptional stringValue? s) fun literal s =>
    done s (.say (literal.map Prod.fst) (span.join ((literal.map Prod.snd).getD span)))

/-- The rest of `call [@USER] NAME`. -/
def callAction (span : Span) (s : Stream) : Reading Simple s :=
  Reading.andThen (takeOptional userName? s) fun user s =>
    Taking.toReading <| Taking.andThen (takeName .call s) fun (target, stop) s =>
      done s (.call ⟨user.map Prod.fst, target, span.join stop⟩)

/-- A simple action. -/
def simpleAction (production : Production) (s : Stream) : Taking Simple s :=
  Taking.andThen (take simpleWord? production .simpleAction s) fun (word, span) s =>
    match word with
    | .script => scriptAction span s
    | .commands word => commandList word span s
    | .say => sayAction span s
    | .call => callAction span s

/-! ## Chains -/

/-- The rest of `set [temp] [local] "KEY"`. A store ends its chain. -/
def storeLink (span : Span) (s : Stream) : Reading Link s :=
  Reading.andThen (takeFlag .temp s) fun isTemp s =>
    Reading.andThen (takeFlag .local_ s) fun isLocal s =>
      Taking.toReading <| Taking.andThen (takeString .continued s) fun (key, stop) s =>
        if s.current.kind = .arrow then .error (s.unmet .continued .endOfChain)
        else done s ⟨.store ⟨key, isTemp, isLocal, span.join stop⟩, span.join (s.lastSpan span)⟩

/-- A link that runs an action, before the links `rest`; `stop` is the span of the last token of the action. -/
def actionLink (span stop : Span) (action : Simple) (rest : List Link) : Link :=
  ⟨.action action, span.join ((rest.head?.map (·.span)).getD stop)⟩

/-- The links after an action: none, or those after an arrow. -/
def chain (s : Stream) : Reading (List Link) s :=
  match takeOptional (exactly .arrow) s with
  | .error e => .error e
  | .ok ⟨none, t, h⟩ => .ok ⟨[], t, h⟩
  | .ok ⟨some _, t, h⟩ =>
    let span := t.current.span
    if t.current.kind = .keyword .set then
      match Taking.andThen (takeKind (.keyword .set) .continued t) fun _ u => storeLink span u with
      | .error e => .error e
      | .ok ⟨link, u, h'⟩ => .ok ⟨[link], u, by omega⟩
    else
      match simpleAction .continued t with
      | .error e => .error e
      | .ok ⟨action, u, h'⟩ =>
        match chain u with
        | .error e => .error e
        | .ok ⟨rest, v, h''⟩ => .ok ⟨actionLink span (u.lastSpan span) action rest :: rest, v, by omega⟩
termination_by s.size
decreasing_by omega

/-- Where an action ends that is followed by a chain. -/
def chainEnd (stop : Span) (links : List Link) : Span :=
  (links.head?.map (·.span)).getD stop

/-! ## Actions and bodies -/

/-- The literal of an argument token. -/
def argumentLiteral? : Kind → Option Token.ArgLiteral
  | .argument literal => some literal
  | _ => none

/-- A retrieval and the arrow after it, if one comes next. -/
def retrieval (s : Stream) : Reading (Option Retrieve) s :=
  Reading.andThen (takeOptional argumentLiteral? s) fun argument s =>
    match argument with
    | some (literal, span) => arrowAfter (.argument literal span) s
    | none =>
      Reading.andThen (takeOptional (exactly (.keyword .get)) s) fun get s =>
        match get with
        | none => done s none
        | some (_, span) =>
          Reading.andThen (takeFlag .local_ s) fun isLocal s =>
            Taking.toReading <| Taking.andThen (takeString .retrieve s) fun (key, stop) s =>
              arrowAfter (.key key isLocal (span.join stop)) s
where
  /-- The arrow that must follow. -/
  arrowAfter (retrieve : Retrieve) (s : Stream) : Reading (Option Retrieve) s :=
    Taking.toReading <| Taking.andThen (takeKind .arrow .execute s) fun _ s => done s (some retrieve)

/-- `[RETRIEVE ->] ACTION [-> CHAIN]` -/
def executeAction (s : Stream) : Taking Action s :=
  let span := s.current.span
  match retrieval s with
  | .error e => .error e
  | .ok ⟨retrieve, t, h⟩ =>
    let r := Taking.andThen (simpleAction .execute t) fun action u =>
      Reading.andThen (chain u) fun links v =>
        done v (.execute ⟨retrieve, action, links, span.join (chainEnd action.span links)⟩)
    match r with
    | .error e => .error e
    | .ok ⟨action, u, h'⟩ => .ok ⟨action, u, by omega⟩

/-- A token that can start an action. -/
def startsAction : Kind → Bool
  | .keyword .get | .keyword .js | .keyword .exec | .keyword .pipe | .keyword .say | .keyword .call => true
  | .argument _ => true
  | _ => false

/-- The actions up to the next `end`, which is not taken, each read by `action`. -/
def actionsUntilEnd (action : (s : Stream) → Taking Action s) (production : Production) (s : Stream) :
    Reading (List Action) s :=
  if s.current.kind = .keyword .end_ then done s []
  else if !startsAction s.current.kind then .error (s.unmet production .actionOrEnd)
  else
    match action s with
    | .error e => .error e
    | .ok ⟨a, t, h⟩ =>
      match actionsUntilEnd action production t with
      | .error e => .error e
      | .ok ⟨rest, u, h'⟩ => .ok ⟨a :: rest, u, by omega⟩
termination_by s.size

/-- A body whose actions are read by `action`. An empty body has the span of the token that follows it. -/
def bodyOf (action : (s : Stream) → Taking Action s) (production : Production) (s : Stream) : Reading Body s :=
  let span := s.current.span
  Reading.andThen (actionsUntilEnd action production s) fun actions s =>
    done s ⟨actions, span.join (if actions.isEmpty then span else s.lastSpan span)⟩

/-- `get compiled` comes next. -/
def startsCompiled (s : Stream) : Bool :=
  match s.pending with
  | t :: u :: _ => t.kind = .keyword .get && u.kind = .keyword .compiled
  | _ => false

/-- An action, with room for `room` nested blocks. -/
def action : (room : Nat) → (s : Stream) → Taking Action s
  | 0, s =>
    if startsCompiled s then .error ⟨.compiled, .lessNesting, .deeperNesting, s.current.span⟩ else executeAction s
  | room + 1, s =>
    if startsCompiled s then
      Taking.andThen (takeKind (.keyword .get) .compiled s) fun (_, span) s =>
        Taking.toReading <| Taking.andThen (takeKind (.keyword .compiled) .compiled s) fun _ s =>
          Reading.andThen (bodyOf (action room) .compiled s) fun body s =>
            Taking.toReading <| Taking.andThen (takeKind (.keyword .end_) .compiled s) fun (_, stop) s =>
              Reading.andThen (chain s) fun links s =>
                done s (.compiled body.actions body.span links (span.join (chainEnd stop links)))
    else executeAction s

/-! ## Declarations -/

/-- The rest of `alias NAME [prefixed "PREFIX"] BODY end`; `span` is that of the first word. -/
def definition (span : Span) (s : Stream) : Reading Declaration s :=
  Taking.toReading <| Taking.andThen (takeName .definition s) fun (name, _) s =>
    Reading.andThen (takeFlag .prefixed s) fun isPrefixed s =>
      Reading.andThen (prefixValue isPrefixed s) fun keyPrefix s =>
        Reading.andThen (bodyOf (action maxNesting) .definition s) fun body s =>
          Taking.toReading <| Taking.andThen (takeKind (.keyword .end_) .definition s) fun (_, stop) s =>
            done s (.define ⟨name, keyPrefix, body, span.join stop⟩)
where
  /-- The string after `prefixed`. -/
  prefixValue (isPrefixed : Bool) (s : Stream) : Reading (Option String) s :=
    if isPrefixed then
      Taking.toReading <| Taking.andThen (takeString .definition s) fun (value, _) s => done s (some value)
    else done s none

/-- The words that start a declaration. -/
def declarationWord? : Kind → Option Bool
  | .keyword .entry => some true
  | .keyword .alias_ => some false
  | _ => none

/-- A declaration. -/
def declaration (s : Stream) : Taking Declaration s :=
  Taking.andThen (take declarationWord? .declaration .declaration s) fun (isEntry, span) s =>
    if isEntry then
      Taking.toReading <| Taking.andThen (takeName .declaration s) fun (name, stop) s =>
        done s (.entry ⟨name, span.join stop⟩)
    else definition span s

/-- All declarations up to the end of input. -/
def allDeclarations (s : Stream) : Except ParseError (List Declaration) :=
  if s.pending.isEmpty then .ok []
  else
    match declaration s with
    | .error e => .error e
    | .ok ⟨d, t, _⟩ =>
      match allDeclarations t with
      | .error e => .error e
      | .ok ds => .ok (d :: ds)
termination_by s.size

/-- The program that a list of tokens is. -/
def ofTokens (tokens : List Token) : Except ParseError Program :=
  (allDeclarations (Stream.ofTokens tokens)).map Program.mk

end AliasLang.Program
