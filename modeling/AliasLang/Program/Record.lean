/-
Programs as JSON records, and programs read back from them. Each case of a choice is an object with a tag that names
it. A declaration is read by the name of its case only; inside a declaration, the place of the case among all cases of
its choice does as well. A link of a chain that runs an action has two tags, its own and the action's; such a link
cannot be read back from an object, where the second tag is missing or hides the first.
-/
import AliasLang.Json.Basic
import AliasLang.Program.Basic
import AliasLang.Text.Number

namespace AliasLang.Program

open Source (Span)
open Token (Selector ArgLiteral)

/-! ## Writing -/

/-- A span. -/
def spanRecord (s : Span) : Json :=
  .obj [("start", .ofNat s.start), ("end", .ofNat s.stop), ("line", .ofNat s.line), ("column", .ofNat s.column)]

/-- A selector. -/
def selectorRecord : Selector → Json
  | .index n => .obj [("kind", .str "index"), ("index", .num n)]
  | .onward start => .obj [("kind", .str "from"), ("start", .ofNat start)]
  | .range start stop => .obj [("kind", .str "range"), ("start", .ofNat start), ("end", .ofNat stop)]
  | .slice start stop =>
    .obj [("kind", .str "slice"), ("start", .num start), ("end", (stop.map Json.num).getD .null)]
  | .executor => .obj [("kind", .str "executor")]
  | .channel => .obj [("kind", .str "channel")]

/-- An argument literal. -/
def argumentRecord (a : ArgLiteral) : Json :=
  .obj [("selector", selectorRecord a.selector), ("raw", .str a.raw)]

/-- An import. -/
def importRecord (i : ImportRef) : Json :=
  .obj [("id", .str i.id), ("span", spanRecord i.span)]

/-- The members of a simple action, its tag first. -/
def Simple.members : Simple → List (String × Json)
  | .script a =>
    [("type", .str "js"), ("import", (a.imported.map importRecord).getD .null),
     ("script", .obj [("raw", .str a.script.raw), ("span", spanRecord a.script.span)]), ("span", spanRecord a.span)]
  | .commands l =>
    [("type", .str "commands"), ("keyword", .str l.word.text), ("commands", .arr (l.commands.map Json.str)),
     ("span", spanRecord l.span)]
  | .say literal span => [("type", .str "say"), ("literal", .ofText? literal), ("span", spanRecord span)]
  | .call c =>
    [("type", .str "call"), ("user", .ofText? c.user), ("alias", .str c.target), ("span", spanRecord c.span)]

/-- A retrieval. -/
def retrieveRecord : Retrieve → Json
  | .key key isLocal span =>
    .obj [("type", .str "key"), ("key", .str key), ("local", .bool isLocal), ("span", spanRecord span)]
  | .argument literal span =>
    .obj [("type", .str "args"), ("literal", argumentRecord literal), ("span", spanRecord span)]

/-- A step of a chain. -/
def stepRecord : Step → Json
  | .store s =>
    .obj [("type", .str "store"), ("key", .str s.key), ("temp", .bool s.isTemp), ("local", .bool s.isLocal),
      ("span", spanRecord s.span)]
  | .action a => .obj (("type", .str "action") :: a.members)

/-- A chain: each link holds the links after it. -/
def chainRecord : List Link → Json
  | [] => .null
  | l :: rest => .obj [("step", stepRecord l.step), ("then", chainRecord rest), ("span", spanRecord l.span)]

/-- A body. -/
def bodyRecord (actions : List Json) (span : Span) : Json :=
  .obj [("actions", .arr actions), ("span", spanRecord span)]

mutual

/-- An action. -/
def actionRecord : Action → Json
  | .execute e =>
    .obj [("type", .str "execute"), ("retrieve", (e.retrieve.map retrieveRecord).getD .null),
      ("action", .obj e.action.members), ("then", chainRecord e.chain), ("span", spanRecord e.span)]
  | .compiled actions bodySpan chain span =>
    .obj [("type", .str "get_compiled"), ("root", bodyRecord (actionRecords actions) bodySpan),
      ("then", chainRecord chain), ("span", spanRecord span)]

/-- Actions. -/
def actionRecords : List Action → List Json
  | [] => []
  | a :: rest => actionRecord a :: actionRecords rest

end

/-- A declaration. -/
def declarationRecord : Declaration → Json
  | .entry e => .obj [("type", .str "entry"), ("name", .str e.name), ("span", spanRecord e.span)]
  | .define a =>
    .obj [("type", .str "alias"), ("name", .str a.name), ("key_prefix", .ofText? a.keyPrefix),
      ("body", bodyRecord (actionRecords a.body.actions) a.body.span), ("span", spanRecord a.span)]

/-- A program. -/
def toRecord (p : Program) : Json :=
  .obj [("declarations", .arr (p.declarations.map declarationRecord))]

/-! ## Reading -/

/-- A 64-bit unsigned number. -/
def unsigned? (j : Json) : Option Nat := (j.number? 0 Text.maxUnsigned).map Int.toNat

/-- A 64-bit signed number. -/
def signed? (j : Json) : Option Int := j.number? (-Text.maxSigned - 1) Text.maxSigned

/-- Reads a span. -/
def readSpan? (j : Json) : Option Span := do
  let names := ["start", "end", "line", "column"]
  let start ← (← j.member? names "start") |> unsigned?
  let stop ← (← j.member? names "end") |> unsigned?
  let line ← (← j.member? names "line") |> unsigned?
  let column ← (← j.member? names "column") |> unsigned?
  return ⟨start, stop, line, column⟩

/-- Reads the member `span` of a record with the given members. -/
def spanMember? (names : List String) (j : Json) : Option Span := do
  readSpan? (← j.member? names "span")

/-- Reads a text member. -/
def textMember? (names : List String) (name : String) (j : Json) : Option String := do
  (← j.member? names name).text?

/-- Reads a truth value. -/
def flagMember? (names : List String) (name : String) (j : Json) : Option Bool := do
  (← j.member? names name).flag?

/-- A record without members: any object, or the empty array. -/
def isUnit : Json → Bool
  | .obj _ => true
  | .arr items => items.isEmpty
  | _ => false

/-- The cases of a selector. -/
def selectorCases : List String := ["index", "from", "range", "slice", "executor", "channel"]

/-- Reads a selector. -/
def readSelector? (j : Json) : Option Selector := do
  let (kind, j) ← j.tagged? (Json.caseName? selectorCases) "kind"
  match kind with
  | "index" => return .index (← signed? (← j.member? ["index"] "index"))
  | "from" => return .onward (← unsigned? (← j.member? ["start"] "start"))
  | "range" =>
    let names := ["start", "end"]
    return .range (← unsigned? (← j.member? names "start")) (← unsigned? (← j.member? names "end"))
  | "slice" =>
    let names := ["start", "end"]
    return .slice (← signed? (← j.member? names "start")) (← Json.optional? signed? (j.member? names "end"))
  | "executor" => if isUnit j then return .executor else none
  | "channel" => if isUnit j then return .channel else none
  | _ => none

/-- Reads an argument literal. -/
def readArgument? (j : Json) : Option ArgLiteral := do
  let names := ["selector", "raw"]
  return ⟨← readSelector? (← j.member? names "selector"), ← textMember? names "raw" j⟩

/-- Reads an import. -/
def readImport? (j : Json) : Option ImportRef := do
  let names := ["id", "span"]
  return ⟨← textMember? names "id" j, ← spanMember? names j⟩

/-- Reads a fenced script. -/
def readFenced? (j : Json) : Option Fenced := do
  let names := ["raw", "span"]
  return ⟨← textMember? names "raw" j, ← spanMember? names j⟩

/-- The word of a list of commands by its name. -/
def commandWord? : String → Option CommandWord
  | "exec" => some .exec
  | "pipe" => some .pipe
  | _ => none

/-- Reads the word of a list of commands: its name, or an object whose one member has that name and no value. -/
def readCommandWord? : Json → Option CommandWord
  | .str name => commandWord? name
  | .obj [(name, .null)] => commandWord? name
  | .obj [(name, .obj [])] => commandWord? name
  | _ => none

/-- The cases of a simple action. -/
def simpleCases : List String := ["js", "commands", "say", "call"]

/-- Reads a simple action. -/
def readSimple? (j : Json) : Option Simple := do
  let (tag, j) ← j.tagged? (Json.caseName? simpleCases) "type"
  match tag with
  | "js" =>
    let names := ["import", "script", "span"]
    return .script ⟨← Json.optional? readImport? (j.member? names "import"),
      ← readFenced? (← j.member? names "script"), ← spanMember? names j⟩
  | "commands" =>
    let names := ["keyword", "commands", "span"]
    let commands ← (← (← j.member? names "commands").items?).mapM Json.text?
    return .commands ⟨← readCommandWord? (← j.member? names "keyword"), commands, ← spanMember? names j⟩
  | "say" =>
    let names := ["literal", "span"]
    return .say (← Json.optional? Json.text? (j.member? names "literal")) (← spanMember? names j)
  | "call" =>
    let names := ["user", "alias", "span"]
    return .call ⟨← Json.optional? Json.text? (j.member? names "user"), ← textMember? names "alias" j,
      ← spanMember? names j⟩
  | _ => none

/-- The cases of a retrieval. -/
def retrieveCases : List String := ["key", "args"]

/-- Reads a retrieval. -/
def readRetrieve? (j : Json) : Option Retrieve := do
  let (tag, j) ← j.tagged? (Json.caseName? retrieveCases) "type"
  match tag with
  | "key" =>
    let names := ["key", "local", "span"]
    return .key (← textMember? names "key" j) (← flagMember? names "local" j) (← spanMember? names j)
  | "args" =>
    let names := ["literal", "span"]
    return .argument (← readArgument? (← j.member? names "literal")) (← spanMember? names j)
  | _ => none

/-- The cases of a step. -/
def stepCases : List String := ["store", "action"]

/-- Reads a step of a chain. An action has its own tag after that of the step, which only an array can hold. -/
def readStep? (j : Json) : Option Step := do
  let (tag, j) ← j.tagged? (Json.caseName? stepCases) "type"
  match tag with
  | "store" =>
    let names := ["key", "temp", "local", "span"]
    return .store ⟨← textMember? names "key" j, ← flagMember? names "temp" j, ← flagMember? names "local" j,
      ← spanMember? names j⟩
  | "action" =>
    match j with
    | .arr _ => return .action (← readSimple? j)
    | _ => none
  | _ => none

/-- The members of a link. -/
def linkNames : List String := ["step", "then", "span"]

/-- Reads a link without the links after it. -/
def readLink? (j : Json) : Option Link := do
  return ⟨← readStep? (← j.member? linkNames "step"), ← spanMember? linkNames j⟩

/-- Reads a chain from its first link. -/
def readChain? (j : Json) : Option (List Link) :=
  match readLink? j with
  | none => none
  | some link =>
    match _h : j.member? linkNames "then" with
    | none => some [link]
    | some .null => some [link]
    | some rest => (readChain? rest).map (link :: ·)
termination_by sizeOf j
decreasing_by exact Json.sizeOf_member_lt _h

/-- Reads the member `then` of a record with the given members. -/
def chainMember? (names : List String) (j : Json) : Option (List Link) :=
  (Json.optional? readChain? (j.member? names "then")).map (·.getD [])

/-- Reads an action that runs something. -/
def readExecute? (j : Json) : Option Execute := do
  let names := ["retrieve", "action", "then", "span"]
  return ⟨← Json.optional? readRetrieve? (j.member? names "retrieve"), ← readSimple? (← j.member? names "action"),
    ← chainMember? names j, ← spanMember? names j⟩

/-- The members of a body. -/
def bodyNames : List String := ["actions", "span"]

/-- The members of a nested block. -/
def compiledNames : List String := ["root", "then", "span"]

/-- The cases of an action. -/
def actionCases : List String := ["execute", "get_compiled"]

/-- Reads an action. -/
def readAction? (j : Json) : Option Action :=
  match _tagged : j.tagged? (Json.caseName? actionCases) "type" with
  | none => none
  | some (tag, k) =>
    if tag = "execute" then (readExecute? k).map .execute
    else if tag = "get_compiled" then
      match _root : k.member? compiledNames "root" with
      | none => none
      | some root =>
        match _listed : root.member? bodyNames "actions" with
        | none => none
        | some listed =>
          match _items : listed.items? with
          | none => none
          | some items => do
            let actions ← items.attach.mapM fun ⟨item, _mem⟩ => readAction? item
            return .compiled actions (← spanMember? bodyNames root) (← chainMember? compiledNames k)
              (← spanMember? compiledNames k)
    else none
termination_by sizeOf j
decreasing_by
  have := Json.sizeOf_tagged_le _tagged
  have := Json.sizeOf_member_lt _root
  have := Json.sizeOf_member_lt _listed
  have := Json.sizeOf_items_lt _items item _mem
  omega

/-- Reads a body. -/
def readBody? (j : Json) : Option Body := do
  let actions ← (← (← j.member? bodyNames "actions").items?).mapM readAction?
  return ⟨actions, ← spanMember? bodyNames j⟩

/-- Reads a declaration. -/
def readDeclaration? (j : Json) : Option Declaration := do
  let (tag, j) ← j.tagged? Json.text? "type"
  match tag with
  | "entry" =>
    let names := ["name", "span"]
    return .entry ⟨← textMember? names "name" j, ← spanMember? names j⟩
  | "alias" =>
    let names := ["name", "key_prefix", "body", "span"]
    return .define ⟨← textMember? names "name" j, ← Json.optional? Json.text? (j.member? names "key_prefix"),
      ← readBody? (← j.member? names "body"), ← spanMember? names j⟩
  | _ => none

/-- Reads a program. -/
def ofRecord? (j : Json) : Option Program := do
  return ⟨← (← (← j.member? ["declarations"] "declarations").items?).mapM readDeclaration?⟩

end AliasLang.Program
