/-
The grammar of programs as an inductive definition over kinds of tokens, with the programs it derives left without
places: every span in them is `Span.origin`. `erase` takes the places out of a program, and `nesting` is how deep the
blocks of `get compiled` nest in it.
-/
import AliasLang.Program.Basic
import AliasLang.Token.Basic

namespace AliasLang.Program

open Source (Span)
open Token (Kind Keyword)

/-! ## Programs without places -/

/-- A unit of work without its places. -/
def Simple.erase : Simple → Simple
  | .script a => .script ⟨a.imported.map fun i => ⟨i.id, .origin⟩, ⟨a.script.raw, .origin⟩, .origin⟩
  | .commands l => .commands ⟨l.word, l.commands, .origin⟩
  | .say literal _ => .say literal .origin
  | .call c => .call ⟨c.user, c.target, .origin⟩

/-- A retrieval without its place. -/
def Retrieve.erase : Retrieve → Retrieve
  | .key k isLocal _ => .key k isLocal .origin
  | .argument literal _ => .argument literal .origin

/-- A step without its place. -/
def Step.erase : Step → Step
  | .store s => .store ⟨s.key, s.isTemp, s.isLocal, .origin⟩
  | .action a => .action a.erase

/-- A chain without its places. -/
def eraseChain (chain : List Link) : List Link := chain.map fun l => ⟨l.step.erase, .origin⟩

/-- An action that runs something, without its places. -/
def Execute.erase (e : Execute) : Execute :=
  ⟨e.retrieve.map Retrieve.erase, e.action.erase, eraseChain e.chain, .origin⟩

mutual

/-- An action without its places. -/
def Action.erase : Action → Action
  | .execute e => .execute e.erase
  | .compiled actions _ chain _ => .compiled (eraseActions actions) .origin (eraseChain chain) .origin

/-- Actions without their places. -/
def eraseActions : List Action → List Action
  | [] => []
  | a :: rest => a.erase :: eraseActions rest

end

/-- A declaration without its places. -/
def Declaration.erase : Declaration → Declaration
  | .entry e => .entry ⟨e.name, .origin⟩
  | .define a => .define ⟨a.name, a.keyPrefix, ⟨eraseActions a.body.actions, .origin⟩, .origin⟩

/-- A program without its places. -/
def erase (p : Program) : Program := ⟨p.declarations.map Declaration.erase⟩

/-! ## Nesting -/

mutual

/-- How deep blocks of `get compiled` nest in an action. -/
def Action.nesting : Action → Nat
  | .execute _ => 0
  | .compiled actions _ _ _ => nestingOf actions + 1

/-- How deep blocks of `get compiled` nest in some actions. -/
def nestingOf : List Action → Nat
  | [] => 0
  | a :: rest => max a.nesting (nestingOf rest)

end

/-- How deep blocks of `get compiled` nest in a declaration. -/
def Declaration.nesting : Declaration → Nat
  | .entry _ => 0
  | .define a => nestingOf a.body.actions

/-- No block of `get compiled` lies more than `depth` deep. -/
def NestsWithin (depth : Nat) (p : Program) : Prop := ∀ d ∈ p.declarations, d.nesting ≤ depth

/-! ## The grammar -/

namespace Grammar

/-- `Ident`: an identifier, or a keyword that stands for its text. -/
inductive Ident : String → Kind → Prop where
  | identifier (name : String) : Ident name (.identifier name)
  | keyword (k : Keyword) : Ident k.text (.keyword k)

/-- An optional keyword. -/
def flag (k : Keyword) (isThere : Bool) : List Kind := if isThere then [.keyword k] else []

/-- `["import" String]` -/
inductive Imported : Option ImportRef → List Kind → Prop where
  | absent : Imported none []
  | present (id : String) : Imported (some ⟨id, .origin⟩) [.keyword .import_, .string id]

/-- `("|" String)*` -/
def furtherCommands (commands : List String) : List Kind := commands.flatMap fun c => [.bar, .string c]

/-- The keyword that starts a list of commands. -/
def commandKeyword : CommandWord → Keyword
  | .exec => .exec
  | .pipe => .pipe

/-- `ExecuteActionSimple` -/
inductive SimpleForm : Simple → List Kind → Prop where
  | script {imported : Option ImportRef} {is : List Kind} (raw : String) (hi : Imported imported is) :
      SimpleForm (.script ⟨imported, ⟨raw, .origin⟩, .origin⟩) (.keyword .js :: (is ++ [.script raw]))
  | commands (word : CommandWord) (first : String) (further : List String) :
      SimpleForm (.commands ⟨word, first :: further, .origin⟩)
        (.keyword (commandKeyword word) :: .string first :: furtherCommands further)
  | sayNothing : SimpleForm (.say none .origin) [.keyword .say]
  | say (text : String) : SimpleForm (.say (some text) .origin) [.keyword .say, .string text]
  | call {target : String} {k : Kind} (ht : Ident target k) :
      SimpleForm (.call ⟨none, target, .origin⟩) [.keyword .call, k]
  | callOf (user : String) {target : String} {k : Kind} (ht : Ident target k) :
      SimpleForm (.call ⟨some user, target, .origin⟩) [.keyword .call, .user user, k]

/-- `RetrieveAction` -/
inductive RetrieveForm : Retrieve → List Kind → Prop where
  | key (key : String) (isLocal : Bool) :
      RetrieveForm (.key key isLocal .origin) (.keyword .get :: (flag .local_ isLocal ++ [.string key]))
  | argument (literal : Token.ArgLiteral) : RetrieveForm (.argument literal .origin) [.argument literal]

/-- `["->" ContinuedAction]` -/
inductive ChainForm : List Link → List Kind → Prop where
  | nothing : ChainForm [] []
  | store (key : String) (isTemp isLocal : Bool) :
      ChainForm [⟨.store ⟨key, isTemp, isLocal, .origin⟩, .origin⟩]
        (.arrow :: .keyword .set :: (flag .temp isTemp ++ (flag .local_ isLocal ++ [.string key])))
  | action {a : Simple} {chain : List Link} {ks js : List Kind} (ha : SimpleForm a ks) (hc : ChainForm chain js) :
      ChainForm (⟨.action a, .origin⟩ :: chain) (.arrow :: (ks ++ js))

mutual

/-- `AliasAction` -/
inductive ActionForm : Action → List Kind → Prop where
  | execute {a : Simple} {chain : List Link} {ks js : List Kind} (ha : SimpleForm a ks) (hc : ChainForm chain js) :
      ActionForm (.execute ⟨none, a, chain, .origin⟩) (ks ++ js)
  | retrieved {r : Retrieve} {a : Simple} {chain : List Link} {rs ks js : List Kind} (hr : RetrieveForm r rs)
      (ha : SimpleForm a ks) (hc : ChainForm chain js) :
      ActionForm (.execute ⟨some r, a, chain, .origin⟩) (rs ++ .arrow :: (ks ++ js))
  | compiled {actions : List Action} {chain : List Link} {ks js : List Kind} (hb : BodyForm actions ks)
      (hc : ChainForm chain js) :
      ActionForm (.compiled actions .origin chain .origin)
        (.keyword .get :: .keyword .compiled :: (ks ++ .keyword .end_ :: js))

/-- `AliasBody` -/
inductive BodyForm : List Action → List Kind → Prop where
  | nil : BodyForm [] []
  | cons {a : Action} {rest : List Action} {ks js : List Kind} (ha : ActionForm a ks) (hr : BodyForm rest js) :
      BodyForm (a :: rest) (ks ++ js)

end

/-- `["prefixed" String]` -/
inductive Prefixed : Option String → List Kind → Prop where
  | absent : Prefixed none []
  | present (value : String) : Prefixed (some value) [.keyword .prefixed, .string value]

/-- `Declaration` -/
inductive DeclarationForm : Declaration → List Kind → Prop where
  | entry {name : String} {k : Kind} (hn : Ident name k) :
      DeclarationForm (.entry ⟨name, .origin⟩) [.keyword .entry, k]
  | define {name : String} {k : Kind} {keyPrefix : Option String} {actions : List Action} {ps ks : List Kind}
      (hn : Ident name k) (hp : Prefixed keyPrefix ps) (hb : BodyForm actions ks) :
      DeclarationForm (.define ⟨name, keyPrefix, ⟨actions, .origin⟩, .origin⟩)
        (.keyword .alias_ :: k :: (ps ++ (ks ++ [.keyword .end_])))

/-- `Program` -/
inductive DeclarationsForm : List Declaration → List Kind → Prop where
  | nil : DeclarationsForm [] []
  | cons {d : Declaration} {rest : List Declaration} {ks js : List Kind} (hd : DeclarationForm d ks)
      (hr : DeclarationsForm rest js) : DeclarationsForm (d :: rest) (ks ++ js)

/-- The tokens whose kinds are `ks` are derivable as the program `p`, which is without places. -/
def Derives (p : Program) (ks : List Kind) : Prop := DeclarationsForm p.declarations ks

end Grammar
end AliasLang.Program
