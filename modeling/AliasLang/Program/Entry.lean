/-
The entry of a program: the alias that is compiled when nothing else is asked for. The declarations are checked in
file order first: no alias name twice, and no second entry.
-/
import AliasLang.Error
import AliasLang.Program.Basic

namespace AliasLang.Program

open Source (Span)

/-- Goes through the declarations in order, after `aliases` and perhaps an entry; answers with the entry. -/
def checkDeclarations (aliases : List Alias) (entry : Option Entry) :
    List Declaration → Except SemanticError (Option Entry)
  | [] => .ok entry
  | .entry e :: rest =>
    match entry with
    | some _ => .error (.multipleEntrypoints e.span)
    | none => checkDeclarations aliases (some e) rest
  | .define a :: rest =>
    if aliases.any (·.name = a.name) then .error (.duplicateAlias a.name a.span)
    else checkDeclarations (a :: aliases) entry rest

/-- The alias with this name. -/
def find? (p : Program) (name : String) : Option Alias :=
  p.aliases.find? (·.name = name)

/-- Checks the declarations as a whole. The answer is the entry, with the alias it names. -/
def check (p : Program) : Except SemanticError (Option (Entry × Alias)) :=
  match checkDeclarations [] none p.declarations with
  | .error e => .error e
  | .ok none => .ok none
  | .ok (some entry) =>
    match p.find? entry.name with
    | none => .error (.unknownEntrypoint entry.name entry.span)
    | some a => .ok (some (entry, a))

/-- The alias to compile: the one that the entry names, or the only one. -/
def selectEntry (p : Program) : Except SemanticError Alias :=
  match p.check with
  | .error e => .error e
  | .ok (some (_, a)) => .ok a
  | .ok none =>
    match p.aliases with
    | [a] => .ok a
    | aliases =>
      .error (.missingEntrypoint aliases.length ((p.declarations.head?.map Declaration.span).getD .origin))

end AliasLang.Program
