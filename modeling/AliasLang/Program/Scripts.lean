/-
The scripts of a program, in source order. The scripts of a nested body come where the body stands.
-/
import AliasLang.Program.Basic

namespace AliasLang.Program

/-- The script of a unit of work, if it is one. -/
def Simple.scripts : Simple → List ScriptAction
  | .script a => [a]
  | _ => []

/-- The script of a step. -/
def Step.scripts : Step → List ScriptAction
  | .store _ => []
  | .action a => a.scripts

/-- The scripts of a chain. -/
def chainScripts (chain : List Link) : List ScriptAction :=
  chain.flatMap (·.step.scripts)

mutual

/-- The scripts of an action. -/
def Action.scripts : Action → List ScriptAction
  | .execute e => e.action.scripts ++ chainScripts e.chain
  | .compiled actions _ chain _ => actionsScripts actions ++ chainScripts chain

/-- The scripts of some actions. -/
def actionsScripts : List Action → List ScriptAction
  | [] => []
  | a :: rest => a.scripts ++ actionsScripts rest

end

/-- The scripts of an alias. -/
def Alias.scripts (a : Alias) : List ScriptAction := actionsScripts a.body.actions

/-- What a program imports. -/
def imports (p : Program) : List ImportRef :=
  (p.aliases.flatMap Alias.scripts).filterMap (·.imported)

end AliasLang.Program
