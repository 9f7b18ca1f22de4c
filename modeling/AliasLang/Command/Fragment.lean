/-
Fragments: what a part of a program compiles to. Fragments are put together in order; between two actions that both
give commands, a pair of commands keeps the output of the one from the input of the other.
-/
import AliasLang.Command.Keys
import AliasLang.Source.Span

namespace AliasLang.Command

open Source (Span)

/-- A remark on a script that does not stop the compilation, at its place in the source. -/
structure Warning where
  message : String
  span : Span
deriving DecidableEq, Repr

/-- The remark with its place in front. -/
def Warning.text (w : Warning) : String :=
  w.span.locate ("warning: " ++ w.message)

/-- Commands, temporary keys that are still to be deleted, and warnings. -/
structure Fragment where
  commands : List String
  tempKeys : Keys
  warnings : List Warning
deriving DecidableEq

namespace Fragment

/-- Nothing. -/
def empty : Fragment := ⟨[], .empty, []⟩

instance : Inhabited Fragment := ⟨empty⟩

/-- One command. -/
def command (text : String) : Fragment := ⟨[text], .empty, []⟩

/-- Some commands. -/
def ofCommands (commands : List String) : Fragment := ⟨commands, .empty, []⟩

/-- Adds a command at the end. -/
def push (f : Fragment) (text : String) : Fragment :=
  { f with commands := f.commands ++ [text] }

/-- Adds a temporary key. -/
def addKey (f : Fragment) (key : String) : Fragment :=
  { f with tempKeys := f.tempKeys.insert key }

/-- One fragment after the other. -/
def append (f g : Fragment) : Fragment :=
  ⟨f.commands ++ g.commands, f.tempKeys.union g.tempKeys, f.warnings ++ g.warnings⟩

instance : Append Fragment := ⟨append⟩

/-- No commands. Keys and warnings do not count. -/
def isEmpty (f : Fragment) : Bool := f.commands.isEmpty

/-- The commands between two actions. -/
def barrier : List String := ["abb say", "null"]

/-- Adds the fragment of a further action. -/
def join (f g : Fragment) : Fragment :=
  if !g.isEmpty && !f.isEmpty then (⟨f.commands ++ barrier, f.tempKeys, f.warnings⟩ : Fragment) ++ g else f ++ g

/-- The fragments of actions, with barriers between those that give commands. -/
def joinAll (fragments : List Fragment) : Fragment :=
  fragments.foldl join empty

end Fragment
end AliasLang.Command
