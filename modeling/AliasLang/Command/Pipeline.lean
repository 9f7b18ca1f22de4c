/-
Pipelines: commands joined by a marker. A single command stands for itself, unless a pipeline is asked for.
-/
import AliasLang.Command.Marker
import AliasLang.Settings

namespace AliasLang.Command

/-- The command that a pipeline starts with when it would hold only one. -/
def nullCommand : String := "null"

/-- The pipeline of some commands with the given marker between them. -/
def pipeline (marker : String) (commands : List String) : String :=
  "pipe _char:" ++ marker ++ " " ++ (" " ++ marker ++ " ").intercalate commands

/-- The marker that a mode gives for some commands; `drawn` is the one drawn at random. -/
def markerText (mode : DelimiterMode) (drawn : String) (commands : List String) : String :=
  match mode with
  | .fixed => Marker.bare.text
  | .numbered => (Marker.choose commands).text
  | .randomized => drawn

/-- The commands that go into a pipeline, or none when there is a single command that needs no pipeline. -/
def pipelined? (force : Bool) (commands : List String) : Option (List String) :=
  match commands with
  | [command] => if force then some [nullCommand, command] else none
  | _ => some commands

/-- The text for some commands. -/
def assemble (mode : DelimiterMode) (drawn : String) (force : Bool) (commands : List String) : String :=
  match pipelined? force commands with
  | none => commands.headD ""
  | some piped => pipeline (markerText mode drawn piped) piped

end AliasLang.Command
