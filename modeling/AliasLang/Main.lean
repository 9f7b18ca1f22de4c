/-
The command line. It runs over the files of the system and shows the outcome.
-/
import AliasLang.Tool.Run

namespace AliasLang.Tool

/-- An error of the system by its number. -/
def errorOfNumber (number : UInt32) (message : String) : FileError :=
  if number = 2 then .notFound
  else if number = 20 then .notDirectory
  else if number = 21 then .isDirectory
  else if number = 36 then .nameTooLong
  else .other s!"{message} (os error {number})"

/-- An error of the system. -/
def errorOfSystem : IO.Error → FileError
  | .noFileOrDirectory _ number message | .inappropriateType _ number message
  | .invalidArgument _ number message | .permissionDenied _ number message => errorOfNumber number message
  | e => .other (toString e)

/-- The text of the file at a path. -/
def readFile (path : String) : IO (Except FileError String) := do
  try
    match String.fromUTF8? (← IO.FS.readBinFile path) with
    | some text => return .ok text
    | none => return .error .notText
  catch e => return .error (errorOfSystem e)

/-- Writes the result of a run to a file. -/
def writeFile (path text : String) : IO (Except FileError Unit) := do
  try
    IO.FS.writeFile path text
    return .ok ()
  catch e => return .error (errorOfSystem e)

/-- The files of the system. -/
def systemFiles : System IO := ⟨readFile, writeFile⟩

/-- Shows an outcome. -/
def Outcome.show (o : Outcome) : IO UInt32 := do
  (← IO.getStdout).putStr o.stdout
  (← IO.getStderr).putStr o.stderr
  return UInt32.ofNat o.exit

end AliasLang.Tool

/-- Runs the tool. -/
def main (words : List String) : IO UInt32 := do
  let first ← IO.rand 0 (AliasLang.Command.Marker.drawnCount - 1)
  let draw := AliasLang.Command.Marker.series first
  let outcome ← AliasLang.Tool.runWords AliasLang.Tool.systemFiles draw (← IO.getEnv "ADL_CONFIG") words
  outcome.show
