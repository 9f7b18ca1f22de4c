/-
Files, and where paths lead. A path is walked name by name, from the root if it starts with a slash and from the working
directory if not; every name but the last has to be a directory. There are no links.
-/
import AliasLang.Text.Split

namespace AliasLang

/-- Why a file cannot be read or written. -/
inductive FileError where
  | notFound
  | notDirectory
  | isDirectory
  | nameTooLong
  /-- The content is not UTF-8. -/
  | notText
  /-- Any other failure, in the words of the system. -/
  | other (message : String)
deriving DecidableEq, Repr

/-- The wording of the system for an error. -/
def FileError.message : FileError → String
  | .notFound => "No such file or directory (os error 2)"
  | .notDirectory => "Not a directory (os error 20)"
  | .isDirectory => "Is a directory (os error 21)"
  | .nameTooLong => "File name too long (os error 36)"
  | .notText => "stream did not contain valid UTF-8"
  | .other message => message

/-- Files by the names on the way to them from the root, and directories that may be empty, for a program whose working
directory is at the end of the names `home`. -/
structure Files (home : List String := []) where
  files : List (List String × ByteArray)
  directories : List (List String)

namespace Files

/-- The greatest number of bytes of a name. -/
def maxName : Nat := 255

/-- Paths of this many bytes are too long. -/
def maxPath : Nat := 4096

/-- The names of a path. -/
def namesOf (path : String) : List String :=
  (Text.pieces '/' path.toList).map String.ofList

/-- A path leads somewhere only if it has text, but not too much. -/
def checkPath (path : String) : Except FileError Unit :=
  if path = "" then .error .notFound
  else if path.utf8ByteSize ≥ maxPath then .error .nameTooLong
  else .ok ()

/-- Where a path starts: at the root, or in the working directory. -/
def start (home : List String) (path : String) : List String :=
  if path.toList.head? = some '/' then [] else home

variable {home : List String}

/-- The content of the file at the end of these names. -/
def file? (fs : Files home) (names : List String) : Option ByteArray :=
  fs.files.lookup names

/-- Whether these names lead to a directory. -/
def isDirectory (fs : Files home) (names : List String) : Bool :=
  names.isEmpty || fs.directories.any (fun path => names.isPrefixOf path)
    || fs.files.any fun (path, _) => names.isPrefixOf path && names ≠ path

/-- Goes on from a place, name by name. Above the root is the root. -/
def walk (fs : Files home) (here : List String) : List String → Except FileError (List String)
  | [] => .ok here
  | name :: rest =>
    if (fs.file? here).isSome then .error .notDirectory
    else if !fs.isDirectory here then .error .notFound
    else if name = "" || name = "." then fs.walk here rest
    else if name = ".." then fs.walk here.dropLast rest
    else if name.utf8ByteSize > maxName then .error .nameTooLong
    else fs.walk (here ++ [name]) rest

/-- Where a path leads. -/
def locate (fs : Files home) (path : String) : Except FileError (List String) := do
  checkPath path
  fs.walk (start home path) (namesOf path)

/-- The content of the file at a path. -/
def read (fs : Files home) (path : String) : Except FileError ByteArray := do
  let names ← fs.locate path
  match fs.file? names with
  | some content => .ok content
  | none => .error (if fs.isDirectory names then .isDirectory else .notFound)

/-- The text of the file at a path. -/
def readText (fs : Files home) (path : String) : Except FileError String := do
  match String.fromUTF8? (← fs.read path) with
  | some text => .ok text
  | none => .error .notText

/-- The files after the file at the end of these names got a content. -/
def put (fs : Files home) (names : List String) (content : ByteArray) : Files home :=
  { fs with files := (names, content) :: fs.files.filter (·.1 ≠ names) }

/-- Where a file can be written. A path that ends with a slash can only name a directory, whether it exists or not. -/
def target (fs : Files home) (path : String) : Except FileError (List String) := do
  let names := namesOf path
  if names.getLast? = some "" then
    checkPath path
    let directory := (names.reverse.dropWhile (· = "")).tail.reverse
    let _ ← fs.walk (start home path) (directory ++ ["."])
    .error .isDirectory
  else
    let place ← fs.locate path
    if fs.isDirectory place then .error .isDirectory else .ok place

/-- Writes a file, which need not exist, into a directory, which has to. -/
def write (fs : Files home) (path : String) (content : ByteArray) : Except FileError (Files home) := do
  return fs.put (← fs.target path) content

end Files
end AliasLang
