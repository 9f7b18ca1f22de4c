/-
The cache of gists: a directory with one file for each gist, named by its id.
-/
import AliasLang.Files
import AliasLang.Gist.Id

namespace AliasLang.Gist

/-- The path of a name in a directory. -/
def joinPath (directory name : String) : String :=
  if directory.isEmpty || directory.toList.getLast? = some '/' then directory ++ name else directory ++ "/" ++ name

/-- The path of a gist in the cache. -/
def cachePath (directory : String) (id : Id) : String := joinPath directory id.text

/-- The script with the given id, from the cache; what is not there is downloaded, but not in offline mode. Text files
are read by `read`. -/
def fetch (read : String → Except FileError String) (download : Id → Except FetchError String) (directory : String)
    (offline : Bool) (id : Id) : Except FetchError String :=
  let path := cachePath directory id
  match read path with
  | .ok content => .ok content
  | .error .notFound =>
    if offline then .error (.remote s!"gist {id.text} is not cached and offline mode is on") else download id
  | .error e => .error (.cache s!"{path}: {e.message}")

end AliasLang.Gist
