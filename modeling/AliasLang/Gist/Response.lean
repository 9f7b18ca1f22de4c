/-
Replies of the gist service. A reply is a JSON record with the files of the gist, or with a message in case of a
failure. A gist can be imported when exactly one of its files has an eligible type.
-/
import AliasLang.Gist.Id
import AliasLang.Json.Raw

namespace AliasLang.Gist

open Json (Raw)

/-- A file of a gist. -/
structure File where
  contentType : String
  /-- The service sent only the beginning of the content. -/
  truncated : Bool
  content : String
deriving DecidableEq, Repr

/-- The types of files that can be imported. -/
def eligibleTypes : List String := ["text/plain", "application/javascript"]

/-- Whether a file can be imported. -/
def File.isEligible (f : File) : Bool := eligibleTypes.contains f.contentType

/-- Why a gist has no file to import. -/
inductive SelectionFault where
  | noFiles
  | noEligible
  | manyEligible
  | truncated
deriving DecidableEq, Repr

/-- The wording of a fault. -/
def SelectionFault.reason : SelectionFault → String
  | .noFiles => "there are no files in this Gist"
  | .noEligible => "no eligible files found in this Gist"
  | .manyEligible => "too many eligible files found in this Gist"
  | .truncated => "the eligible file in this Gist is truncated"

/-- The only eligible file of a gist. -/
def selectFile (files : List File) : Except SelectionFault File :=
  if files.isEmpty then .error .noFiles
  else match files.filter File.isEligible with
    | [] => .error .noEligible
    | [f] => if f.truncated then .error .truncated else .ok f
    | _ => .error .manyEligible

/-- What a reply says. -/
structure Response where
  /-- The files by their names, each name once. -/
  files : List (String × File)
  message : Option String
deriving DecidableEq, Repr

namespace Response

/-- Reads a file. -/
def file? (raw : Raw) : Option File := do
  let fields ← raw.fields? ["type", "truncated", "content"]
  return ⟨← Raw.field? Raw.text? "" "type" fields, ← Raw.field? Raw.flag? false "truncated" fields,
    ← Raw.field? Raw.text? "" "content" fields⟩

/-- Keeps, of the entries with the same name, the last one. -/
def lastByName : List (String × File) → List (String × File)
  | [] => []
  | entry :: rest => if rest.any (·.1 = entry.1) then lastByName rest else entry :: lastByName rest

/-- Reads the files of a gist. -/
def files? (raw : Raw) : Option (List (String × File)) := do
  let entries ← (← raw.members).mapM fun (name, value) => do return (name, ← file? value)
  return lastByName entries

/-- Reads a text that may be null. -/
def nullable? : Raw → Option (Option String)
  | .null => some none
  | raw => raw.text?.map some

/-- Reads a reply. -/
def ofText? (body : String) : Option Response := do
  let fields ← (← Raw.ofText? body).fields? ["files", "message"]
  return ⟨← Raw.field? files? [] "files" fields, ← Raw.field? nullable? none "message" fields⟩

end Response

/-- A status that reports success. -/
def isSuccess (status : Nat) : Bool := 200 ≤ status && status < 300

/-- The script in a reply of the service with the given status. -/
def interpret (id : Id) (status : Nat) (body : String) : Except FetchError String :=
  if status = 404 then .error (.notFound id.text)
  else
    let response := Response.ofText? body
    if isSuccess status then
      match response with
      | none => .error (.remote "malformed gist response")
      | some r =>
        match selectFile (r.files.map Prod.snd) with
        | .ok f => .ok f.content
        | .error fault => .error (.remote fault.reason)
    else
      let reason := (response.bind (·.message)).getD s!"HTTP status {status}"
      .error (.remote s!"error fetching gist {id.text}: {reason}")

end AliasLang.Gist
