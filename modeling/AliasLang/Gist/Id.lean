/-
Ids of gists, and what can go wrong when a script is fetched by its id.
-/
import AliasLang.Text.Number

namespace AliasLang.Gist

/-- Why a text is no id. -/
inductive IdFault where
  | notHexadecimal
  | empty
deriving DecidableEq, Repr

/-- The wording of a fault. -/
def IdFault.reason : IdFault → String
  | .notHexadecimal => "gist ids can only contain hexadecimal characters (0123456789abcdefABCDEF)"
  | .empty => "a gist id cannot be the empty string"

/-- A text of hexadecimal digits. -/
def isHexadecimal (s : String) : Bool :=
  s.toList.all fun c => (Text.hexValue? c).isSome

/-- A non-empty text of hexadecimal digits. -/
structure Id where
  text : String
  hexadecimal : isHexadecimal text = true
  nonempty : text ≠ ""
deriving DecidableEq

/-- The id that a text is. -/
def Id.ofText (s : String) : Except IdFault Id :=
  if h : isHexadecimal s = true then
    if h' : s = "" then .error .empty else .ok ⟨s, h, h'⟩
  else .error .notHexadecimal

/-- Why nothing was fetched. The reasons are worded by whoever fetches. -/
inductive FetchError where
  | invalidId (reason : String)
  | notFound (id : String)
  | remote (reason : String)
  | cache (reason : String)
deriving DecidableEq, Repr

/-- The message of a failed fetch. -/
def FetchError.message : FetchError → String
  | .invalidId reason => s!"invalid id: {reason}"
  | .notFound id => s!"no content found for id {id}"
  | .remote reason => s!"upstream failure: {reason}"
  | .cache reason => s!"cache failure: {reason}"

/-- The error for a text that is no id. -/
def IdFault.toFetchError (f : IdFault) : FetchError := .invalidId f.reason

/-- What a fetcher answers that has nothing to fetch from. -/
def importsDisabled (id : Id) : Except FetchError String :=
  .error (.remote s!"imports are disabled (requested {id.text})")

end AliasLang.Gist
