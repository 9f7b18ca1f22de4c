/-
Finding and splitting: the first occurrence of a separator in a text, and the pieces between all occurrences of a
character.
-/

namespace AliasLang.Text

/-- The text before and after the first occurrence of `sep`. -/
def splitOnce? (sep : List Char) : List Char → Option (List Char × List Char)
  | [] => if sep.isEmpty then some ([], []) else none
  | c :: cs =>
    if sep.isPrefixOf (c :: cs) then some ([], (c :: cs).drop sep.length)
    else (splitOnce? sep cs).map fun (before, after) => (c :: before, after)

/-- Whether `part` occurs in `text` as a contiguous stretch. -/
def occursIn (part text : List Char) : Bool :=
  (splitOnce? part text).isSome

/-- The pieces of a text between the occurrences of `sep`: always one more than there are occurrences. -/
def pieces (sep : Char) : List Char → List (List Char)
  | [] => [[]]
  | c :: cs =>
    if c = sep then [] :: pieces sep cs
    else match pieces sep cs with
      | [] => [[c]]
      | piece :: rest => (c :: piece) :: rest

end AliasLang.Text
