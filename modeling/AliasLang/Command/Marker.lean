/-
Markers between the commands of a pipeline: a bare bar, a number between bars, or letters and digits that are drawn at
random. Before a numbered marker is chosen, the commands are searched for everything that looks like one.
-/
import AliasLang.Text.Number
import AliasLang.Text.Numeric
import AliasLang.Text.Split

namespace AliasLang.Command

/-- A marker. -/
inductive Marker where
  | bare
  | numbered (n : Nat)
deriving DecidableEq, Repr

namespace Marker

/-- How a marker is written. -/
def text : Marker → String
  | .bare => "|"
  | .numbered n => s!"|{n}|"

/-- The number that stands for a marker: -1 for the bare bar. -/
def key : Marker → Int
  | .bare => -1
  | .numbered n => n

/-- The markers that a text seems to hold, from left to right and without overlap: digits between two bars, or a
bar by itself. Digits of any script are taken for digits, but only a number in ASCII digits below 2^63 counts. -/
def found (cs : List Char) : List Marker :=
  match cs with
  | [] => []
  | c :: rest =>
    if c ≠ '|' then found rest
    else
      let digits := rest.takeWhile Text.isDecimalDigit
      if !digits.isEmpty && (rest.drop digits.length).head? = some '|' then
        ((Text.boundedDecimal? Text.maxSigned digits).map Marker.numbered).toList
          ++ found (rest.drop (digits.length + 1))
      else .bare :: found rest
termination_by cs.length
decreasing_by all_goals (simp only [List.length_cons, List.length_drop]; omega)

/-- The keys of the markers in a text, in increasing order. -/
def usedKeys (s : String) : List Int :=
  ((found s.toList).map key).mergeSort.eraseDups

/-- No marker with this number is in the text, neither by itself nor overlapping another one. -/
def isFree (text : List Char) (n : Nat) : Bool :=
  !(found text).contains (.numbered n) && !Text.occursIn (Marker.numbered n).text.toList text

/-- The least number that is free in a text. Each number that is not takes up a bar, so it is found among the numbers
below the count of bars. -/
def leastFree (text : List Char) : Nat :=
  let bars := text.count '|'
  ((List.range bars).find? (isFree text)).getD bars

/-- The marker for a list of commands: the bare bar unless the commands hold a marker. -/
def choose (commands : List String) : Marker :=
  let text := (" ".intercalate commands).toList
  if (found text).isEmpty then .bare else .numbered (leastFree text)

/-! ## Drawn markers -/

/-- The characters of drawn markers. -/
def drawnAlphabet : List Char :=
  "0123456789abcdefghijklmnopqrstuvwxyzABCDEFGHIJKLMNOPQRSTUVWXYZ".toList

/-- The number of characters of a drawn marker. -/
def drawnLength : Nat := 8

/-- How many drawn markers there are. -/
def drawnCount : Nat := Nat.pow drawnAlphabet.length drawnLength

/-- The marker with the given number: its digits in the base of the alphabet, the last ones first. -/
def drawn (number : Nat) : String :=
  String.ofList ((List.range drawnLength).map fun i =>
    drawnAlphabet.getD (number / Nat.pow drawnAlphabet.length i % drawnAlphabet.length) '0')

/-- The markers drawn one after the other from a random start. The step has no divisor in common with the number of
markers, so none comes twice before all have come. -/
def series (start n : Nat) : String :=
  drawn ((start + n * 134941606358731) % drawnCount)

end Marker
end AliasLang.Command
