/-
Selectors of invocation arguments, written between `${` and `}`: one argument, all from one on, a range, a slice
whose negative bounds count from the end, or one of two names. Bounds are 64-bit numbers: unsigned in the `N+` and
`N-M` forms, and of absolute value below 2^63 in the others.
-/
import AliasLang.Text.Number
import AliasLang.Text.Split

namespace AliasLang.Token

/-- Which arguments of the invocation a literal stands for. -/
inductive Selector where
  /-- `N` or `-N`. -/
  | index (index : Int)
  /-- `N+`. -/
  | onward (start : Nat)
  /-- `N-M`. -/
  | range (start stop : Nat)
  /-- `N..` or `N..M`. -/
  | slice (start : Int) (stop : Option Int)
  /-- The user who runs the command. -/
  | executor
  /-- The channel in which it runs. -/
  | channel
deriving DecidableEq, Repr

namespace Selector

/-- A bound of an index or a slice. -/
def signed? (cs : List Char) : Option Int := Text.signedDecimal? Text.maxSigned cs

/-- A bound of the `N+` and `N-M` forms. -/
def unsigned? (cs : List Char) : Option Nat := Text.boundedDecimal? Text.maxUnsigned cs

/-- A slice whose text before and after the two dots is given. -/
def slice? (start stop : List Char) : Option Selector := do
  let first ← signed? start
  if stop.isEmpty then return .slice first none
  let last ← signed? stop
  return .slice first (some last)

/-- A range whose text before and after the dash is given. -/
def range? (start stop : List Char) : Option Selector := do
  return .range (← unsigned? start) (← unsigned? stop)

/-- Reads the numeric forms. Two dots make a slice, a last `+` the onward form, and a dash that is not in front a
range. -/
def numeric? (cs : List Char) : Option Selector :=
  match Text.splitOnce? ['.', '.'] cs with
  | some (start, stop) => slice? start stop
  | none =>
    if cs.getLast? = some '+' then (unsigned? cs.dropLast).map .onward
    else if cs.head? = some '-' then (signed? cs).map .index
    else match Text.splitOnce? ['-'] cs with
      | some (start, stop) => range? start stop
      | none => (signed? cs).map .index

/-- Reads the text between `${` and `}`. -/
def read? (inner : String) : Option Selector :=
  if inner = "executor" then some .executor
  else if inner = "channel" then some .channel
  else numeric? inner.toList

/-- The canonical text between `${` and `}`. -/
def inner : Selector → String
  | .index n => toString n
  | .onward start => s!"{start}+"
  | .range start stop => s!"{start}-{stop}"
  | .slice start none => s!"{start}.."
  | .slice start (some stop) => s!"{start}..{stop}"
  | .executor => "executor"
  | .channel => "channel"

/-- The literal in canonical form, `${` and `}` included. -/
def text (s : Selector) : String :=
  "$\x7b" ++ s.inner ++ "\x7d"

end Selector

/-- An argument literal, and the exact text it was written as. -/
structure ArgLiteral where
  selector : Selector
  /-- The text in the source, `${` and `}` included. -/
  raw : String
deriving DecidableEq, Repr

end AliasLang.Token
