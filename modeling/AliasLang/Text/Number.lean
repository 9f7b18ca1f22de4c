/-
Numbers in text: unsigned decimals, decimals with a minus sign, and hexadecimal code units; and which decimals with an
exponent are too great for a 64-bit float.
-/

namespace AliasLang.Text

/-- The number that is written by writing ASCII digits after those of `n`. -/
def withDigits (n : Nat) (digits : List Char) : Nat :=
  digits.foldl (fun n c => 10 * n + (c.toNat - '0'.toNat)) n

/-- The value of a non-empty run of ASCII digits. Leading zeros are allowed. -/
def decimal? (digits : List Char) : Option Nat :=
  if digits.isEmpty || !digits.all Char.isDigit then none else some (withDigits 0 digits)

/-- A decimal of at most `limit`. -/
def boundedDecimal? (limit : Nat) (digits : List Char) : Option Nat :=
  (decimal? digits).filter (· ≤ limit)

/-- A decimal with an optional minus sign in front, of absolute value at most `limit`. -/
def signedDecimal? (limit : Nat) : List Char → Option Int
  | '-' :: digits => (boundedDecimal? limit digits).map fun n => -(n : Int)
  | digits => (boundedDecimal? limit digits).map Int.ofNat

/-- The greatest 64-bit unsigned number. -/
def maxUnsigned : Nat := 0xffffffffffffffff

/-- The greatest 64-bit signed number. -/
def maxSigned : Nat := 0x7fffffffffffffff

/-- The least number that rounds to infinity as a 64-bit float. It lies halfway between the greatest such float and the
power of two after it. -/
def floatLimit : Nat := (Nat.pow 2 54 - 1) * Nat.pow 2 970

/-- Whether `n` times ten to the power `exponent` rounds to infinity as a 64-bit float. Unless `n` is zero, the count of
its digits gives the power of ten above the number, and only between the 308th and the 309th power this leaves the
answer open. -/
def exceedsFloat (n : Nat) (exponent : Int) : Bool :=
  let power := (Nat.toDigits 10 n).length + exponent
  if n = 0 || power < 309 then false
  else if power > 309 then true
  else n * Nat.pow 10 exponent.toNat ≥ floatLimit * Nat.pow 10 (-exponent).toNat

/-- Hexadecimal digits of `n` in lower case, filled up with zeros in front to at least `width` digits. -/
def hex (width n : Nat) : List Char :=
  let digits := Nat.toDigits 16 n
  List.replicate (width - digits.length) '0' ++ digits

/-- The value of a hexadecimal digit. -/
def hexValue? (c : Char) : Option Nat :=
  if c.isDigit then some (c.toNat - '0'.toNat)
  else if 'a' ≤ c && c ≤ 'f' then some (c.toNat - 'a'.toNat + 10)
  else if 'A' ≤ c && c ≤ 'F' then some (c.toNat - 'A'.toNat + 10)
  else none

end AliasLang.Text
